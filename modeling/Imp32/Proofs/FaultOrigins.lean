import Imp32.Stmt.Exec
import Imp32.Proofs.Nodes

/-!
# Where faults come from

Every fault of a run belongs to a node of the program that was run: the node is of a sort that can
raise such a fault, and it carries the fault's line. The faults that no node raises are never seen.
No operator is applied in a place where it cannot stand, and no scope is left that was not entered.

Both are shown together (`Exec.Confined`): an action closes the scopes that it opens, so leaving its
scope succeeds, and adds no fault to those of the action.
-/

namespace Imp32

/-! ## Nodes and their faults -/

/-- The operator steps a variable. -/
def UnaryOp.Steps (op : UnaryOp) : Prop := op = .increment ∨ op = .decrement

/-- The operator divides, alone or as part of an assignment. -/
def BinaryOp.Divides (op : BinaryOp) : Prop := op = .arith .div ∨ op = .compound .div

/-- The expression is a variable. -/
def Expr.IsVar (e : Expr) : Prop := ∃ name line, e = .var name line

/-- The faults that an expression node can raise itself, other than through its operands. -/
inductive Expr.Raises : Expr → Fault → Prop where
  | lookup (name : String) (line : Nat) :
      Raises (.var name line) (.raised (.undefinedVariable name) line)
  | step {op : UnaryOp} (hop : op.Steps) (name : String) (l line : Nat) :
      Raises (.unary op (.var name l) line) (.raised (.undefinedVariable name) line)
  | stepTarget {op : UnaryOp} {operand : Expr} (hop : op.Steps) (hvar : ¬ operand.IsVar)
      (line : Nat) :
      Raises (.unary op operand line) (.raised (.expectedVariable op.spelling) line)
  | assignTarget {op : BinaryOp} {left : Expr} (hop : op.assigns = true) (hvar : ¬ left.IsVar)
      (right : Expr) (line : Nat) :
      Raises (.binary left op right line) (.raised (.expectedVariable op.spelling) line)
  | quotient {op : BinaryOp} (hop : op.Divides) (left right : Expr) (line : Nat) :
      Raises (.binary left op right line) (.raised .divisionByZero line)

/-- The faults that a statement node can raise itself, other than through its parts. -/
inductive Stmt.Raises : Stmt → Fault → Prop where
  | write (value : Expr) (reason : String) (line : Nat) :
      Raises (.print value line) (.raised (.output reason) line)

/-! ## Operators -/

/-- Division is the only arithmetic that can fail. -/
theorem ArithOp.eq_of_apply_eq_error {op : ArithOp} {line : Nat} {a b : Value} {fault : Fault}
    (h : op.apply line a b = .error fault) :
    op = .div ∧ fault = .raised .divisionByZero line := by
  cases op with
  | div =>
    rw [apply] at h
    split at h
    · cases h
      exact ⟨rfl, rfl⟩
    · cases h
  | _ => cases h

theorem BinaryOp.eq_of_apply_eq_error {op : BinaryOp} (hop : op.assigns = false) {line : Nat}
    {a b : Value} {fault : Fault} (h : op.apply line a b = .error fault) :
    op = .arith .div ∧ fault = .raised .divisionByZero line := by
  cases op with
  | arith op =>
    obtain ⟨rfl, hfault⟩ := ArithOp.eq_of_apply_eq_error h
    exact ⟨rfl, hfault⟩
  | compare op => cases h
  | logic op => cases h
  | assign => cases hop
  | compound op => cases hop

/-! ## Expressions -/

namespace Eval

variable {α β : Type} {P : Fault → Prop}

/-- The computation opens and closes no scope, and its faults are among the given ones. -/
def Confined (P : Fault → Prop) (x : Eval α) : Prop :=
  ∀ env, (x env).2.depth = env.depth ∧ ∀ fault, (x env).1 = .error fault → P fault

theorem confined_pure (a : α) : Confined P (pure a) := by
  intro env
  refine ⟨rfl, fun fault h => ?_⟩
  cases h

theorem confined_liftM {x : Except Fault α} (h : ∀ fault, x = .error fault → P fault) :
    Confined P (liftM x) :=
  fun _ => ⟨rfl, h⟩

theorem Confined.bind {x : Eval α} {f : α → Eval β} (hx : Confined P x)
    (hf : ∀ a, Confined P (f a)) : Confined P (x >>= f) := by
  intro env
  obtain ⟨hdepth, hfault⟩ := hx env
  change (ExceptT.bindCont f (x env).1 (x env).2).2.depth = env.depth ∧
    ∀ fault, (ExceptT.bindCont f (x env).1 (x env).2).1 = .error fault → P fault
  cases hr : (x env).1 with
  | error fault =>
    refine ⟨hdepth, fun fault' h => ?_⟩
    cases h
    exact hfault fault hr
  | ok a =>
    obtain ⟨hdepth', hfault'⟩ := hf a (x env).2
    exact ⟨hdepth'.trans hdepth, hfault'⟩

theorem confined_get : Confined P (get : Eval Env) := by
  intro env
  refine ⟨rfl, fun fault h => ?_⟩
  cases h

theorem confined_assign (name : String) (value : Value) :
    Confined P (do modify fun env => env.assign name value; return value) := by
  intro env
  refine ⟨env.depth_assign name value, fun fault h => ?_⟩
  cases h

theorem confined_lookup {name : String} {line : Nat}
    (h : P (.raised (.undefinedVariable name) line)) (env : Env) :
    Confined P (liftM (env.lookup name line)) := by
  refine confined_liftM fun fault hfault => ?_
  unfold Env.lookup at hfault
  split at hfault
  · cases hfault
  · cases hfault
    exact h

end Eval

namespace Expr

open Eval

variable {P : Fault → Prop}

theorem target_of_not_isVar {e : Expr} (he : ¬ e.IsVar) (operator : String) (line : Nat) :
    e.target operator line = .error (.raised (.expectedVariable operator) line) := by
  cases e with
  | var name l => exact absurd ⟨name, l, rfl⟩ he
  | _ => rfl

/-- Going on with the target of an operator adds one fault, and only if there is no target. -/
theorem confined_target {e : Expr} {operator : String} {line : Nat} {f : String → Eval Value}
    (hvar : ∀ name l, e = .var name l → Confined P (f name))
    (hother : ¬ e.IsVar → P (.raised (.expectedVariable operator) line)) :
    Confined P (do f (← e.target operator line)) := by
  by_cases he : e.IsVar
  · obtain ⟨name, l, rfl⟩ := he
    exact hvar name l rfl
  · rw [target_of_not_isVar he]
    intro env
    refine ⟨rfl, fun fault h => ?_⟩
    cases h
    exact hother he

/-- Stepping a variable raises only faults of its operator. -/
theorem confined_advance {op : UnaryOp} (hop : op.Steps) {operand : Expr} {line : Nat}
    (h : ∀ fault, (unary op operand line).Raises fault → P fault) (delta : Value) :
    Confined P (operand.advance op delta line) := by
  refine confined_target (fun name l hname => ?_) fun hvar => h _ (.stepTarget hop hvar line)
  subst hname
  have hlookup := confined_lookup (h _ (.step hop name l line))
  exact confined_get.bind fun env => (hlookup env).bind fun a => confined_assign name (a + delta)

theorem confined_store {left right : Expr} {line : Nat}
    (h : ∀ fault, (binary left .assign right line).Raises fault → P fault) (value : Value) :
    Confined P (left.store value line) :=
  confined_target (fun name _ _ => confined_assign name value)
    fun hvar => h _ (.assignTarget rfl hvar right line)

theorem confined_storeComputed {left right : Expr} {op : ArithOp} {line : Nat}
    (h : ∀ fault, (binary left (.compound op) right line).Raises fault → P fault) (a b : Value) :
    Confined P (left.storeComputed (.compound op) (.arith op) a b line) := by
  refine (confined_liftM fun fault hfault => ?_).bind fun result => ?_
  · obtain ⟨hop, rfl⟩ := BinaryOp.eq_of_apply_eq_error rfl hfault
    cases hop
    exact h _ (.quotient (.inr rfl) left right line)
  · exact confined_target (fun name _ _ => confined_assign name result)
      fun hvar => h _ (.assignTarget rfl hvar right line)

theorem confined_apply {left right : Expr} {op : BinaryOp} (hop : op.assigns = false) {line : Nat}
    (h : ∀ fault, (binary left op right line).Raises fault → P fault) (a b : Value) :
    Confined P (liftM (op.apply line a b)) := by
  refine confined_liftM fun fault hfault => ?_
  obtain ⟨rfl, rfl⟩ := BinaryOp.eq_of_apply_eq_error hop hfault
  exact h _ (.quotient (.inl rfl) left right line)

/-- The faults of an expression are raised by its nodes. -/
theorem confined_eval {e : Expr} (h : ∀ n ∈ e.nodes, ∀ fault, n.Raises fault → P fault) :
    Confined P e.eval := by
  induction e with
  | num value line => exact confined_pure value
  | var name line =>
    have hname := h _ List.mem_cons_self _ (.lookup name line)
    exact confined_get.bind (confined_lookup hname)
  | unary op operand line ih =>
    rw [nodes, List.forall_mem_cons] at h
    obtain ⟨hnode, hoperand⟩ := h
    cases op with
    | increment => exact confined_advance (.inl rfl) hnode 1
    | decrement => exact confined_advance (.inr rfl) hnode (-1)
    | negate => exact (ih hoperand).bind fun a => confined_pure (-a)
    | complement => exact (ih hoperand).bind fun a => confined_pure (~~~a)
  | binary left op right line ihl ihr =>
    rw [nodes, List.forall_mem_cons, List.forall_mem_append] at h
    obtain ⟨hnode, hleft, hright⟩ := h
    cases op with
    | assign => exact (ihr hright).bind fun value => confined_store hnode value
    | compound op =>
      exact (ihr hright).bind fun b => (ihl hleft).bind fun a => confined_storeComputed hnode a b
    | arith op | compare op | logic op =>
      exact (ihr hright).bind fun b => (ihl hleft).bind fun a => confined_apply rfl hnode a b

end Expr

/-! ## Actions -/

/-- All scopes but the outermost one can be left. -/
theorem Env.exists_pop {env : Env} {d : Nat} (h : env.depth = d + 2) :
    ∃ env', env.pop = .ok env' ∧ env'.depth = d + 1 := by
  obtain ⟨inner, outer⟩ := env
  cases outer with
  | nil => simp [depth] at h
  | cons frame frames =>
    refine ⟨⟨frame, frames⟩, rfl, ?_⟩
    simpa [depth] using h

namespace Exec

variable {α β : Type} {P : Fault → Prop}

/-- The action closes the scopes that it opens, and its faults are among the given ones. -/
def Confined (P : Fault → Prop) (x : Exec α) : Prop :=
  ∀ m r m', x m = some (r, m') →
    m'.env.depth = m.env.depth ∧ ∀ fault, r = .error fault → P fault

theorem confined_pure (a : α) : Confined P (pure a) := by
  intro m r m' h
  cases h
  refine ⟨rfl, fun fault hfault => ?_⟩
  cases hfault

theorem Confined.bind {x : Exec α} {f : α → Exec β} (hx : Confined P x)
    (hf : ∀ a, Confined P (f a)) : Confined P (x >>= f) := by
  intro m r m' h
  rcases bind_eq_some_iff.mp h with ⟨fault, hm, rfl⟩ | ⟨a, k, hm, hk⟩
  · obtain ⟨hdepth, hfault⟩ := hx m _ m' hm
    refine ⟨hdepth, fun fault' heq => ?_⟩
    cases heq
    exact hfault fault rfl
  · obtain ⟨hdepth, -⟩ := hx m _ k hm
    obtain ⟨hdepth', hfault⟩ := hf a k r m' hk
    exact ⟨hdepth'.trans hdepth, hfault⟩

theorem confined_ofEval {x : Eval α} (h : Eval.Confined P x) : Confined P (ofEval x) := by
  intro m r m' hm
  cases hm
  exact h m.env

theorem confined_write {value : Value} {line : Nat}
    (h : ∀ reason, P (.raised (.output reason) line)) : Confined P (write value line) := by
  intro m r m' hm
  unfold write at hm
  split at hm
  · cases hm
    refine ⟨rfl, fun fault hfault => ?_⟩
    cases hfault
  · cases hm
    refine ⟨rfl, fun fault hfault => ?_⟩
    cases hfault
    exact h _

/-- However often a loop tests, a fault comes from its test or from its body. -/
theorem Confined.repeatWhile {condition : Exec Bool} {x : Exec Unit} (hc : Confined P condition)
    (hx : Confined P x) (budget : Nat) : Confined P (repeatWhile condition x budget) := by
  induction budget with
  | zero =>
    intro m r m' h
    cases h
  | succ budget ih =>
    refine hc.bind fun holds => ?_
    cases holds with
    | true => exact hx.bind fun _ => ih
    | false => exact confined_pure ()

/-- The scope of an action that closes its own scopes can be left. -/
theorem Confined.inScope {x : Exec α} (hx : Confined P x) : Confined P (inScope x) := by
  intro m r m' h
  unfold Exec.inScope at h
  split at h
  · rename_i result k hk
    obtain ⟨hdepth, hfault⟩ := hx m.enter result k hk
    have hdepth' : k.env.depth = m.env.outer.length + 2 := hdepth
    obtain ⟨env, hpop, henv⟩ := Env.exists_pop hdepth'
    rw [Machine.leave_of_pop hpop] at h
    cases h
    exact ⟨henv, hfault⟩
  · cases h

end Exec

/-! ## Statements and programs -/

namespace Stmt

open Exec

variable {P : Fault → Prop}

theorem confined_test {condition : Expr}
    (h : ∀ n ∈ condition.nodes, ∀ fault, n.Raises fault → P fault) :
    Confined P (test condition) :=
  confined_ofEval ((Expr.confined_eval h).bind fun value => Eval.confined_pure value.truth)

theorem confined_perform {e : Expr} (h : ∀ n ∈ e.nodes, ∀ fault, n.Raises fault → P fault) :
    Confined P (perform e) := by
  rw [perform_eq]
  exact confined_ofEval ((Expr.confined_eval h).bind fun _ => Eval.confined_pure ())

theorem confined_forM_perform {list : List Expr}
    (h : ∀ n ∈ list.flatMap Expr.nodes, ∀ fault, n.Raises fault → P fault) :
    Confined P (list.forM perform) := by
  induction list with
  | nil => exact confined_pure ()
  | cons e es ih =>
    rw [List.flatMap_cons, List.forall_mem_append] at h
    exact (confined_perform h.1).bind fun _ => ih h.2

mutual

/-- The faults of a statement are raised by its nodes. -/
theorem confined_exec {s : Stmt} (hs : ∀ n ∈ s.nodes, ∀ fault, n.Raises fault → P fault)
    (he : ∀ n ∈ s.exprNodes, ∀ fault, n.Raises fault → P fault) (budget : Nat) :
    Confined P (s.exec budget) := by
  match s with
  | .empty _ => exact confined_pure ()
  | .block body _ =>
    rw [nodes, List.forall_mem_cons] at hs
    exact (confined_execAll hs.2 he budget).inScope
  | .ifThen condition thenBranch _ =>
    simp only [nodes, exprNodes, List.forall_mem_cons, List.forall_mem_append] at hs he
    refine ((confined_test he.1).bind fun holds => ?_).inScope
    cases holds with
    | true => exact confined_exec hs.2 he.2 budget
    | false => exact confined_pure ()
  | .ifElse condition thenBranch elseBranch _ =>
    simp only [nodes, exprNodes, List.forall_mem_cons, List.forall_mem_append] at hs he
    refine ((confined_test he.1.1).bind fun holds => ?_).inScope
    cases holds with
    | true => exact confined_exec hs.2.1 he.1.2 budget
    | false => exact confined_exec hs.2.2 he.2 budget
  | .whileDo condition body _ =>
    simp only [nodes, exprNodes, List.forall_mem_cons, List.forall_mem_append] at hs he
    have hbody := confined_exec hs.2 he.2 budget
    exact ((confined_test he.1).repeatWhile hbody budget).inScope
  | .doWhile body condition _ =>
    simp only [nodes, exprNodes, List.forall_mem_cons, List.forall_mem_append] at hs he
    have hbody := confined_exec hs.2 he.1 budget
    rw [exec_doWhile]
    exact (hbody.bind fun _ => (confined_test he.2).repeatWhile hbody budget).inScope
  | .forDo init condition step body _ =>
    simp only [nodes, exprNodes, List.forall_mem_cons, List.forall_mem_append] at hs he
    obtain ⟨⟨⟨hinit, hcondition⟩, hstep⟩, hbody⟩ := he
    have hround := (confined_exec hs.2.2 hbody budget).bind fun _ => confined_perform hstep
    have hloop := (confined_test hcondition).repeatWhile hround budget
    exact ((confined_exec hs.2.1 hinit budget).bind fun _ => hloop).inScope
  | .exprs list _ => exact confined_forM_perform he
  | .print value line =>
    have hwrite (reason : String) := hs _ List.mem_cons_self _ (.write value reason line)
    exact (confined_ofEval (Expr.confined_eval he)).bind fun _ => confined_write hwrite

theorem confined_execAll {ss : List Stmt}
    (hs : ∀ n ∈ nodesAll ss, ∀ fault, n.Raises fault → P fault)
    (he : ∀ n ∈ exprNodesAll ss, ∀ fault, n.Raises fault → P fault) (budget : Nat) :
    Confined P (execAll budget ss) := by
  match ss with
  | [] => exact confined_pure ()
  | s :: ss =>
    simp only [nodesAll, exprNodesAll, List.forall_mem_append] at hs he
    exact (confined_exec hs.1 he.1 budget).bind fun _ => confined_execAll hs.2 he.2 budget

end

end Stmt

namespace Program

/-- Every fault of a program is raised by one of its nodes. -/
theorem raises_of_exec {p : Program} {budget : Nat} {m m' : Machine} {fault : Fault}
    (h : p.exec budget m = some (.error fault, m')) :
    (∃ s ∈ p.nodes, s.Raises fault) ∨ ∃ e ∈ p.exprNodes, e.Raises fault := by
  have hconfined : Exec.Confined
      (fun fault => (∃ s ∈ p.nodes, s.Raises fault) ∨ ∃ e ∈ p.exprNodes, e.Raises fault)
      (p.exec budget) := by
    rw [exec_eq]
    refine Stmt.confined_execAll (fun s hs fault hraise => ?_) (fun e he fault hraise => ?_) budget
    · rw [Stmt.nodesAll_eq_flatMap] at hs
      exact .inl ⟨s, hs, hraise⟩
    · rw [Stmt.exprNodesAll_eq_flatMap] at he
      exact .inr ⟨e, he, hraise⟩
  exact (hconfined m _ m' h).2 fault rfl

/-- A fault of a program is never one of leaving the outermost scope or of an operator that cannot
stand where it does; and it carries the line of a node that explains it: a quotient by zero that of
a division, an undefined variable that of a use of its name, a missing target that of an operator
without one, a failure to write that of a statement that prints. -/
theorem faults_blame_a_node {p : Program} {budget : Nat} {m m' : Machine} {fault : Fault}
    (h : p.exec budget m = some (.error fault, m')) :
    fault ≠ .scopeUnderflow ∧ (∀ misuse line, fault ≠ .raised (.malformed misuse) line) ∧
      (∀ line, fault = .raised .divisionByZero line →
        ∃ left op right, .binary left op right line ∈ p.exprNodes ∧ op.Divides) ∧
      (∀ name line, fault = .raised (.undefinedVariable name) line →
        .var name line ∈ p.exprNodes ∨
          ∃ op l, .unary op (.var name l) line ∈ p.exprNodes ∧ op.Steps) ∧
      (∀ operator line, fault = .raised (.expectedVariable operator) line →
        (∃ left op right, .binary left op right line ∈ p.exprNodes ∧ op.assigns = true ∧
          op.spelling = operator ∧ ¬ left.IsVar) ∨
        ∃ op operand, .unary op operand line ∈ p.exprNodes ∧ op.Steps ∧
          op.spelling = operator ∧ ¬ operand.IsVar) ∧
      ∀ reason line, fault = .raised (.output reason) line →
        ∃ value, .print value line ∈ p.nodes := by
  have horigin := raises_of_exec h
  refine ⟨?_, ?_, ?_, ?_, ?_, ?_⟩
  · rintro rfl
    rcases horigin with ⟨s, -, hraise⟩ | ⟨e, -, hraise⟩ <;> cases hraise
  · rintro misuse line rfl
    rcases horigin with ⟨s, -, hraise⟩ | ⟨e, -, hraise⟩ <;> cases hraise
  · rintro line rfl
    rcases horigin with ⟨s, -, hraise⟩ | ⟨e, he, hraise⟩
    · cases hraise
    · cases hraise with
      | quotient hop left right => exact ⟨left, _, right, he, hop⟩
  · rintro name line rfl
    rcases horigin with ⟨s, -, hraise⟩ | ⟨e, he, hraise⟩
    · cases hraise
    · cases hraise with
      | lookup => exact .inl he
      | step hop _ l => exact .inr ⟨_, l, he, hop⟩
  · rintro operator line rfl
    rcases horigin with ⟨s, -, hraise⟩ | ⟨e, he, hraise⟩
    · cases hraise
    · cases hraise with
      | assignTarget hop hvar right => exact .inl ⟨_, _, right, he, hop, rfl, hvar⟩
      | stepTarget hop hvar => exact .inr ⟨_, _, he, hop, rfl, hvar⟩
  · rintro reason line rfl
    rcases horigin with ⟨s, hs, hraise⟩ | ⟨e, -, hraise⟩
    · cases hraise with
      | write value => exact ⟨value, hs⟩
    · cases hraise

theorem faults_blame_a_node_in_loop :
    let p : Program :=
      [.whileDo (.num 1 1) (.exprs [.binary (.num 3 2) (.compound .div) (.num 0 3) 2] 2) 1]
    p.exec 1 {} = some (.error (.raised .divisionByZero 2), {}) ∧
      ∃ left op right, .binary left op right 2 ∈ p.exprNodes ∧ op.Divides := by
  intro p
  have hexec : p.exec 1 {} = some (.error (.raised .divisionByZero 2), {}) := rfl
  exact ⟨hexec, (faults_blame_a_node hexec).2.2.1 2 rfl⟩

end Program

end Imp32
