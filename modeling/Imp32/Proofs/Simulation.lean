import Imp32.Stmt.Exec
import Imp32.Proofs.Nodes

/-!
# Simulation

When a tree does the same in two environments. A relation between environments is enough if related
environments agree on the variables that the tree reads, stay related when both are assigned to, and
stay related when both enter or leave a scope. Then from related environments the tree has the same
result, writes the same output, and leaves related environments (`Stmt.exec_sim`).

The relation may depend on the number of scopes that were entered (`Env.Bisim`). Expressions, and
statements without a scope of their own, need a single relation (`Env.Related`).

With a relation between equal environments, this also shows that running a tree preserves a property
of the environment.
-/

namespace Imp32

/-! ## Names in use -/

/-- The names that a tree may use, and how. -/
structure Footprint where
  /-- The names that may be looked up. -/
  reads : String → Prop
  /-- The names that may be assigned to, whether bound or not. -/
  declares : String → Prop
  /-- The names that may be assigned to if they are bound. -/
  updates : String → Prop

/-- A node uses names as the footprint allows. -/
def Expr.Within (F : Footprint) : Expr → Prop
  | .var name _ => F.reads name
  | .unary .increment (.var name _) _ => F.updates name
  | .unary .decrement (.var name _) _ => F.updates name
  | .binary (.var name _) .assign _ _ => F.declares name
  | .binary (.var name _) (.compound _) _ _ => F.updates name
  | _ => True

/-- All names may be used in all ways. -/
def Footprint.all : Footprint := ⟨fun _ => True, fun _ => True, fun _ => True⟩

theorem Expr.within_all (e : Expr) : e.Within .all := by
  unfold Within
  split <;> trivial

/-! ## Related environments -/

/-- What a relation between environments must satisfy for expressions to behave alike. -/
structure Env.Related (F : Footprint) (S : Env → Env → Prop) : Prop where
  /-- Names that are read have the same value. -/
  get? {e e' : Env} {name : String} (h : S e e') (hname : F.reads name) :
    e.get? name = e'.get? name
  /-- Names may be declared. -/
  declare {e e' : Env} {name : String} (h : S e e') (hname : F.declares name) (value : Value) :
    S (e.assign name value) (e'.assign name value)
  /-- Names that are bound may be updated. -/
  update {e e' : Env} {name : String} (h : S e e') (hname : F.updates name)
    (hbound : (e.get? name).isSome = true) (value : Value) :
    S (e.assign name value) (e'.assign name value)

/-- What relations between environments, one for each number of scopes entered, must satisfy for
statements to behave alike. -/
structure Env.Bisim (F : Footprint) (R : Nat → Env → Env → Prop) : Prop where
  /-- Expressions behave alike in every scope. -/
  related (n : Nat) : Related F (R n)
  /-- A scope may be entered. -/
  push {n : Nat} {e e' : Env} (h : R n e e') : R (n + 1) e.push e'.push
  /-- A scope that was entered may be left. -/
  pop {n : Nat} {e e' : Env} (h : R (n + 1) e e') :
    ∃ f f', e.pop = .ok f ∧ e'.pop = .ok f' ∧ R n f f'

/-! ## Expressions -/

namespace Eval

variable {α β : Type} {S : Env → Env → Prop}

/-- From related environments, the computations have the same result and leave related ones. -/
def Sim (S : Env → Env → Prop) (x y : Eval α) : Prop :=
  ∀ e e', S e e' → (x e).1 = (y e').1 ∧ S (x e).2 (y e').2

theorem sim_pure (a : α) : Sim S (pure a) (pure a) := fun _ _ h => ⟨rfl, h⟩

theorem sim_liftM (x : Except Fault α) : Sim S (liftM x) (liftM x) := fun _ _ h => ⟨rfl, h⟩

theorem Sim.bind {x y : Eval α} {f g : α → Eval β} (hxy : Sim S x y)
    (hfg : ∀ a, Sim S (f a) (g a)) : Sim S (x >>= f) (y >>= g) := by
  intro e e' h
  obtain ⟨hresult, henv⟩ := hxy e e' h
  change (ExceptT.bindCont f (x e).1 (x e).2).1 = (ExceptT.bindCont g (y e').1 (y e').2).1 ∧
    S (ExceptT.bindCont f (x e).1 (x e).2).2 (ExceptT.bindCont g (y e').1 (y e').2).2
  rw [hresult]
  cases (y e').1 with
  | ok a => exact hfg a _ _ henv
  | error fault => exact ⟨rfl, henv⟩

end Eval

namespace Expr

theorem advance_var (op : UnaryOp) (delta : Value) (name : String) (l line : Nat) (e : Env) :
    (var name l).advance op delta line e =
      match e.get? name with
      | some a => (.ok (a + delta), e.assign name (a + delta))
      | none => (.error (.raised (.undefinedVariable name) line), e) := by
  let step (a : Value) : Eval Value := do
    modify fun env => env.assign name (a + delta)
    return a + delta
  change ExceptT.bindCont step (e.lookup name line) e = _
  rw [Env.lookup]
  cases e.get? name <;> rfl

theorem storeComputed_var (op base : BinaryOp) (a b : Value) (name : String) (l line : Nat)
    (e : Env) :
    (var name l).storeComputed op base a b line e =
      match base.apply line a b with
      | .ok result => (.ok result, e.assign name result)
      | .error fault => (.error fault, e) := by
  let step (result : Value) : Eval Value := do
    modify fun env => env.assign name result
    return result
  change ExceptT.bindCont step (base.apply line a b) e = _
  cases base.apply line a b <;> rfl

open Eval

section Sim

variable {F : Footprint} {S : Env → Env → Prop} (hS : Env.Related F S)
include hS

theorem sim_eval_var {name : String} (hname : F.reads name) (line : Nat) :
    Sim S (var name line).eval (var name line).eval := by
  intro e e' h
  refine ⟨?_, h⟩
  change e.lookup name line = e'.lookup name line
  rw [Env.lookup, Env.lookup, hS.get? h hname]

theorem sim_advance {name : String} (hread : F.reads name) (hupdate : F.updates name)
    (op : UnaryOp) (delta : Value) (l line : Nat) :
    Sim S ((var name l).advance op delta line) ((var name l).advance op delta line) := by
  intro e e' h
  rw [advance_var, advance_var, ← hS.get? h hread]
  cases hget : e.get? name with
  | none => exact ⟨rfl, h⟩
  | some a => exact ⟨rfl, hS.update h hupdate (by rw [hget]; rfl) _⟩

/-- The variable on the left of a compound assignment is read before it is updated. -/
theorem sim_storeComputed {name : String} (hread : F.reads name) (hupdate : F.updates name)
    (op base : BinaryOp) (b : Value) (l line : Nat) :
    let x : Eval Value := do
      let a ← (var name l).eval
      (var name l).storeComputed op base a b line
    Sim S x x := by
  intro x e e' h
  have hx (env : Env) : x env = ExceptT.bindCont
      (fun a => (var name l).storeComputed op base a b line) (env.lookup name l) env := rfl
  rw [hx, hx, Env.lookup, Env.lookup, ← hS.get? h hread]
  cases hget : e.get? name with
  | none => exact ⟨rfl, h⟩
  | some a =>
    change ((var name l).storeComputed op base a b line e).1 =
        ((var name l).storeComputed op base a b line e').1 ∧
      S ((var name l).storeComputed op base a b line e).2
        ((var name l).storeComputed op base a b line e').2
    rw [storeComputed_var, storeComputed_var]
    cases base.apply line a b with
    | error fault => exact ⟨rfl, h⟩
    | ok result => exact ⟨rfl, hS.update h hupdate (by rw [hget]; rfl) _⟩

/-- An expression does the same in related environments. -/
theorem sim_eval {e : Expr} (h : ∀ n ∈ e.nodes, n.Within F) : Sim S e.eval e.eval := by
  induction e with
  | num value line => exact sim_pure value
  | var name line => exact sim_eval_var hS (h _ List.mem_cons_self) line
  | unary op operand line ih =>
    simp only [nodes, List.mem_cons, or_imp, forall_and, forall_eq] at h
    cases op with
    | negate | complement => exact (ih h.2).bind fun a => sim_liftM _
    | increment | decrement =>
      cases operand with
      | var name l => exact sim_advance hS (h.2 _ List.mem_cons_self) h.1 _ _ l line
      | _ => exact fun _ _ h => ⟨rfl, h⟩
  | binary left op right line ihl ihr =>
    simp only [nodes, List.mem_cons, List.mem_append, or_imp, forall_and, forall_eq] at h
    cases op with
    | assign =>
      refine (ihr h.2.2).bind fun value => ?_
      cases left with
      | var name l => exact fun _ _ hs => ⟨rfl, hS.declare hs h.1 value⟩
      | _ => exact fun _ _ h => ⟨rfl, h⟩
    | compound op =>
      refine (ihr h.2.2).bind fun b => ?_
      cases left with
      | var name l => exact sim_storeComputed hS (h.2.1 _ List.mem_cons_self) h.1 _ _ b l line
      | _ =>
        exact (ihl h.2.1).bind fun a => (sim_liftM _).bind fun result => fun _ _ h => ⟨rfl, h⟩
    | arith op | compare op | logic op =>
      exact (ihr h.2.2).bind fun b => (ihl h.2.1).bind fun a => sim_liftM _

end Sim

end Expr

/-! ## Actions -/

/-- The states have related environments and the same output. -/
def Machine.Lift (S : Env → Env → Prop) (m m' : Machine) : Prop :=
  S m.env m'.env ∧ m.sink = m'.sink

namespace Exec

variable {α β : Type} {S : Env → Env → Prop}

/-- From related states, the actions end both or neither, with the same result in related states. -/
def Sim (S : Env → Env → Prop) (x y : Exec α) : Prop :=
  ∀ m m', Machine.Lift S m m' →
    Option.Rel (fun p q => p.1 = q.1 ∧ Machine.Lift S p.2 q.2) (x m) (y m')

/-- How two actions that do the same end. -/
theorem Sim.ends {x y : Exec α} (hxy : Sim S x y) {m m' : Machine} (h : Machine.Lift S m m') :
    (x m = none ∧ y m' = none) ∨
      ∃ r k k', x m = some (r, k) ∧ y m' = some (r, k') ∧ Machine.Lift S k k' := by
  have hrel := hxy m m' h
  generalize x m = o, y m' = o' at hrel
  cases hrel with
  | none => exact .inl ⟨rfl, rfl⟩
  | @some p q hpq =>
    obtain ⟨r, k⟩ := p
    obtain ⟨r', k'⟩ := q
    obtain ⟨rfl, hk⟩ := hpq
    exact .inr ⟨r, k, k', rfl, rfl, hk⟩

theorem Sim.of_eq_some {x y : Exec α} (hxy : Sim S x y) {m m' k : Machine} {r : Except Fault α}
    (h : Machine.Lift S m m') (hx : x m = some (r, k)) :
    ∃ k', y m' = some (r, k') ∧ Machine.Lift S k k' := by
  rcases hxy.ends h with ⟨hx', -⟩ | ⟨r', k', k'', hx', hy, hk⟩
  · cases hx.symm.trans hx'
  · cases hx.symm.trans hx'
    exact ⟨k'', hy, hk⟩

theorem sim_pure (a : α) : Sim S (pure a) (pure a) := fun _ _ h => .some ⟨rfl, h⟩

theorem Sim.bind {x y : Exec α} {f g : α → Exec β} (hxy : Sim S x y)
    (hfg : ∀ a, Sim S (f a) (g a)) : Sim S (x >>= f) (y >>= g) := by
  intro m m' h
  change Option.Rel _ ((x m).bind fun p => ExceptT.bindCont f p.1 p.2)
    ((y m').bind fun p => ExceptT.bindCont g p.1 p.2)
  rcases hxy.ends h with ⟨hx, hy⟩ | ⟨r, k, k', hx, hy, hk⟩
  · rw [hx, hy]
    exact .none
  · rw [hx, hy]
    cases r with
    | ok a => exact hfg a _ _ hk
    | error fault => exact .some ⟨rfl, hk⟩

theorem sim_ofEval {x y : Eval α} (h : Eval.Sim S x y) : Sim S (ofEval x) (ofEval y) := by
  intro m m' hm
  obtain ⟨hresult, henv⟩ := h m.env m'.env hm.1
  exact .some ⟨hresult, henv, hm.2⟩

theorem sim_write (value : Value) (line : Nat) : Sim S (write value line) (write value line) := by
  intro m m' hm
  unfold write
  rw [hm.2]
  split <;> exact .some ⟨rfl, hm.1, rfl⟩

theorem Sim.repeatWhile {c d : Exec Bool} {x y : Exec Unit} (hcd : Sim S c d) (hxy : Sim S x y)
    (budget : Nat) : Sim S (repeatWhile c x budget) (repeatWhile d y budget) := by
  induction budget with
  | zero => exact fun _ _ _ => .none
  | succ budget ih =>
    refine hcd.bind fun holds => ?_
    cases holds with
    | true => exact hxy.bind fun _ => ih
    | false => exact sim_pure ()

theorem Sim.inScope {F : Footprint} {R : Nat → Env → Env → Prop} (hR : Env.Bisim F R) {n : Nat}
    {x y : Exec α} (hxy : Sim (R (n + 1)) x y) : Sim (R n) (inScope x) (inScope y) := by
  intro m m' hm
  have henter : Machine.Lift (R (n + 1)) m.enter m'.enter := ⟨hR.push hm.1, hm.2⟩
  unfold Exec.inScope
  rcases hxy.ends henter with ⟨hx, hy⟩ | ⟨r, k, k', hx, hy, hk⟩
  · rw [hx, hy]
    exact .none
  · obtain ⟨f, f', hf, hf', hff'⟩ := hR.pop hk.1
    rw [hx, hy]
    simp only [Machine.leave_of_pop hf, Machine.leave_of_pop hf']
    exact .some ⟨rfl, hff', hk.2⟩

end Exec

/-! ## Statements and programs -/

namespace Stmt

open Exec

/-- Whether the statement runs in a scope of its own. -/
def opensScope : Stmt → Bool
  | .block _ _ | .ifThen _ _ _ | .ifElse _ _ _ _ | .whileDo _ _ _ | .doWhile _ _ _
  | .forDo _ _ _ _ _ => true
  | .empty _ | .exprs _ _ | .print _ _ => false

section Related

variable {F : Footprint} {S : Env → Env → Prop} (hS : Env.Related F S)
include hS

theorem sim_test {condition : Expr} (h : ∀ n ∈ condition.nodes, n.Within F) :
    Sim S (test condition) (test condition) :=
  sim_ofEval ((Expr.sim_eval hS h).bind fun value => Eval.sim_pure value.truth)

theorem sim_perform {e : Expr} (h : ∀ n ∈ e.nodes, n.Within F) : Sim S (perform e) (perform e) := by
  rw [perform_eq]
  exact sim_ofEval ((Expr.sim_eval hS h).bind fun _ => Eval.sim_pure ())

theorem sim_forM_perform {list : List Expr} (h : ∀ n ∈ list.flatMap Expr.nodes, n.Within F) :
    Sim S (list.forM perform) (list.forM perform) := by
  induction list with
  | nil => exact sim_pure ()
  | cons e es ih =>
    rw [List.flatMap_cons, List.forall_mem_append] at h
    exact (sim_perform hS h.1).bind fun _ => ih h.2

/-- A statement without a scope does the same in related environments. -/
theorem exec_sim_of_not_opensScope {s : Stmt} (hs : s.opensScope = false)
    (h : ∀ n ∈ s.exprNodes, n.Within F) (budget : Nat) :
    Sim S (s.exec budget) (s.exec budget) := by
  cases s with
  | empty line => exact sim_pure ()
  | exprs list line => exact sim_forM_perform hS h
  | print value line => exact (sim_ofEval (Expr.sim_eval hS h)).bind fun v => sim_write v line
  | _ => cases hs

end Related

section Bisim

variable {F : Footprint} {R : Nat → Env → Env → Prop}

mutual

/-- A statement with a scope runs an action in it that does the same in related environments. -/
theorem exec_eq_inScope (hR : Env.Bisim F R) {s : Stmt} (hs : s.opensScope = true)
    (h : ∀ n ∈ s.exprNodes, n.Within F) (budget : Nat) :
    ∃ x, s.exec budget = inScope x ∧ ∀ n, Sim (R n) x x := by
  match s with
  | .block body _ => exact ⟨_, rfl, fun n => execAll_sim hR h budget n⟩
  | .ifThen condition thenBranch _ =>
    simp only [exprNodes, List.forall_mem_append] at h
    refine ⟨_, rfl, fun n => (sim_test (hR.related n) h.1).bind fun holds => ?_⟩
    cases holds with
    | true => exact exec_sim hR h.2 budget n
    | false => exact sim_pure ()
  | .ifElse condition thenBranch elseBranch _ =>
    simp only [exprNodes, List.forall_mem_append] at h
    refine ⟨_, rfl, fun n => (sim_test (hR.related n) h.1.1).bind fun holds => ?_⟩
    cases holds with
    | true => exact exec_sim hR h.1.2 budget n
    | false => exact exec_sim hR h.2 budget n
  | .whileDo condition body _ =>
    simp only [exprNodes, List.forall_mem_append] at h
    exact ⟨_, rfl, fun n =>
      (sim_test (hR.related n) h.1).repeatWhile (exec_sim hR h.2 budget n) budget⟩
  | .doWhile body condition _ =>
    simp only [exprNodes, List.forall_mem_append] at h
    refine ⟨_, exec_doWhile budget body condition _, fun n => ?_⟩
    exact (exec_sim hR h.1 budget n).bind fun _ =>
      (sim_test (hR.related n) h.2).repeatWhile (exec_sim hR h.1 budget n) budget
  | .forDo init condition step body _ =>
    simp only [exprNodes, List.forall_mem_append] at h
    refine ⟨_, rfl, fun n => (exec_sim hR h.1.1.1 budget n).bind fun _ => ?_⟩
    have hround := (exec_sim hR h.2 budget n).bind fun _ => sim_perform (hR.related n) h.1.2
    exact (sim_test (hR.related n) h.1.1.2).repeatWhile hround budget
  | .empty _ | .exprs _ _ | .print _ _ => cases hs
termination_by (sizeOf s, 0)

/-- A statement does the same in related environments. -/
theorem exec_sim (hR : Env.Bisim F R) {s : Stmt} (h : ∀ n ∈ s.exprNodes, n.Within F)
    (budget n : Nat) : Sim (R n) (s.exec budget) (s.exec budget) := by
  cases hs : s.opensScope with
  | true =>
    obtain ⟨x, hx, hsim⟩ := exec_eq_inScope hR hs h budget
    rw [hx]
    exact (hsim (n + 1)).inScope hR
  | false => exact exec_sim_of_not_opensScope (hR.related n) hs h budget
termination_by (sizeOf s, 1)

theorem execAll_sim (hR : Env.Bisim F R) {ss : List Stmt}
    (h : ∀ n ∈ exprNodesAll ss, n.Within F) (budget n : Nat) :
    Sim (R n) (execAll budget ss) (execAll budget ss) := by
  match ss with
  | [] => exact sim_pure ()
  | s :: ss =>
    simp only [exprNodesAll, List.forall_mem_append] at h
    exact (exec_sim hR h.1 budget n).bind fun _ => execAll_sim hR h.2 budget n
termination_by (sizeOf ss, 0)

end

end Bisim

end Stmt

end Imp32
