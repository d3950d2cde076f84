import Imp32.Proofs.Nodes
import Imp32.Stmt.Budget

/-!
# Desugaring

Some operators are abbreviations. A compound assignment `x op= e` stands for `x = (x op e)`, a step
`++x` or `--x` for `x = (x + 1)` or `x = (x - 1)`, and the logical operators for operators on the
bits of truth values: `l && r` for `((l != 0) & (r != 0))`, `l || r` for `((l != 0) | (r != 0))`.
`desugar` writes them out everywhere in a tree. An assigning operator whose target is no variable
stands for nothing else, and is kept for the fault that it raises.

The main result is that a program without abbreviations comes out, and that it does exactly the
same: it ends alike, with the same fault on the same line if there is one, in the same state. This
rests on the order of evaluation. The right operand comes first, both operands of a logical operator
are always evaluated, and a compound assignment reads its variable after its right operand.
-/

namespace Imp32

/-! ## Writing out abbreviations -/

/-- The operator on bits that does the same to truth values. -/
def LogicOp.bitwise : LogicOp → ArithOp
  | .and => .and
  | .or => .or

namespace Expr

/-- `x = (x op right)`, where `x` stands on one line and both operators on another. -/
def assignComputed (name : String) (varLine : Nat) (op : ArithOp) (right : Expr) (line : Nat) :
    Expr :=
  .binary (.var name varLine) .assign (.binary (.var name varLine) (.arith op) right line) line

/-- `(e != 0)`. -/
def nonzero (e : Expr) (line : Nat) : Expr := .binary e (.compare .ne) (.num 0 line) line

/-- The expression with all abbreviations written out. -/
def desugar : Expr → Expr
  | .num value line => .num value line
  | .var name line => .var name line
  -- A step looks its variable up on its own line, not on that of the variable.
  | .unary .increment (.var name _) line => assignComputed name line .add (.num 1 line) line
  | .unary .decrement (.var name _) line => assignComputed name line .sub (.num 1 line) line
  | .unary op operand line => .unary op operand.desugar line
  | .binary (.var name l) (.compound op) right line =>
    assignComputed name l op right.desugar line
  | .binary left (.logic op) right line =>
    .binary (left.desugar.nonzero line) (.arith op.bitwise) (right.desugar.nonzero line) line
  | .binary left op right line => .binary left.desugar op right.desugar line

/-- Whether the expression is a variable. -/
def isVar : Expr → Bool
  | .var _ _ => true
  | .num _ _ | .unary _ _ _ | .binary _ _ _ _ => false

/-- Whether a node is no abbreviation. -/
def isCore : Expr → Bool
  | .num _ _ | .var _ _ => true
  | .unary op operand _ =>
    match op with
    | .increment | .decrement => !operand.isVar
    | .negate | .complement => true
  | .binary left op _ _ =>
    match op with
    | .compound _ => !left.isVar
    | .logic _ => false
    | .arith _ | .compare _ | .assign => true

end Expr

/-! ## Expressions -/

theorem ArithOp.apply_bitwise (op : LogicOp) (line : Nat) (p q : Bool) :
    op.bitwise.apply line (.ofBool p) (.ofBool q) =
      .ok (.ofBool (op.holds (.ofBool p) (.ofBool q))) := by
  cases op <;> cases p <;> cases q <;> rfl

theorem LogicOp.holds_ofBool_truth (op : LogicOp) (a b : Value) :
    op.holds (.ofBool a.truth) (.ofBool b.truth) = op.holds a b := by
  have htruth (v : Value) : (Value.ofBool v.truth).truth = v.truth := by
    cases v.truth <;> rfl
  cases op <;> simp only [holds, htruth]

namespace Expr

theorem target_var (operator name : String) (l line : Nat) :
    (var name l).target operator line = .ok name :=
  rfl

theorem liftM_ok_bind {α β : Type} (a : α) (k : α → Eval β) :
    ((liftM (Except.ok a : Except Fault α) : Eval α) >>= k) = k a :=
  rfl

/-- The right operand is evaluated, then the variable, and the result is stored. -/
theorem eval_assignComputed (name : String) (l : Nat) (op : ArithOp) (right : Expr) (line : Nat) :
    (assignComputed name l op right line).eval = (do
      let b ← right.eval
      let a ← (var name l).eval
      let result ← op.apply line a b
      modify fun env => env.assign name result
      return result) := by
  simp only [assignComputed, eval, BinaryOp.base?, BinaryOp.apply, BinaryOp.applyArith, store,
    target_var, liftM_ok_bind, bind_assoc]

theorem eval_nonzero (e : Expr) (line : Nat) :
    (e.nonzero line).eval = do return Value.ofBool (← e.eval).truth := by
  simp only [nonzero, eval, BinaryOp.base?, pure_bind]
  rfl

/-- A step of a variable is an assignment, if the operator computes the next value. -/
theorem eval_step_desugar {op : ArithOp} {delta : Value} {line : Nat}
    (hop : ∀ a, op.apply line a 1 = .ok (a + delta)) (step : UnaryOp) (name : String) (l : Nat) :
    (assignComputed name line op (.num 1 line) line).eval =
      (var name l).advance step delta line := by
  rw [eval_assignComputed]
  simp only [eval, advance, target_var, liftM_ok_bind, pure_bind, bind_assoc, hop]

/-- What is no variable is not turned into one, so the target of an operator stays. -/
theorem target_desugar (operator : String) (line : Nat) (e : Expr) :
    e.desugar.target operator line = e.target operator line := by
  fun_cases desugar e <;> rfl

theorem eval_unary_desugar {op : UnaryOp} {operand : Expr}
    (ih : operand.desugar.eval = operand.eval) (line : Nat) :
    (unary op operand.desugar line).eval = (unary op operand line).eval := by
  cases op <;> simp only [eval, advance, target_desugar, ih]

theorem eval_binary_desugar {left right : Expr} {op : BinaryOp}
    (ihl : left.desugar.eval = left.eval) (ihr : right.desugar.eval = right.eval) (line : Nat) :
    (binary left.desugar op right.desugar line).eval = (binary left op right line).eval := by
  cases op <;> simp only [eval, store, storeComputed, target_desugar, ihl, ihr]

theorem eval_compound_desugar {right : Expr} (ih : right.desugar.eval = right.eval) (name : String)
    (l : Nat) (op : ArithOp) (line : Nat) :
    (assignComputed name l op right.desugar line).eval =
      (binary (.var name l) (.compound op) right line).eval := by
  rw [eval_assignComputed, ih]
  simp only [eval, BinaryOp.base?, storeComputed, BinaryOp.apply, BinaryOp.applyArith, target_var,
    liftM_ok_bind]

theorem eval_logic_desugar {left right : Expr} (ihl : left.desugar.eval = left.eval)
    (ihr : right.desugar.eval = right.eval) (op : LogicOp) (line : Nat) :
    (binary (left.desugar.nonzero line) (.arith op.bitwise)
      (right.desugar.nonzero line) line).eval = (binary left (.logic op) right line).eval := by
  simp only [eval, eval_nonzero, ihl, ihr, BinaryOp.base?, BinaryOp.apply, BinaryOp.applyArith,
    BinaryOp.applyLogic, bind_assoc, pure_bind, ArithOp.apply_bitwise, LogicOp.holds_ofBool_truth]

/-- An expression without abbreviations has the same value, the same faults and the same effect. -/
theorem eval_desugar (e : Expr) : e.desugar.eval = e.eval := by
  fun_induction desugar e with
  | case1 value line => rfl
  | case2 name line => rfl
  | case3 name l line => exact eval_step_desugar (fun a => rfl) .increment name l
  | case4 name l line =>
    have hsub (a : Value) : ArithOp.sub.apply line a 1 = .ok (a + -1) := by
      rw [ArithOp.apply, Int32.sub_eq_add_neg]
    exact eval_step_desugar hsub .decrement name l
  | case5 op operand line _ _ ih => exact eval_unary_desugar ih line
  | case6 name l op right line ih => exact eval_compound_desugar ih name l op line
  | case7 left op right line ihl ihr => exact eval_logic_desugar ihl ihr op line
  | case8 left op right line _ _ ihl ihr => exact eval_binary_desugar ihl ihr line

theorem isVar_desugar (e : Expr) : e.desugar.isVar = e.isVar := by
  fun_cases desugar e <;> rfl

theorem eq_var_of_isVar {e : Expr} (h : e.isVar = true) : ∃ name l, e = .var name l := by
  cases e with
  | var name l => exact ⟨name, l, rfl⟩
  | _ => cases h

theorem isCore_unary_desugar {op : UnaryOp} {operand : Expr} {line : Nat}
    (h : ∀ name l, op = .increment ∨ op = .decrement → operand ≠ .var name l) :
    (unary op operand.desugar line).isCore = true := by
  have hvar (hop : op = .increment ∨ op = .decrement) : operand.desugar.isVar = false := by
    rw [isVar_desugar, ← Bool.not_eq_true]
    intro hoperand
    obtain ⟨name, l, rfl⟩ := eq_var_of_isVar hoperand
    exact h name l hop rfl
  cases op <;> simp_all [isCore]

theorem isCore_binary_desugar {left right : Expr} {op : BinaryOp} {line : Nat}
    (hcompound : ∀ name l base, left = .var name l → op ≠ .compound base)
    (hlogic : ∀ base, op ≠ .logic base) :
    (binary left.desugar op right line).isCore = true := by
  cases op with
  | compound base =>
    rw [isCore, isVar_desugar, Bool.not_eq_true', ← Bool.not_eq_true]
    intro hleft
    obtain ⟨name, l, rfl⟩ := eq_var_of_isVar hleft
    exact hcompound name l base rfl rfl
  | logic base => exact (hlogic base rfl).elim
  | _ => rfl

theorem forall_mem_nodes_binary {P : Expr → Prop} {left right : Expr} {op : BinaryOp} {line : Nat}
    (hroot : P (binary left op right line)) (hleft : ∀ n ∈ left.nodes, P n)
    (hright : ∀ n ∈ right.nodes, P n) : ∀ n ∈ (binary left op right line).nodes, P n := by
  rw [nodes, List.forall_mem_cons, List.forall_mem_append]
  exact ⟨hroot, hleft, hright⟩

/-- No abbreviation is left. -/
theorem isCore_of_mem_nodes_desugar (e : Expr) : ∀ n ∈ e.desugar.nodes, n.isCore = true := by
  fun_induction desugar e with
  | case1 value line => simp [nodes, isCore]
  | case2 name line => simp [nodes, isCore]
  | case3 name l line => simp [assignComputed, nodes, isCore]
  | case4 name l line => simp [assignComputed, nodes, isCore]
  | case5 op operand line hinc hdec ih =>
    rw [nodes, List.forall_mem_cons]
    refine ⟨isCore_unary_desugar fun name l hop hvar => ?_, ih⟩
    exact hop.elim (hinc name l · hvar) (hdec name l · hvar)
  | case6 name l op right line ih =>
    refine forall_mem_nodes_binary rfl (by simp [nodes, isCore]) ?_
    exact forall_mem_nodes_binary rfl (by simp [nodes, isCore]) ih
  | case7 left op right line ihl ihr =>
    have hnonzero {e : Expr} (ih : ∀ n ∈ e.nodes, n.isCore = true) :
        ∀ n ∈ (e.nonzero line).nodes, n.isCore = true :=
      forall_mem_nodes_binary rfl ih (by simp [nodes, isCore])
    exact forall_mem_nodes_binary rfl (hnonzero ihl) (hnonzero ihr)
  | case8 left op right line hcompound hlogic ihl ihr =>
    exact forall_mem_nodes_binary (isCore_binary_desugar hcompound hlogic) ihl ihr

end Expr

/-! ## Statements -/

namespace Stmt

open Exec

mutual

/-- Changes every expression of a statement. -/
def mapExprs (f : Expr → Expr) : Stmt → Stmt
  | .empty line => .empty line
  | .block body line => .block (mapExprsAll f body) line
  | .ifThen condition thenBranch line => .ifThen (f condition) (thenBranch.mapExprs f) line
  | .ifElse condition thenBranch elseBranch line =>
    .ifElse (f condition) (thenBranch.mapExprs f) (elseBranch.mapExprs f) line
  | .whileDo condition body line => .whileDo (f condition) (body.mapExprs f) line
  | .doWhile body condition line => .doWhile (body.mapExprs f) (f condition) line
  | .forDo init condition step body line =>
    .forDo (init.mapExprs f) (f condition) (f step) (body.mapExprs f) line
  | .exprs list line => .exprs (list.map f) line
  | .print value line => .print (f value) line

/-- Changes every expression of some statements. -/
def mapExprsAll (f : Expr → Expr) : List Stmt → List Stmt
  | [] => []
  | s :: ss => s.mapExprs f :: mapExprsAll f ss

end

theorem mapExprsAll_eq_map (f : Expr → Expr) (ss : List Stmt) :
    mapExprsAll f ss = ss.map (mapExprs f) := by
  induction ss with
  | nil => rfl
  | cons s ss ih => rw [mapExprsAll, ih, List.map_cons]

section MapExprs

variable {f : Expr → Expr}

theorem forM_perform_map (hf : ∀ e, perform (f e) = perform e) (list : List Expr) :
    (list.map f).forM perform = list.forM perform := by
  induction list with
  | nil => rfl
  | cons e es ih =>
    change (perform (f e) >>= fun _ => (es.map f).forM perform) =
      perform e >>= fun _ => es.forM perform
    rw [hf, ih]

mutual

/-- Exchanging expressions for others with the same meaning changes nothing. -/
theorem exec_mapExprs (hf : ∀ e, (f e).eval = e.eval) (budget : Nat) (s : Stmt) :
    (s.mapExprs f).exec budget = s.exec budget := by
  have htest (c : Expr) : test (f c) = test c := by rw [test, test, hf]
  have hperform (e : Expr) : perform (f e) = perform e := by rw [perform, perform, hf]
  match s with
  | .empty _ => rfl
  | .block body _ => rw [mapExprs, exec, exec, execAll_mapExprsAll hf budget body]
  | .ifThen condition thenBranch _ =>
    rw [mapExprs, exec, exec, htest, exec_mapExprs hf budget thenBranch]
  | .ifElse condition thenBranch elseBranch _ =>
    rw [mapExprs, exec, exec, htest, exec_mapExprs hf budget thenBranch,
      exec_mapExprs hf budget elseBranch]
  | .whileDo condition body _ =>
    rw [mapExprs, exec, exec, htest, exec_mapExprs hf budget body]
  | .doWhile body condition _ =>
    rw [mapExprs, exec, exec, htest, exec_mapExprs hf budget body]
  | .forDo init condition step body _ =>
    rw [mapExprs, exec, exec, htest, hperform, exec_mapExprs hf budget init,
      exec_mapExprs hf budget body]
  | .exprs list _ => exact forM_perform_map hperform list
  | .print value _ => rw [mapExprs, exec, exec, hf]

theorem execAll_mapExprsAll (hf : ∀ e, (f e).eval = e.eval) (budget : Nat) (ss : List Stmt) :
    execAll budget (mapExprsAll f ss) = execAll budget ss := by
  match ss with
  | [] => rfl
  | s :: ss =>
    rw [mapExprsAll, execAll, execAll, exec_mapExprs hf budget s, execAll_mapExprsAll hf budget ss]

end

variable {P : Expr → Prop}

mutual

/-- What holds of all nodes of the new expressions holds of all nodes of the new statement. -/
theorem forall_exprNodes_mapExprs (hf : ∀ e, ∀ n ∈ (f e).nodes, P n) (s : Stmt) :
    ∀ n ∈ (s.mapExprs f).exprNodes, P n := by
  match s with
  | .empty _ => simp [mapExprs, exprNodes]
  | .block body _ => exact forall_exprNodesAll_mapExprsAll hf body
  | .ifThen condition thenBranch _ =>
    simp only [mapExprs, exprNodes, List.forall_mem_append]
    exact ⟨hf condition, forall_exprNodes_mapExprs hf thenBranch⟩
  | .ifElse condition thenBranch elseBranch _ =>
    simp only [mapExprs, exprNodes, List.forall_mem_append]
    exact ⟨⟨hf condition, forall_exprNodes_mapExprs hf thenBranch⟩,
      forall_exprNodes_mapExprs hf elseBranch⟩
  | .whileDo condition body _ =>
    simp only [mapExprs, exprNodes, List.forall_mem_append]
    exact ⟨hf condition, forall_exprNodes_mapExprs hf body⟩
  | .doWhile body condition _ =>
    simp only [mapExprs, exprNodes, List.forall_mem_append]
    exact ⟨forall_exprNodes_mapExprs hf body, hf condition⟩
  | .forDo init condition step body _ =>
    simp only [mapExprs, exprNodes, List.forall_mem_append]
    exact ⟨⟨⟨forall_exprNodes_mapExprs hf init, hf condition⟩, hf step⟩,
      forall_exprNodes_mapExprs hf body⟩
  | .exprs list _ =>
    intro n hn
    simp only [mapExprs, exprNodes, List.mem_flatMap, List.mem_map] at hn
    obtain ⟨_, ⟨e, -, rfl⟩, hn⟩ := hn
    exact hf e n hn
  | .print value _ => exact hf value

theorem forall_exprNodesAll_mapExprsAll (hf : ∀ e, ∀ n ∈ (f e).nodes, P n) (ss : List Stmt) :
    ∀ n ∈ exprNodesAll (mapExprsAll f ss), P n := by
  match ss with
  | [] => simp [mapExprsAll, exprNodesAll]
  | s :: ss =>
    simp only [mapExprsAll, exprNodesAll, List.forall_mem_append]
    exact ⟨forall_exprNodes_mapExprs hf s, forall_exprNodesAll_mapExprsAll hf ss⟩

end

end MapExprs

end Stmt

/-! ## Programs -/

namespace Program

/-- The program with all abbreviations written out. -/
def desugar (p : Program) : Program := p.map (Stmt.mapExprs Expr.desugar)

theorem exec_desugar (budget : Nat) (p : Program) : p.desugar.exec budget = p.exec budget := by
  rw [exec_eq, exec_eq, desugar, ← Stmt.mapExprsAll_eq_map]
  exact Stmt.execAll_mapExprsAll Expr.eval_desugar budget p

/-- Writing out all abbreviations leaves a program without any. From every state it ends as the
program does: with the same result, the line of a fault included, in the same state. -/
theorem desugaring_preserves_meaning (p : Program) :
    (∀ n ∈ p.desugar.exprNodes, n.isCore = true) ∧
      ∀ (m : Machine) (r : Except Fault Unit) (m' : Machine),
        p.desugar.Ends m r m' ↔ p.Ends m r m' := by
  constructor
  · rw [desugar, exprNodes, ← Stmt.mapExprsAll_eq_map, ← Stmt.exprNodesAll_eq_flatMap]
    exact Stmt.forall_exprNodesAll_mapExprsAll Expr.isCore_of_mem_nodes_desugar p
  · intro m r m'
    simp only [Ends, exec_desugar]

end Program

end Imp32
