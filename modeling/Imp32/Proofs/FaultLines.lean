import Imp32.Stmt.Exec
import Imp32.Proofs.Lines

/-!
# Lines and faults

The lines of a tree show in its faults, and nowhere else: running a tree with changed lines is
running the tree, and changing the line of the fault if there is one.
-/

namespace Imp32

/-- Changes the line of a fault. -/
def Fault.mapLine (f : Nat → Nat) : Fault → Fault
  | .raised cause line => .raised cause (f line)
  | .scopeUnderflow => .scopeUnderflow

/-! ## Changing faults -/

section Adapt

variable {m : Type → Type} [Monad m] {α β : Type}

theorem run_adapt (g : Fault → Fault) (x : ExceptT Fault m α) :
    (ExceptT.adapt g x).run = Except.mapError g <$> x.run :=
  rfl

variable [LawfulMonad m]

theorem adapt_pure (g : Fault → Fault) (a : α) :
    ExceptT.adapt g (pure a : ExceptT Fault m α) = pure a :=
  ExceptT.ext (map_pure (Except.mapError g) (.ok a))

theorem adapt_liftM (g : Fault → Fault) (x : Except Fault α) :
    ExceptT.adapt g (liftM x : ExceptT Fault m α) = liftM (x.mapError g) :=
  ExceptT.ext (map_pure (Except.mapError g) x)

/-- Faults may be changed in each part of a sequence, or in the sequence. -/
theorem adapt_bind (g : Fault → Fault) (x : ExceptT Fault m α) (k : α → ExceptT Fault m β) :
    ExceptT.adapt g (x >>= k) = ExceptT.adapt g x >>= fun a => ExceptT.adapt g (k a) := by
  apply ExceptT.ext
  rw [run_adapt, ExceptT.run_bind, ExceptT.run_bind, run_adapt, map_bind, bind_map_left]
  refine bind_congr fun r => ?_
  cases r with
  | ok a => rfl
  | error fault => exact map_pure _ _

end Adapt

/-! ## Expressions -/

section Lines

variable (f : Nat → Nat)

/-- An undefined variable is blamed on the line of its use. -/
theorem Env.lookup_mapLine (env : Env) (name : String) (line : Nat) :
    env.lookup name (f line) = (env.lookup name line).mapError (Fault.mapLine f) := by
  unfold lookup
  split <;> rfl

theorem UnaryOp.apply_mapLine (op : UnaryOp) (line : Nat) (a : Value) :
    op.apply (f line) a = (op.apply line a).mapError (Fault.mapLine f) := by
  cases op <;> rfl

theorem BinaryOp.apply_mapLine (op : BinaryOp) (line : Nat) (a b : Value) :
    op.apply (f line) a b = (op.apply line a b).mapError (Fault.mapLine f) := by
  cases op with
  | arith op =>
    cases op
    case div =>
      simp only [apply, applyArith, ArithOp.apply]
      split <;> rfl
    all_goals rfl
  | _ => rfl

namespace Expr

theorem target_mapLines (operator : String) (e : Expr) (line : Nat) :
    (e.mapLines f).target operator (f line) =
      (e.target operator line).mapError (Fault.mapLine f) := by
  cases e <;> rfl

theorem adapt_get (g : Fault → Fault) : ExceptT.adapt g (get : Eval Env) = get := rfl

theorem adapt_modify (g : Fault → Fault) (change : Env → Env) :
    ExceptT.adapt g (modify change : Eval PUnit) = modify change :=
  rfl

theorem advance_mapLines (op : UnaryOp) (delta : Value) (e : Expr) (line : Nat) :
    (e.mapLines f).advance op delta (f line) =
      ExceptT.adapt (Fault.mapLine f) (e.advance op delta line) := by
  simp only [advance, adapt_bind, adapt_liftM, adapt_pure, adapt_get, adapt_modify,
    target_mapLines, Env.lookup_mapLine]

theorem store_mapLines (value : Value) (e : Expr) (line : Nat) :
    (e.mapLines f).store value (f line) =
      ExceptT.adapt (Fault.mapLine f) (e.store value line) := by
  simp only [store, adapt_bind, adapt_liftM, adapt_pure, adapt_modify, target_mapLines]

theorem storeComputed_mapLines (op base : BinaryOp) (a b : Value) (e : Expr) (line : Nat) :
    (e.mapLines f).storeComputed op base a b (f line) =
      ExceptT.adapt (Fault.mapLine f) (e.storeComputed op base a b line) := by
  simp only [storeComputed, adapt_bind, adapt_liftM, adapt_pure, adapt_modify, target_mapLines,
    BinaryOp.apply_mapLine]

/-- The lines of an expression show in its faults only. -/
theorem eval_mapLines (e : Expr) :
    (e.mapLines f).eval = ExceptT.adapt (Fault.mapLine f) e.eval := by
  induction e with
  | num value line => rfl
  | var name line =>
    simp only [mapLines, eval, adapt_bind, adapt_liftM, adapt_get, Env.lookup_mapLine]
  | unary op operand line ih =>
    cases op with
    | increment | decrement => simp only [mapLines, eval, advance_mapLines]
    | negate | complement =>
      simp only [mapLines, eval, adapt_bind, adapt_liftM, ih, UnaryOp.apply_mapLine]
  | binary left op right line ihl ihr =>
    cases op with
    | assign => simp only [mapLines, eval, adapt_bind, ihr, store_mapLines]
    | compound op =>
      simp only [mapLines, eval, BinaryOp.base?, adapt_bind, ihl, ihr, storeComputed_mapLines]
    | arith op | compare op | logic op =>
      simp only [mapLines, eval, BinaryOp.base?, adapt_bind, adapt_liftM, ihl, ihr,
        BinaryOp.apply_mapLine]

end Expr

/-! ## Statements and programs -/

namespace Exec

variable {α : Type}

theorem adapt_apply (g : Fault → Fault) (x : Exec α) (m : Machine) :
    ExceptT.adapt g x m = (x m).map fun p => (p.1.mapError g, p.2) := by
  change (x m).bind (fun p => some (p.1.mapError g, p.2)) = _
  cases x m <;> rfl

theorem adapt_ofEval (g : Fault → Fault) (x : Eval α) :
    ExceptT.adapt g (ofEval x) = ofEval (ExceptT.adapt g x) :=
  rfl

/-- Leaving a scope may raise a fault of its own, which must not be changed. -/
theorem adapt_inScope {g : Fault → Fault} (hg : g .scopeUnderflow = .scopeUnderflow)
    (x : Exec α) : ExceptT.adapt g (inScope x) = inScope (ExceptT.adapt g x) := by
  funext m
  rw [adapt_apply, inScope, inScope, adapt_apply]
  cases x m.enter with
  | none => rfl
  | some p =>
    obtain ⟨result, m'⟩ := p
    obtain ⟨⟨inner, outer⟩, sink⟩ := m'
    cases outer with
    | cons frame frames => rfl
    | nil =>
      cases result with
      | error fault => rfl
      | ok a => exact congrArg (fun fault => some (Except.error fault, _)) hg

theorem adapt_repeatWhile (g : Fault → Fault) (condition : Exec Bool) (action : Exec Unit)
    (budget : Nat) :
    ExceptT.adapt g (repeatWhile condition action budget) =
      repeatWhile (ExceptT.adapt g condition) (ExceptT.adapt g action) budget := by
  induction budget with
  | zero => rfl
  | succ budget ih =>
    rw [repeatWhile, repeatWhile, adapt_bind]
    refine bind_congr fun holds => ?_
    cases holds with
    | true =>
      rw [if_pos rfl, if_pos rfl, adapt_bind, ih]
    | false => exact adapt_pure g ()

theorem test_mapLines (condition : Expr) :
    test (condition.mapLines f) = ExceptT.adapt (Fault.mapLine f) (test condition) := by
  simp only [test, adapt_ofEval, adapt_bind, adapt_pure, Expr.eval_mapLines]

theorem perform_mapLines (e : Expr) :
    perform (e.mapLines f) = ExceptT.adapt (Fault.mapLine f) (perform e) := by
  simp only [perform_eq, adapt_ofEval, adapt_bind, adapt_pure, Expr.eval_mapLines]

theorem write_mapLine (value : Value) (line : Nat) :
    write value (f line) = ExceptT.adapt (Fault.mapLine f) (write value line) := by
  funext m
  rw [adapt_apply, write, write]
  split <;> rfl

end Exec

namespace Stmt

open Exec

theorem forM_perform_mapLines (list : List Expr) :
    (list.map (Expr.mapLines f)).forM perform =
      ExceptT.adapt (Fault.mapLine f) (list.forM perform) := by
  induction list with
  | nil => rfl
  | cons e es ih =>
    change (perform (e.mapLines f) >>= fun _ => (es.map (Expr.mapLines f)).forM perform) =
      ExceptT.adapt (Fault.mapLine f) (perform e >>= fun _ => es.forM perform)
    rw [adapt_bind, ih, perform_mapLines]

mutual

/-- The lines of a statement show in its faults only. -/
theorem exec_mapLines (budget : Nat) (s : Stmt) :
    (s.mapLines f).exec budget = ExceptT.adapt (Fault.mapLine f) (s.exec budget) := by
  match s with
  | .empty _ => rfl
  | .block body _ =>
    rw [mapLines, exec, exec, adapt_inScope rfl, execAll_mapLines budget body]
  | .ifThen condition thenBranch _ =>
    rw [mapLines, exec, exec, adapt_inScope rfl, adapt_bind, test_mapLines]
    simp only [apply_ite (ExceptT.adapt _), adapt_pure, exec_mapLines budget thenBranch]
  | .ifElse condition thenBranch elseBranch _ =>
    rw [mapLines, exec, exec, adapt_inScope rfl, adapt_bind, test_mapLines]
    simp only [apply_ite (ExceptT.adapt _), exec_mapLines budget thenBranch,
      exec_mapLines budget elseBranch]
  | .whileDo condition body _ =>
    rw [mapLines, exec, exec, adapt_inScope rfl, adapt_repeatWhile, test_mapLines,
      exec_mapLines budget body]
  | .doWhile body condition _ =>
    rw [mapLines, exec_doWhile, exec_doWhile, adapt_inScope rfl, adapt_bind, adapt_repeatWhile,
      test_mapLines, exec_mapLines budget body]
  | .forDo init condition step body _ =>
    rw [mapLines, exec, exec, adapt_inScope rfl, adapt_bind, adapt_repeatWhile, adapt_bind,
      test_mapLines, perform_mapLines, exec_mapLines budget init, exec_mapLines budget body]
  | .exprs list _ => exact forM_perform_mapLines f list
  | .print value line =>
    rw [mapLines, exec, exec, adapt_bind, adapt_ofEval, Expr.eval_mapLines]
    simp only [write_mapLine]

theorem execAll_mapLines (budget : Nat) (ss : List Stmt) :
    execAll budget (mapLinesAll f ss) = ExceptT.adapt (Fault.mapLine f) (execAll budget ss) := by
  match ss with
  | [] => rfl
  | s :: ss =>
    rw [mapLinesAll, execAll, execAll, adapt_bind, exec_mapLines budget s,
      execAll_mapLines budget ss]

end

end Stmt

/-- The lines of a program show in its faults only. -/
theorem Program.exec_mapLines (budget : Nat) (p : Program) :
    (p.mapLines f).exec budget = ExceptT.adapt (Fault.mapLine f) (p.exec budget) := by
  rw [exec_eq, exec_eq, mapLines, ← Stmt.mapLinesAll_eq_map]
  exact Stmt.execAll_mapLines f budget p

end Lines

end Imp32
