import Imp32.Machine
import Imp32.Stmt

/-!
# Running statements

What each statement does. A block, a branch and a loop run in a scope of their own; a loop enters it
once, so variables that its body declares live from one round to the next. The condition of a
branch, and all parts of a loop, run inside that scope.

The budget bounds the number of tests of every single loop, so each run that ends does so for every
budget that is large enough.
-/

namespace Imp32

namespace Stmt

mutual

/-- Runs a statement. -/
def exec (budget : Nat) : Stmt → Exec Unit
  | .empty _ => return
  | .block body _ => .inScope (execAll budget body)
  | .ifThen condition thenBranch _ => .inScope do
    if ← .test condition then thenBranch.exec budget
  | .ifElse condition thenBranch elseBranch _ => .inScope do
    if ← .test condition then thenBranch.exec budget else elseBranch.exec budget
  | .whileDo condition body _ =>
    .inScope (.repeatWhile (.test condition) (body.exec budget) budget)
  | .doWhile body condition _ =>
    .inScope (.doRepeatWhile (body.exec budget) (.test condition) budget)
  | .forDo init condition step body _ => .inScope do
    init.exec budget
    let round : Exec Unit := do
      body.exec budget
      .perform step
    .repeatWhile (.test condition) round budget
  | .exprs list _ => list.forM .perform
  | .print value line => do .write (← .ofEval value.eval) line

/-- Runs statements one after another. -/
def execAll (budget : Nat) : List Stmt → Exec Unit
  | [] => return
  | s :: ss => do
    s.exec budget
    execAll budget ss

end

/-- The body runs once, and then as that of a loop that tests first. -/
theorem exec_doWhile (budget : Nat) (body : Stmt) (condition : Expr) (line : Nat) :
    (doWhile body condition line).exec budget = .inScope (do
      body.exec budget
      .repeatWhile (.test condition) (body.exec budget) budget) := by
  rw [exec, Exec.doRepeatWhile_eq]

/-- Whether a statement is the empty one. -/
def isEmpty : Stmt → Bool
  | .empty _ => true
  | _ => false

theorem execAll_filter_isEmpty (budget : Nat) (ss : List Stmt) :
    execAll budget (ss.filter (!·.isEmpty)) = execAll budget ss := by
  induction ss with
  | nil => rfl
  | cons s ss ih =>
    cases s with
    | empty line => exact ih
    | _ => exact congrArg (_ >>= fun _ => ·) ih

end Stmt

namespace Program

/-- Runs a program. The empty statements at its top are dropped before anything runs. -/
def exec (budget : Nat) (p : Program) : Exec Unit := Stmt.execAll budget (p.filter (!·.isEmpty))

/-- To drop the empty statements changes nothing. -/
theorem exec_eq (budget : Nat) (p : Program) : p.exec budget = Stmt.execAll budget p :=
  Stmt.execAll_filter_isEmpty budget p

end Program

end Imp32
