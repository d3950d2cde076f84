import Imp32.Expr.Eval
import Imp32.Sink

/-!
# Running actions

The state of a running program is its environment and its output. An action changes the state and
ends well or with a fault; it may also not end at all, which is the result `none`.

`Exec.inScope` runs an action in a scope of its own, and leaves the scope however the action ends.
`Exec.repeatWhile` and `Exec.doRepeatWhile`, which test a condition before and after each round, are
the only sources of actions that do not end. They take a budget: the number of times they may test.
An action ends if it does so for some budget, and a larger budget then changes nothing. A loop that
tests after each round runs its action once and is then one that tests before
(`Exec.doRepeatWhile_eq`).
-/

namespace Imp32

/-- The state of a running program. -/
structure Machine where
  /-- The variables. -/
  env : Env := {}
  /-- The output. -/
  sink : Sink := {}
deriving DecidableEq

/-- An action of a running program: a change of its state that may fail, or may not end. -/
abbrev Exec := ExceptT Fault (StateT Machine Option)

namespace Machine

/-- Enters a scope. -/
def enter (m : Machine) : Machine := { m with env := m.env.push }

/-- Leaves the innermost scope after an action with the given result. A fault of the action is
reported in preference to one of leaving. -/
def leave {α : Type} (result : Except Fault α) (m : Machine) : Except Fault α × Machine :=
  match m.env.pop with
  | .ok env => (result, { m with env })
  | .error fault =>
    match result with
    | .ok _ => (.error fault, m)
    | .error first => (.error first, m)

theorem leave_of_pop {α : Type} {m : Machine} {env : Env} (h : m.env.pop = .ok env)
    (result : Except Fault α) : m.leave result = (result, { m with env }) := by
  rw [leave, h]

end Machine

namespace Exec

variable {α β : Type}

/-- A sequence ends with the fault of its first part, or as its second part does. -/
theorem bind_eq_some_iff {x : Exec α} {f : α → Exec β} {m m' : Machine} {r : Except Fault β} :
    (x >>= f) m = some (r, m') ↔
      (∃ fault, x m = some (.error fault, m') ∧ r = .error fault) ∨
        ∃ a k, x m = some (.ok a, k) ∧ f a k = some (r, m') := by
  change (x m).bind (fun p => ExceptT.bindCont f p.1 p.2) = some (r, m') ↔ _
  cases x m with
  | none => simp
  | some p =>
    obtain ⟨result, k⟩ := p
    cases result with
    | error fault =>
      constructor
      · intro h
        cases h
        exact .inl ⟨fault, rfl, rfl⟩
      · rintro (⟨_, ⟨⟩, rfl⟩ | ⟨_, _, ⟨⟩, -⟩)
        rfl
    | ok a =>
      constructor
      · exact fun h => .inr ⟨a, k, rfl, h⟩
      · rintro (⟨_, ⟨⟩, -⟩ | ⟨_, _, ⟨⟩, h⟩)
        exact h

/-- Runs a computation on the environment. -/
def ofEval (x : Eval α) : Exec α := fun m =>
  let (result, env) := x m.env
  some (result, { m with env })

/-- Tests a condition. -/
def test (condition : Expr) : Exec Bool := ofEval do return (← condition.eval).truth

/-- Evaluates an expression for its effect. -/
def perform (e : Expr) : Exec Unit := ofEval do discard e.eval

theorem perform_eq (e : Expr) : perform e = ofEval (e.eval >>= fun _ => pure ()) := by
  simp only [perform, discard, Functor.discard, map_const, Function.comp_apply, map_eq_pure_bind,
    Function.const_apply]

/-- Writes a value and a line end, for a statement on the given line. -/
def write (value : Value) (line : Nat) : Exec Unit := fun m =>
  match m.sink.writeLine value.decimal with
  | (.ok (), sink) => some (.ok (), { m with sink })
  | (.error refusal, sink) =>
    some (.error (.raised (.output refusal.reason) line), { m with sink })

/-- Runs an action in a scope of its own. -/
def inScope (action : Exec α) : Exec α := fun m =>
  match action m.enter with
  | some (result, m) => some (m.leave result)
  | none => none

/-- Runs an action as long as a condition holds before it, testing at most `budget` times. -/
def repeatWhile (condition : Exec Bool) (action : Exec Unit) (budget : Nat) : Exec Unit :=
  match budget with
  | 0 => fun _ => none
  | budget + 1 => do
    if ← condition then
      action
      repeatWhile condition action budget

/-- Runs an action, and again as long as a condition holds after it, testing at most `budget`
times. -/
def doRepeatWhile (action : Exec Unit) (condition : Exec Bool) (budget : Nat) : Exec Unit := do
  action
  match budget with
  | 0 => fun _ => none
  | budget + 1 =>
    if ← condition then
      doRepeatWhile action condition budget

theorem doRepeatWhile_eq (action : Exec Unit) (condition : Exec Bool) (budget : Nat) :
    doRepeatWhile action condition budget = (do
      action
      repeatWhile condition action budget) := by
  induction budget with
  | zero => rfl
  | succ budget ih => rw [doRepeatWhile, repeatWhile, ih]

end Exec

end Imp32
