import Imp32.Env
import Imp32.Expr

/-!
# Evaluating expressions

An expression has a value in an environment, and may change the environment on the way. The right
operand is evaluated before the left one, and both always are: the logical operators do not skip
their second operand.

A plain assignment does not evaluate its left operand. A compound assignment does, computes, and
only then asks for a variable to store the result in; so a division by zero is reported before a
target that is no variable.
-/

namespace Imp32

/-- A computation that reads and changes an environment and may fail. -/
abbrev Eval := ExceptT Fault (StateM Env)

/-- A sequence succeeds if both of its parts do. -/
theorem Eval.bind_eq_ok_iff {α β : Type} {x : Eval α} {f : α → Eval β} {env env' : Env} {b : β} :
    (x >>= f) env = (.ok b, env') ↔ ∃ a mid, x env = (.ok a, mid) ∧ f a mid = (.ok b, env') := by
  change ExceptT.bindCont f (x env).1 (x env).2 = (.ok b, env') ↔ _
  cases hx : x env with
  | mk result mid =>
    cases result with
    | error fault =>
      constructor
      · intro h
        cases h
      · rintro ⟨_, _, ⟨⟩, -⟩
    | ok a =>
      constructor
      · intro h
        exact ⟨a, mid, rfl, h⟩
      · rintro ⟨_, _, ⟨⟩, h⟩
        exact h

namespace Expr

/-- The name of the variable that an assigning operator, given as it is written, is applied to. -/
def target (operator : String) (line : Nat) : Expr → Except Fault String
  | .var name _ => .ok name
  | .num _ _ | .unary _ _ _ | .binary _ _ _ _ =>
    .error (.raised (.expectedVariable operator) line)

/-- Stores a value in the variable on the left of a plain assignment. -/
def store (left : Expr) (value : Value) (line : Nat) : Eval Value := do
  let name ← left.target BinaryOp.assign.spelling line
  modify fun env => env.assign name value
  return value

/-- Computes with the values of both operands of the compound assignment `op`, and stores the result
in the variable on the left. -/
def storeComputed (left : Expr) (op base : BinaryOp) (a b : Value) (line : Nat) : Eval Value := do
  let result ← base.apply line a b
  let name ← left.target op.spelling line
  modify fun env => env.assign name result
  return result

/-- Adds to a variable, for the operator `op`. -/
def advance (operand : Expr) (op : UnaryOp) (delta : Value) (line : Nat) : Eval Value := do
  let name ← operand.target op.spelling line
  let result := (← (← get).lookup name line) + delta
  modify fun env => env.assign name result
  return result

/-- Evaluates an expression. -/
def eval : Expr → Eval Value
  | .num value _ => return value
  | .var name line => do (← get).lookup name line
  | .unary .increment operand line => operand.advance .increment 1 line
  | .unary .decrement operand line => operand.advance .decrement (-1) line
  | .unary op operand line => do op.apply line (← operand.eval)
  | .binary left .assign right line => do left.store (← right.eval) line
  | .binary left op right line => do
    let b ← right.eval
    let a ← left.eval
    match op.base? with
    | some base => left.storeComputed op base a b line
    | none => op.apply line a b

theorem eval_binary {op : BinaryOp} (hop : op.assigns = false) (l r : Expr) (line : Nat) :
    (binary l op r line).eval = (do
      let b ← r.eval
      let a ← l.eval
      op.apply line a b) := by
  cases op with
  | arith op => rfl
  | compare op => rfl
  | logic op => rfl
  | assign => cases hop
  | compound op => cases hop

/-- An operation succeeds if its operands do, the right one first, and if it has a result. -/
theorem eval_binary_eq_ok_iff {l r : Expr} {op : BinaryOp} (hop : op.assigns = false)
    {line : Nat} {env env' : Env} {v : Value} :
    (binary l op r line).eval env = (.ok v, env') ↔ ∃ a b,
      (∃ mid, r.eval env = (.ok b, mid) ∧ l.eval mid = (.ok a, env')) ∧
        op.apply line a b = .ok v := by
  rw [eval_binary hop, Eval.bind_eq_ok_iff]
  constructor
  · rintro ⟨b, mid, hb, h⟩
    obtain ⟨a, last, ha, h⟩ := Eval.bind_eq_ok_iff.mp h
    have happly : (op.apply line a b, last) = (.ok v, env') := h
    rw [Prod.mk.injEq] at happly
    obtain ⟨happly, rfl⟩ := happly
    exact ⟨a, b, ⟨mid, hb, ha⟩, happly⟩
  · rintro ⟨a, b, ⟨mid, hb, ha⟩, happly⟩
    refine ⟨b, mid, hb, Eval.bind_eq_ok_iff.mpr ⟨a, env', ha, ?_⟩⟩
    exact Prod.ext happly rfl

end Expr

end Imp32
