import Imp32.Fault

/-!
# Values

The one kind of value is the signed 32-bit word. Sums, differences, products and negatives wrap
modulo `2 ^ 32`; quotients round toward zero, the least word divided by minus one wraps to itself,
and a quotient by zero is a fault. Zero stands for false and every other word for true; operators
that yield a truth value yield `0` or `1`.

Each class of operators is applied by a function of its own. `BinaryOp.applyArith`,
`BinaryOp.applyCompare` and `BinaryOp.applyLogic` take any binary operator and refuse those of
another class; `BinaryOp.apply` accepts every operator that computes and refuses those that assign.
-/

namespace Imp32

/-- A value of the language. -/
abbrev Value := Int32

namespace Value

/-- Whether a value counts as true. -/
def truth (v : Value) : Bool := v != 0

/-- The value that stands for a truth value. -/
def ofBool (b : Bool) : Value := if b then 1 else 0

/-- The value of an integer literal, if it lies in the range of a word. -/
def ofLiteral? (n : Int) : Option Value :=
  if -0x80000000 ≤ n ∧ n < 0x80000000 then some (Int32.ofInt n) else none

/-- A literal that has a value denotes that value. -/
theorem toInt_of_ofLiteral? {n : Int} {v : Value} (h : ofLiteral? n = some v) : v.toInt = n := by
  unfold ofLiteral? at h
  split at h
  · cases h
    exact Int32.toInt_ofInt_of_le (by omega) (by omega)
  · cases h

/-- Every value is that of a literal. -/
theorem ofLiteral?_toInt (v : Value) : ofLiteral? v.toInt = some v := by
  rw [ofLiteral?, if_pos ⟨v.le_toInt, v.toInt_lt⟩, Int32.ofInt_toInt]

/-- A value in decimal digits, with a minus sign if it is negative. -/
def decimal (v : Value) : String := v.toInt.repr

end Value

/-- Computes a number from two. -/
def ArithOp.apply (op : ArithOp) (line : Nat) (a b : Value) : Except Fault Value :=
  match op with
  | .add => .ok (a + b)
  | .sub => .ok (a - b)
  | .mul => .ok (a * b)
  | .div => if b = 0 then .error (.raised .divisionByZero line) else .ok (a / b)
  | .xor => .ok (a ^^^ b)
  | .and => .ok (a &&& b)
  | .or => .ok (a ||| b)

/-- Whether the comparison holds of two numbers. -/
def CompareOp.holds : CompareOp → Value → Value → Bool
  | .eq, a, b => a == b
  | .ne, a, b => a != b
  | .lt, a, b => a < b
  | .le, a, b => a ≤ b
  | .gt, a, b => b < a
  | .ge, a, b => b ≤ a

/-- Whether the logical operator holds of the truth of two values. -/
def LogicOp.holds : LogicOp → Value → Value → Bool
  | .and, a, b => a.truth && b.truth
  | .or, a, b => a.truth || b.truth

namespace BinaryOp

/-- Applies an arithmetic operator, and refuses every other. -/
def applyArith (op : BinaryOp) (line : Nat) (a b : Value) : Except Fault Value :=
  match op with
  | .arith op => op.apply line a b
  | op => .error (.raised (.malformed (.notArithmetic op)) line)

/-- Applies a comparison, and refuses every other operator. -/
def applyCompare (op : BinaryOp) (line : Nat) (a b : Value) : Except Fault Value :=
  match op with
  | .compare op => .ok (.ofBool (op.holds a b))
  | op => .error (.raised (.malformed (.notComparison op)) line)

/-- Applies a logical operator, and refuses every other. -/
def applyLogic (op : BinaryOp) (line : Nat) (a b : Value) : Except Fault Value :=
  match op with
  | .logic op => .ok (.ofBool (op.holds a b))
  | op => .error (.raised (.malformed (.notLogical op)) line)

/-- Applies an operator that computes, and refuses one that assigns. -/
def apply (op : BinaryOp) (line : Nat) (a b : Value) : Except Fault Value :=
  match op with
  | .arith _ => op.applyArith line a b
  | .compare _ => op.applyCompare line a b
  | .logic _ => op.applyLogic line a b
  | .assign | .compound _ => .error (.raised (.malformed (.assignsToValue op)) line)

end BinaryOp

/-- Applies a unary operator that computes, and refuses one that steps a variable. -/
def UnaryOp.apply (op : UnaryOp) (line : Nat) (a : Value) : Except Fault Value :=
  match op with
  | .complement => .ok (~~~a)
  | .negate => .ok (-a)
  | .decrement | .increment => .error (.raised (.malformed (.stepsValue op)) line)

end Imp32
