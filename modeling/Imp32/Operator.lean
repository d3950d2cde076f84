/-!
# Operators

The operators of the language, sorted by what they do. A binary operator computes a number
(`ArithOp`), compares two numbers (`CompareOp`), combines two truth values (`LogicOp`), or assigns.
Exactly the arithmetic operators have an assigning form, so a compound assignment is an `ArithOp`
under another constructor, and the operator a compound assignment computes with is read off it.

Operators that compute stand at nine levels of binding strength (`Level`) and group to the left.
Assigning operators stand at none of them: they bind loosest of all and group to the right.
-/

namespace Imp32

/-- The operators that compute a number from two numbers. -/
inductive ArithOp where
  /-- Sum, modulo `2 ^ 32`. -/
  | add
  /-- Difference, modulo `2 ^ 32`. -/
  | sub
  /-- Product, modulo `2 ^ 32`. -/
  | mul
  /-- Quotient, rounded toward zero. -/
  | div
  /-- Exclusive or of the bits. -/
  | xor
  /-- Conjunction of the bits. -/
  | and
  /-- Disjunction of the bits. -/
  | or
deriving DecidableEq, Repr

/-- The operators that compare two numbers. -/
inductive CompareOp where
  /-- Equal. -/
  | eq
  /-- Different. -/
  | ne
  /-- Less. -/
  | lt
  /-- Less or equal. -/
  | le
  /-- Greater. -/
  | gt
  /-- Greater or equal. -/
  | ge
deriving DecidableEq, Repr

/-- The operators that combine two truth values. -/
inductive LogicOp where
  /-- Both are true. -/
  | and
  /-- At least one is true. -/
  | or
deriving DecidableEq, Repr

/-- The operators that stand between two operands. -/
inductive BinaryOp where
  /-- Compute a number. -/
  | arith (op : ArithOp)
  /-- Compare two numbers. -/
  | compare (op : CompareOp)
  /-- Combine two truth values. -/
  | logic (op : LogicOp)
  /-- Store the right operand in the variable on the left. -/
  | assign
  /-- Compute with the variable on the left and store the result in it. -/
  | compound (op : ArithOp)
deriving DecidableEq, Repr

/-- The operators that stand before their operand. -/
inductive UnaryOp where
  /-- Complement of the bits. -/
  | complement
  /-- Negative, modulo `2 ^ 32`. -/
  | negate
  /-- Subtract one from a variable. -/
  | decrement
  /-- Add one to a variable. -/
  | increment
deriving DecidableEq, Repr

/-! ## Spelling -/

/-- An arithmetic operator as it is written. -/
def ArithOp.spelling : ArithOp → String
  | .add => "+"
  | .sub => "-"
  | .mul => "*"
  | .div => "/"
  | .xor => "^"
  | .and => "&"
  | .or => "|"

/-- A comparison as it is written. -/
def CompareOp.spelling : CompareOp → String
  | .eq => "=="
  | .ne => "!="
  | .lt => "<"
  | .le => "<="
  | .gt => ">"
  | .ge => ">="

/-- A logical operator as it is written. -/
def LogicOp.spelling : LogicOp → String
  | .and => "&&"
  | .or => "||"

/-- A binary operator as it is written; a compound assignment adds `=` to its arithmetic. -/
def BinaryOp.spelling : BinaryOp → String
  | .arith op => op.spelling
  | .compare op => op.spelling
  | .logic op => op.spelling
  | .assign => "="
  | .compound op => op.spelling ++ "="

/-- A unary operator as it is printed. -/
def UnaryOp.spelling : UnaryOp → String
  | .complement => "~"
  | .negate => "-"
  | .decrement => "--"
  | .increment => "++"

/-! ## Assigning operators -/

/-- Whether the operator stores a value in its left operand. -/
def BinaryOp.assigns : BinaryOp → Bool
  | .assign | .compound _ => true
  | .arith _ | .compare _ | .logic _ => false

/-- The operator that a compound assignment computes with. -/
def BinaryOp.base? : BinaryOp → Option BinaryOp
  | .compound op => some (.arith op)
  | .arith _ | .compare _ | .logic _ | .assign => none

/-! ## Binding strength -/

/-- The levels of binding strength of the operators that compute, tightest first. -/
inductive Level where
  /-- `*` and `/`. -/
  | product
  /-- `+` and `-`. -/
  | sum
  /-- `<`, `<=`, `>` and `>=`. -/
  | order
  /-- `==` and `!=`. -/
  | equality
  /-- `&`. -/
  | bitAnd
  /-- `^`. -/
  | bitXor
  /-- `|`. -/
  | bitOr
  /-- `&&`. -/
  | conjunction
  /-- `||`. -/
  | disjunction
deriving DecidableEq, Repr

/-- The number of levels that bind at least as tightly, this one included. -/
def Level.height : Level → Nat
  | .product => 1
  | .sum => 2
  | .order => 3
  | .equality => 4
  | .bitAnd => 5
  | .bitXor => 6
  | .bitOr => 7
  | .conjunction => 8
  | .disjunction => 9

/-- The level at which a binary operator stands; assigning operators stand at none. -/
def BinaryOp.level? : BinaryOp → Option Level
  | .arith .mul | .arith .div => some .product
  | .arith .add | .arith .sub => some .sum
  | .compare .lt | .compare .le | .compare .gt | .compare .ge => some .order
  | .compare .eq | .compare .ne => some .equality
  | .arith .and => some .bitAnd
  | .arith .xor => some .bitXor
  | .arith .or => some .bitOr
  | .logic .and => some .conjunction
  | .logic .or => some .disjunction
  | .assign | .compound _ => none

/-- The height of the level at which a binary operator stands. -/
def BinaryOp.height? (op : BinaryOp) : Option Nat :=
  op.level?.map Level.height

/-- An operator stands at some level exactly if it does not assign. -/
theorem BinaryOp.isSome_level? (op : BinaryOp) : op.level?.isSome = !op.assigns := by
  cases op with
  | arith op => cases op <;> rfl
  | compare op => cases op <;> rfl
  | logic op => cases op <;> rfl
  | assign => rfl
  | compound op => rfl

end Imp32
