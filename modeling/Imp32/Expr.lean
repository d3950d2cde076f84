import Imp32.Value

/-!
# Expressions

The tree of an expression. Every node knows the line it belongs to: a leaf the line of its token, an
operation the line of its operator. Parentheses leave no node.
-/

namespace Imp32

/-- An expression. -/
inductive Expr where
  /-- A literal. -/
  | num (value : Value) (line : Nat)
  /-- The value of a variable. -/
  | var (name : String) (line : Nat)
  /-- An operator before its operand. -/
  | unary (op : UnaryOp) (operand : Expr) (line : Nat)
  /-- An operator between its operands. -/
  | binary (left : Expr) (op : BinaryOp) (right : Expr) (line : Nat)
deriving DecidableEq, Repr

/-- The line that an expression belongs to. -/
def Expr.line : Expr → Nat
  | .num _ line => line
  | .var _ line => line
  | .unary _ _ line => line
  | .binary _ _ _ line => line

end Imp32
