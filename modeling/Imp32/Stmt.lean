import Imp32.Expr

/-!
# Statements and programs

The tree of a statement, each node with the line of its first token, and a program as a list of
statements.

An `else` belongs to the nearest `if` that can take it. `Stmt.endsOpen` tells the statements whose
text ends in an `if` that could still take one.
-/

namespace Imp32

/-- A statement. -/
inductive Stmt where
  /-- Do nothing. -/
  | empty (line : Nat)
  /-- Run statements in a scope of their own. -/
  | block (body : List Stmt) (line : Nat)
  /-- Run a statement if a condition holds. -/
  | ifThen (condition : Expr) (thenBranch : Stmt) (line : Nat)
  /-- Run one of two statements, as a condition tells. -/
  | ifElse (condition : Expr) (thenBranch elseBranch : Stmt) (line : Nat)
  /-- Run a statement as long as a condition holds before it. -/
  | whileDo (condition : Expr) (body : Stmt) (line : Nat)
  /-- Run a statement, and again as long as a condition holds after it. -/
  | doWhile (body : Stmt) (condition : Expr) (line : Nat)
  /-- Run `init`, then `body` and `step` as long as a condition holds before them. -/
  | forDo (init : Stmt) (condition step : Expr) (body : Stmt) (line : Nat)
  /-- Evaluate expressions one after another. -/
  | exprs (list : List Expr) (line : Nat)
  /-- Write the value of an expression. -/
  | print (value : Expr) (line : Nat)
deriving Repr

/-- A program: statements that run one after another. -/
abbrev Program := List Stmt

namespace Stmt

/-- The line that a statement belongs to. -/
def line : Stmt → Nat
  | .empty line => line
  | .block _ line => line
  | .ifThen _ _ line => line
  | .ifElse _ _ _ line => line
  | .whileDo _ _ line => line
  | .doWhile _ _ line => line
  | .forDo _ _ _ _ line => line
  | .exprs _ line => line
  | .print _ line => line

/-- Whether an `else` written after the statement would become a part of it. -/
def endsOpen : Stmt → Bool
  | .ifThen _ _ _ => true
  | .ifElse _ _ elseBranch _ => elseBranch.endsOpen
  | .whileDo _ body _ => body.endsOpen
  | .forDo _ _ _ body _ => body.endsOpen
  | .empty _ | .block _ _ | .doWhile _ _ _ | .exprs _ _ | .print _ _ => false

end Stmt

end Imp32
