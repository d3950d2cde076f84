import Imp32.Operator

/-!
# Runtime faults

What can go wrong while a program runs. A fault is a cause at a line, so two faults that differ only
in the line have equal causes. The one fault without a line is leaving the outermost scope, which
no program can bring about.
-/

namespace Imp32

/-- An operator met in a place where it cannot stand. -/
inductive Misuse where
  /-- An arithmetic operator was needed. -/
  | notArithmetic (op : BinaryOp)
  /-- A comparison was needed. -/
  | notComparison (op : BinaryOp)
  /-- A logical operator was needed. -/
  | notLogical (op : BinaryOp)
  /-- The operator assigns, and was given two values and no variable. -/
  | assignsToValue (op : BinaryOp)
  /-- The operator steps a variable, and was given a value. -/
  | stepsValue (op : UnaryOp)
deriving DecidableEq, Repr

/-- A misused operator in words. -/
def Misuse.details : Misuse → String
  | .notArithmetic op => "'" ++ op.spelling ++ "' is not an arithmetic operator"
  | .notComparison op => "'" ++ op.spelling ++ "' is not a comparison operator"
  | .notLogical op => "'" ++ op.spelling ++ "' is not a logical operator"
  | .assignsToValue op => "'" ++ op.spelling ++ "' cannot be applied to two plain values"
  | .stepsValue op => "'" ++ op.spelling ++ "' cannot be applied to a plain value"

/-- The causes of the faults that belong to a line of the program. -/
inductive Fault.Cause where
  /-- The target of an assigning operator, given as it is written, is not a variable. -/
  | expectedVariable (operator : String)
  /-- No scope binds the name. -/
  | undefinedVariable (name : String)
  /-- A quotient by zero. -/
  | divisionByZero
  /-- An operator stands where it cannot. -/
  | malformed (misuse : Misuse)
  /-- The output did not take the text, for the reason given. -/
  | output (reason : String)
deriving DecidableEq, Repr

/-- What went wrong while a program ran. -/
inductive Fault where
  /-- A fault that a line of the program is to blame for. -/
  | raised (cause : Fault.Cause) (line : Nat)
  /-- The outermost scope was to be left. -/
  | scopeUnderflow
deriving DecidableEq, Repr

namespace Fault

/-- The line that is to blame. -/
def line? : Fault → Option Nat
  | .raised _ line => some line
  | .scopeUnderflow => none

/-- The cause of a fault in words, without its full stop. -/
def Cause.details : Cause → String
  | .expectedVariable operator => "Expected a variable as the target of '" ++ operator ++ "'"
  | .undefinedVariable name => "Undefined variable '" ++ name ++ "'"
  | .divisionByZero => "Division by zero"
  | .malformed misuse => "Malformed node: " ++ misuse.details
  | .output reason => "Failed to write output: " ++ reason

/-- The message shown for a fault. -/
def message : Fault → String
  | .raised cause line => s!"Error on line {line}: " ++ cause.details ++ "."
  | .scopeUnderflow => "Internal error: attempted to pop the global scope."

end Fault

end Imp32
