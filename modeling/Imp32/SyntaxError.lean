import Imp32.Token

/-!
# Syntax errors

Why a source text is not a program: a cause at a line. Two errors that differ only in the line have
equal causes.
-/

namespace Imp32

/-- What is wrong with a source text. -/
inductive SyntaxError.Cause where
  /-- The text is no token. -/
  | unrecognised (text : String)
  /-- The token cannot begin an operand. -/
  | unexpected (found : Token.Kind)
  /-- One token had to stand where another one was found. -/
  | expected (wanted found : Token.Kind)
  /-- The source ends too early. -/
  | unexpectedEnd
  /-- A parenthesis is not closed where it has to be. -/
  | unclosedParen
  /-- An integer literal lies outside the range of a value. -/
  | literalTooLarge
deriving DecidableEq, Repr

/-- Why a source text is not a program, and on which line that shows. -/
structure SyntaxError where
  /-- What is wrong. -/
  cause : SyntaxError.Cause
  /-- The line on which it shows. -/
  line : Nat
deriving DecidableEq, Repr

namespace SyntaxError

/-- The cause of a syntax error in words, without its full stop. -/
def Cause.details : Cause → String
  | .unrecognised text => "Unexpected token: " ++ text
  | .unexpected found => "Unexpected token: " ++ found.describe
  | .expected wanted found =>
    "Unexpected token: Expected " ++ wanted.describe ++ ", found " ++ found.describe
  | .unexpectedEnd => "Unexpected end of input"
  | .unclosedParen => "Expected closing parenthesis ')' but none found"
  | .literalTooLarge => "Literal is too large"

/-- The message shown for a syntax error. -/
def message (e : SyntaxError) : String :=
  s!"Error on line {e.line}: " ++ e.cause.details ++ "."

end SyntaxError

end Imp32
