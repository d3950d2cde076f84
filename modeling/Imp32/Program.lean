import Imp32.Stmt.Parser
import Imp32.Token.Scanner

/-!
# Programs from text

A program is parsed from a whole list of tokens, or from a source text. An error at the end of the
input is blamed on the line of the last token, or on line one if there is none.
-/

namespace Imp32.Program

/-- Parses statements until no token is left. -/
def parseAll (ts : List Token) : Parsed Program (ts.length + 1) :=
  match ts with
  | [] => .ok [] [] (Nat.lt_succ_self _)
  | t :: ts =>
    match Stmt.parse (t :: ts) with
    | .ok s rest h => ((parseAll rest).map (s :: ·)).weaken (Nat.succ_le_succ (Nat.le_of_lt h))
    | .fail error rest => .fail error rest
termination_by ts.length
decreasing_by exact h

/-- The line of the last token, or line one if there is none. -/
def lastLine (ts : List Token) : Nat :=
  match ts.getLast? with
  | some t => t.line
  | none => 1

/-- The same error, with the given line if it shows at the end of the input. -/
def blameEnd (line : Nat) (e : SyntaxError) : SyntaxError :=
  if e.cause = .unexpectedEnd then { e with line } else e

/-- Parses a program from all the tokens of a source. -/
def parseTokens (ts : List Token) : Parsed Program (ts.length + 1) :=
  (parseAll ts).mapError (blameEnd (lastLine ts))

/-- Parses a program from a source text. -/
def parse (source : String) : Except SyntaxError Program :=
  match scan source with
  | .error e => .error ⟨.unrecognised e.text, e.line⟩
  | .ok ts =>
    match parseTokens ts with
    | .ok program _ _ => .ok program
    | .fail e _ => .error e

end Imp32.Program
