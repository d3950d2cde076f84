import Imp32.Program
import Imp32.Stmt.Exec

/-!
# Running source texts

A source text is parsed as a whole, and run only if it is a program. What goes wrong is a syntax
error or a fault.
-/

namespace Imp32

/-- What can go wrong with a source text. -/
inductive Error where
  /-- It is no program. -/
  | parsing (error : SyntaxError)
  /-- It is a program, and its run failed. -/
  | running (fault : Fault)
deriving DecidableEq, Repr

/-- The message shown for an error. -/
def Error.message : Error → String
  | .parsing error => error.message
  | .running fault => fault.message

/-- Runs a source text in a fresh environment, or reports why it is no program. The result is `none`
if a loop outruns the budget. -/
def run (budget : Nat) (source : String) (sink : Sink) : Option (Except Error Unit × Machine) :=
  match Program.parse source with
  | .error error => some (.error (.parsing error), { sink })
  | .ok program =>
    match program.exec budget { sink } with
    | some (.ok (), m) => some (.ok (), m)
    | some (.error fault, m) => some (.error (.running fault), m)
    | none => none

end Imp32
