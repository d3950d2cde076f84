import Imp32.Cli

/-!
# The executable

Reads the arguments and, if they name one, the file; all decisions are those of `Imp32.Cli`.
-/

namespace Imp32.Cli

/-- The number of tests that a loop may make. No run reaches it in the lifetime of a machine. -/
def unbounded : Nat := 0x4000000000000000

/-- What a file holds, if it can be read and is text. -/
def readSource (name : String) : IO (Option String) := do
  try
    return some (← IO.FS.readFile name)
  catch _ => return none

/-- Writes an answer, and gives its exit code. -/
def deliver (reply : Reply) : IO UInt32 := do
  IO.print reply.output
  (← IO.getStdout).flush
  IO.eprint reply.errors
  return reply.code.toUInt32

end Imp32.Cli

/-- Runs the command with its arguments. -/
def main (args : List String) : IO UInt32 := do
  match Imp32.Cli.Command.ofArgs args with
  | .error stop => Imp32.Cli.deliver stop.reply
  | .ok command =>
    let file ← if command.fromFile then Imp32.Cli.readSource command.operand else pure none
    match command.reply Imp32.Cli.unbounded file with
    | some reply => Imp32.Cli.deliver reply
    | none => return 1
