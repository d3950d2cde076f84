import Imp32.Layout
import Imp32.Run

/-!
# The command line

What the arguments ask for, and what is answered. The one operand is a source text, or with `-f` the
name of a file that holds one. `--ast` prints the program instead of running it.

Arguments are taken from left to right. Each flag may be given once, short flags may share one dash,
and after `--` every argument is an operand. Asking for the version ends the reading of arguments
there and then, and so does the first one that is wrong.
-/

namespace Imp32.Cli

/-- The flags and the operand met so far. -/
structure Options where
  /-- The operand names a file. -/
  fromFile : Bool := false
  /-- The program is to be printed. -/
  showTree : Bool := false
  /-- The operand. -/
  operand : Option String := none
deriving DecidableEq, Repr

/-- Why the reading of arguments ends early. -/
inductive Stop where
  /-- The version was asked for. -/
  | version
  /-- An argument is wrong, or one is missing. -/
  | usage
deriving DecidableEq, Repr

/-- What the arguments ask for. -/
structure Command where
  /-- The operand. -/
  operand : String
  /-- Whether the operand names a file. -/
  fromFile : Bool
  /-- Whether the program is to be printed and not run. -/
  showTree : Bool
deriving DecidableEq, Repr

/-- What the command answers. -/
structure Reply where
  /-- The exit code. -/
  code : UInt8
  /-- The text for the standard output. -/
  output : String := ""
  /-- The text for the standard error output. -/
  errors : String := ""
deriving DecidableEq, Repr

namespace Options

/-- Takes the flag that the operand names a file, which may be given once. -/
def setFromFile (o : Options) : Except Stop Options :=
  if o.fromFile then .error .usage else .ok { o with fromFile := true }

/-- Takes the flag that the program is to be printed, which may be given once. -/
def setShowTree (o : Options) : Except Stop Options :=
  if o.showTree then .error .usage else .ok { o with showTree := true }

/-- Takes the operand, of which there is one. -/
def setOperand (o : Options) (operand : String) : Except Stop Options :=
  if o.operand.isSome then .error .usage else .ok { o with operand := some operand }

/-- Takes a short flag. -/
def shortFlag (o : Options) (flag : Char) : Except Stop Options :=
  match flag with
  | 'f' => o.setFromFile
  | 'V' => .error .version
  | _ => .error .usage

/-- Takes a long flag, given without its dashes. -/
def longFlag (o : Options) (flag : String) : Except Stop Options :=
  if flag = "file" then o.setFromFile
  else if flag = "ast" then o.setShowTree
  else if flag = "version" then .error .version
  else .error .usage

/-- Takes an argument that stands before any `--`. -/
def argument (o : Options) (arg : String) : Except Stop Options :=
  match arg.toList with
  | '-' :: '-' :: flag => o.longFlag (String.ofList flag)
  | '-' :: flag :: flags => (flag :: flags).foldlM shortFlag o
  | _ => o.setOperand arg

/-- Takes all arguments. -/
def arguments (o : Options) : List String → Except Stop Options
  | [] => .ok o
  | arg :: args =>
    if arg = "--" then args.foldlM setOperand o
    else do (← o.argument arg).arguments args

end Options

/-- What the arguments ask for. -/
def Command.ofArgs (args : List String) : Except Stop Command := do
  let o ← ({} : Options).arguments args
  match o.operand with
  | some operand => return { operand, fromFile := o.fromFile, showTree := o.showTree }
  | none => throw .usage

/-- The answer to arguments whose reading ended early. -/
def Stop.reply : Stop → Reply
  | .version => { code := 0, output := "arith 0.1.0\n" }
  | .usage => { code := 2, errors := "Usage: arith [-f | --file] [--ast] <contents>\n" }

/-- The answer to an error: its message, after what was written before. -/
def failure (output : String) (message : String) : Reply :=
  { code := 1, output, errors := message ++ "\n" }

/-- Prints the program of a source text, each statement on a line of its own. -/
def printTree (source : String) : Reply :=
  match Program.parse source with
  | .ok program => { code := 0, output := String.join (program.map fun s => s.render ++ "\n") }
  | .error error => failure "" error.message

/-- Runs a source text. -/
def runSource (budget : Nat) (source : String) : Option Reply :=
  match run budget source {} with
  | some (.ok (), m) => some { code := 0, output := m.sink.written }
  | some (.error error, m) => some (failure m.sink.written error.message)
  | none => none

/-- The answer to a command, given what its file holds if the file can be read. The result is `none`
if a loop outruns the budget. -/
def Command.reply (budget : Nat) (c : Command) (file : Option String) : Option Reply :=
  match if c.fromFile then file else some c.operand with
  | none =>
    some (failure "" ("Failed to read the input file '" ++ c.operand ++
      "'. Perhaps this file does not exist?"))
  | some source => if c.showTree then some (printTree source) else runSource budget source

end Imp32.Cli
