import Imp32.Operator

/-!
# Tokens

The pieces of a source text that the grammar is about: integer literals, identifiers, keywords and
symbols, each with the line it stands on. Comments and line ends have kinds of their own
(`Trivia`): scanning drops them, and no rule of the grammar accepts one.

`Token.Kind.spelling` is the text of a token in a source, `Token.Kind.describe` its name in a
message.
-/

namespace Imp32

/-- The reserved words. -/
inductive Keyword where
  /-- Begins a branch. -/
  | ifWord
  /-- Begins the alternative of a branch. -/
  | elseWord
  /-- Stands before the condition of a loop. -/
  | whileWord
  /-- Begins a loop that tests after its body. -/
  | doWord
  /-- Begins a loop with a step. -/
  | forWord
  /-- Begins a statement that prints. -/
  | printWord
deriving DecidableEq, Repr

/-- A keyword as it is written. -/
def Keyword.spelling : Keyword → String
  | .ifWord => "if"
  | .elseWord => "else"
  | .whileWord => "while"
  | .doWord => "do"
  | .forWord => "for"
  | .printWord => "print"

/-- The keyword that is written as the given word. -/
def Keyword.ofWord? (word : String) : Option Keyword :=
  if word = "if" then some .ifWord
  else if word = "else" then some .elseWord
  else if word = "while" then some .whileWord
  else if word = "do" then some .doWord
  else if word = "for" then some .forWord
  else if word = "print" then some .printWord
  else none

/-- A word is taken for a keyword exactly if it is the keyword's spelling. -/
theorem Keyword.ofWord?_eq_some_iff {word : String} {k : Keyword} :
    Keyword.ofWord? word = some k ↔ word = k.spelling := by
  constructor
  · intro h
    cases k <;> grind [Keyword.ofWord?, Keyword.spelling]
  · rintro rfl
    cases k <;> rfl

/-- The name of a keyword in messages. -/
def Keyword.describe : Keyword → String
  | .ifWord => "If"
  | .elseWord => "Else"
  | .whileWord => "While"
  | .doWord => "Do"
  | .forWord => "For"
  | .printWord => "Print"

/-- Operators and punctuation. -/
inductive Symbol where
  /-- A symbol that can stand between two operands. -/
  | binary (op : BinaryOp)
  /-- `++` -/
  | increment
  /-- `--` -/
  | decrement
  /-- `!` -/
  | bang
  /-- `~` -/
  | tilde
  /-- `(` -/
  | leftParen
  /-- `)` -/
  | rightParen
  /-- The brace that opens a block. -/
  | leftBrace
  /-- The brace that closes a block. -/
  | rightBrace
  /-- `;` -/
  | semicolon
  /-- `,` -/
  | comma
deriving DecidableEq, Repr

namespace Symbol

/-- `+` -/
abbrev plus : Symbol := .binary (.arith .add)

/-- `-` -/
abbrev minus : Symbol := .binary (.arith .sub)

/-- `/` -/
abbrev slash : Symbol := .binary (.arith .div)

/-- A symbol as it is written. -/
def spelling : Symbol → String
  | .binary op => op.spelling
  | .increment => "++"
  | .decrement => "--"
  | .bang => "!"
  | .tilde => "~"
  | .leftParen => "("
  | .rightParen => ")"
  | .leftBrace => "\x7b"
  | .rightBrace => "\x7d"
  | .semicolon => ";"
  | .comma => ","

/-- The symbol written as a single character. -/
def ofChar? : Char → Option Symbol
  | '+' => some (.binary (.arith .add))
  | '-' => some (.binary (.arith .sub))
  | '*' => some (.binary (.arith .mul))
  | '/' => some (.binary (.arith .div))
  | '^' => some (.binary (.arith .xor))
  | '&' => some (.binary (.arith .and))
  | '|' => some (.binary (.arith .or))
  | '=' => some (.binary .assign)
  | '<' => some (.binary (.compare .lt))
  | '>' => some (.binary (.compare .gt))
  | '!' => some .bang
  | '~' => some .tilde
  | '(' => some .leftParen
  | ')' => some .rightParen
  | '\x7b' => some .leftBrace
  | '\x7d' => some .rightBrace
  | ';' => some .semicolon
  | ',' => some .comma
  | _ => none

/-- The symbol that a symbol becomes when one more character is read. -/
def extend? : Symbol → Char → Option Symbol
  | .binary (.arith .add), '+' => some .increment
  | .binary (.arith .sub), '-' => some .decrement
  | .binary (.arith .and), '&' => some (.binary (.logic .and))
  | .binary (.arith .or), '|' => some (.binary (.logic .or))
  | .binary (.arith op), '=' => some (.binary (.compound op))
  | .binary .assign, '=' => some (.binary (.compare .eq))
  | .bang, '=' => some (.binary (.compare .ne))
  | .binary (.compare .lt), '=' => some (.binary (.compare .le))
  | .binary (.compare .gt), '=' => some (.binary (.compare .ge))
  | _, _ => none

/-- A symbol read from one character is spelled as that character. -/
theorem toList_spelling_of_ofChar? {c : Char} {s : Symbol} (h : ofChar? c = some s) :
    s.spelling.toList = [c] := by
  unfold ofChar? at h
  split at h <;> cases h <;> rfl

/-- A symbol that grew by a character is spelled as before, with the character added. -/
theorem toList_spelling_of_extend? {s t : Symbol} {c : Char} (h : s.extend? c = some t) :
    t.spelling.toList = s.spelling.toList ++ [c] := by
  unfold extend? at h
  split at h <;> cases h
  case h_5.refl => exact String.toList_append
  all_goals rfl

/-- The operator that the symbol stands for before an operand. -/
def unaryOp? : Symbol → Option UnaryOp
  | .binary (.arith .sub) => some .negate
  | .bang | .tilde => some .complement
  | .increment => some .increment
  | .decrement => some .decrement
  | _ => none

end Symbol

/-- The name of an arithmetic operator's symbol in messages. -/
def ArithOp.describe : ArithOp → String
  | .add => "Plus"
  | .sub => "Minus"
  | .mul => "Star"
  | .div => "Slash"
  | .xor => "Caret"
  | .and => "Ampersand"
  | .or => "Pipe"

/-- The name of a comparison's symbol in messages. -/
def CompareOp.describe : CompareOp → String
  | .eq => "EqualEqual"
  | .ne => "BangEqual"
  | .lt => "Less"
  | .le => "LessEqual"
  | .gt => "Greater"
  | .ge => "GreaterEqual"

/-- The name of a logical operator's symbol in messages. -/
def LogicOp.describe : LogicOp → String
  | .and => "DoubleAmpersand"
  | .or => "DoublePipe"

/-- The name of a compound assignment's symbol in messages, by its arithmetic. -/
def ArithOp.describeCompound : ArithOp → String
  | .add => "PlusAssign"
  | .sub => "MinusAssign"
  | .mul => "MulAssign"
  | .div => "DivAssign"
  | .xor => "XorAssign"
  | .and => "AndAssign"
  | .or => "OrAssign"

/-- The name of a binary operator's symbol in messages. -/
def BinaryOp.describe : BinaryOp → String
  | .arith op => op.describe
  | .compare op => op.describe
  | .logic op => op.describe
  | .assign => "Equals"
  | .compound op => op.describeCompound

/-- The name of a symbol in messages. -/
def Symbol.describe : Symbol → String
  | .binary op => op.describe
  | .increment => "PlusPlus"
  | .decrement => "MinusMinus"
  | .bang => "Bang"
  | .tilde => "Tilde"
  | .leftParen => "LParen"
  | .rightParen => "RParen"
  | .leftBrace => "LBrace"
  | .rightBrace => "RBrace"
  | .semicolon => "Semicolon"
  | .comma => "Comma"

/-- The parts of a source that carry no meaning. -/
inductive Trivia where
  /-- A comment up to the end of its line. -/
  | lineComment
  /-- A comment between delimiters. -/
  | blockComment
  /-- The end of a line. -/
  | newline
deriving DecidableEq, Repr

/-- The shortest text of each part. -/
def Trivia.spelling : Trivia → String
  | .lineComment => "//"
  | .blockComment => "/**/"
  | .newline => "\n"

/-- The name of the part in messages. -/
def Trivia.describe : Trivia → String
  | .lineComment => "Comment"
  | .blockComment => "MultiLineComment"
  | .newline => "NewLine"

/-- A character of a name between quotes. Control characters, the backslash and the quote itself are
escaped; a character beyond ASCII stands for itself. -/
def quotedChar : Char → String
  | '\x00' => "\\0"
  | '\t' => "\\t"
  | '\n' => "\\n"
  | '\r' => "\\r"
  | '\x22' => "\\\""
  | '\x5c' => "\\\\"
  | c =>
    if c < ' ' ∨ c = '\x7f' then "\\u\x7b" ++ String.ofList (Nat.toDigits 16 c.toNat) ++ "\x7d"
    else c.toString

/-- A name between quotes. -/
def quoted (name : String) : String := "\"" ++ String.join (name.toList.map quotedChar) ++ "\""

/-- What a token is, wherever it stands. -/
inductive Token.Kind where
  /-- An integer literal. -/
  | integer (value : Int)
  /-- The name of a variable. -/
  | identifier (name : String)
  /-- A reserved word. -/
  | keyword (word : Keyword)
  /-- An operator or punctuation. -/
  | symbol (sym : Symbol)
  /-- A comment or line end. -/
  | trivia (part : Trivia)
deriving DecidableEq, Repr

/-- A token and the line it stands on. -/
structure Token where
  /-- What the token is. -/
  kind : Token.Kind
  /-- The line it stands on, counted from one. -/
  line : Nat
deriving DecidableEq, Repr

namespace Token.Kind

/-- A token as it is written. -/
def spelling : Kind → String
  | .integer value => value.repr
  | .identifier name => name
  | .keyword word => word.spelling
  | .symbol sym => sym.spelling
  | .trivia part => part.spelling

/-- The name of a token in messages. The names of variables that a source can hold need no escapes
(`describe_of_isName`). -/
def describe : Kind → String
  | .integer value => "Integer(" ++ value.repr ++ ")"
  | .identifier name => "Identifier(" ++ quoted name ++ ")"
  | .keyword word => word.describe
  | .symbol sym => sym.describe
  | .trivia part => part.describe

/-- The operator that the token stands for between two operands. -/
def binaryOp? : Kind → Option BinaryOp
  | .symbol (.binary op) => some op
  | _ => none

/-- The operator that the token stands for before an operand. -/
def unaryOp? : Kind → Option UnaryOp
  | .symbol sym => sym.unaryOp?
  | _ => none

end Token.Kind

end Imp32
