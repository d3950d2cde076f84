import Imp32.Stmt
import Imp32.Token

/-!
# Layout

The text of a tree. A tree is first laid out as a list of tokens and gaps (`Piece`); its text is the
concatenation of their texts. So the tokens of a printed tree can be read off its layout, without
scanning the text.

Every binary operation is parenthesised. The operand of a unary operator is parenthesised if it
would begin with an operator itself. A block puts each statement on a line of its own, four columns
deeper; all else stands on one line. A branch that would take the `else` of the `if` around it is
put in braces.

An indentation is as wide as the nesting asks for. A limit on its width is left out: with a limit of
65535 columns, a tree that is nested 16384 deep could not be printed at all.
-/

namespace Imp32

/-- A piece of laid out text. -/
inductive Piece where
  /-- A token. -/
  | token (kind : Token.Kind)
  /-- A single space. -/
  | space
  /-- A line break, and the indentation of the line it begins. -/
  | newline (depth : Nat)
deriving DecidableEq, Repr

namespace Piece

/-- A symbol as a piece. -/
abbrev sym (s : Symbol) : Piece := .token (.symbol s)

/-- A keyword as a piece. -/
abbrev word (k : Keyword) : Piece := .token (.keyword k)

/-- The text of a piece. Each level of indentation is four columns wide. -/
def text : Piece → String
  | .token kind => kind.spelling
  | .space => " "
  | .newline depth => String.ofList ('\n' :: List.replicate (4 * depth) ' ')

/-- The text of a layout. -/
def render (pieces : List Piece) : String := String.join (pieces.map text)

/-- The tokens of a layout. -/
def kinds (pieces : List Piece) : List Token.Kind :=
  pieces.filterMap fun
    | .token kind => some kind
    | .space | .newline _ => none

end Piece

/-- The symbol that a unary operator is printed as. -/
def UnaryOp.symbol : UnaryOp → Symbol
  | .complement => .tilde
  | .negate => .minus
  | .decrement => .decrement
  | .increment => .increment

namespace Value

/-- The layout of a value: a minus sign if it is negative, and its digits. -/
def layout (v : Value) : List Piece :=
  if v.toInt < 0 then [.sym .minus, .token (.integer (-v.toInt))]
  else [.token (.integer v.toInt)]

end Value

namespace Expr

/-- Whether the layout of an expression begins with a unary operator. -/
def startsSigned : Expr → Bool
  | .num value _ => value.toInt < 0
  | .unary _ _ _ => true
  | .var _ _ | .binary _ _ _ _ => false

/-- The layout of an expression. -/
def layout : Expr → List Piece
  | .num value _ => value.layout
  | .var name _ => [.token (.identifier name)]
  | .unary op operand _ =>
    if operand.startsSigned then
      .sym op.symbol :: .sym .leftParen :: operand.layout ++ [.sym .rightParen]
    else .sym op.symbol :: operand.layout
  | .binary left op right _ =>
    .sym .leftParen :: left.layout ++ .space :: .sym (.binary op) :: .space :: right.layout ++
      [.sym .rightParen]

/-- The text of an expression. -/
def render (e : Expr) : String := Piece.render e.layout

/-- The layout of expressions one after another, with commas between them. -/
def layoutList : List Expr → List Piece
  | [] => []
  | [e] => e.layout
  | e :: es => e.layout ++ .sym .comma :: .space :: layoutList es

/-- The layout of an expression in parentheses. -/
def layoutParens (e : Expr) : List Piece :=
  .sym .leftParen :: e.layout ++ [.sym .rightParen]

end Expr

namespace Stmt

mutual

/-- The layout of a statement that begins on a line of the given depth. -/
def layout (depth : Nat) : Stmt → List Piece
  | .empty _ => [.sym .semicolon]
  | .block body _ =>
    .sym .leftBrace :: layoutLines (depth + 1) body ++ [.newline depth, .sym .rightBrace]
  | .ifThen condition thenBranch _ =>
    .word .ifWord :: .space :: condition.layoutParens ++ .space :: thenBranch.layout depth
  | .ifElse condition thenBranch elseBranch _ =>
    .word .ifWord :: .space :: condition.layoutParens ++ .space ::
      (if thenBranch.endsOpen then
        .sym .leftBrace :: .newline (depth + 1) :: thenBranch.layout (depth + 1) ++
          [.newline depth, .sym .rightBrace]
      else thenBranch.layout depth) ++
      .space :: .word .elseWord :: .space :: elseBranch.layout depth
  | .whileDo condition body _ =>
    .word .whileWord :: .space :: condition.layoutParens ++ .space :: body.layout depth
  | .doWhile body condition _ =>
    .word .doWord :: .space :: body.layout depth ++
      .space :: .word .whileWord :: .space :: condition.layoutParens ++ [.sym .semicolon]
  | .forDo init condition step body _ =>
    .word .forWord :: .space :: .sym .leftParen :: init.layout depth ++
      .space :: condition.layout ++ .sym .semicolon :: .space :: step.layout ++
      .sym .rightParen :: .space :: body.layout depth
  | .exprs list _ => Expr.layoutList list ++ [.sym .semicolon]
  | .print value _ => .word .printWord :: .space :: value.layout ++ [.sym .semicolon]

/-- The layout of statements on lines of their own at the given depth. -/
def layoutLines (depth : Nat) : List Stmt → List Piece
  | [] => []
  | s :: ss => .newline depth :: s.layout depth ++ layoutLines depth ss

end

/-- The text of a statement. -/
def render (s : Stmt) : String := Piece.render (s.layout 0)

end Stmt

/-- The text of a program: the texts of its statements, each beginning a line. -/
def Program.render (p : Program) : String :=
  "\n".intercalate (p.map Stmt.render)

end Imp32
