import Imp32.Expr.Parser
import Imp32.Stmt

/-!
# Parsing statements

The grammar of statements. The first token decides between the rules; a statement that begins with
none of the reserved words, a brace or a semicolon is a list of expressions. A node carries the line
of the first token of its statement, and that line is blamed where the tokens end inside the
statement's own punctuation.

An `else` is taken by the innermost `if` that is still open. When the tokens end where a statement
has to begin, the error carries line `0`, as for expressions.
-/

namespace Imp32.Stmt

/-- Parses the rest of a statement that prints, after its first token. -/
def parsePrint (line : Nat) (ts : List Token) : Parsed Stmt ts.length :=
  (Expr.parse ts).andThen fun value rest _ =>
    (expect (.symbol .semicolon) line rest).map fun _ => .print value line

/-- Parses a statement that is a list of expressions. -/
def parseExprs (line : Nat) (ts : List Token) : Parsed Stmt ts.length :=
  (Expr.parseList ts).andThen fun list rest _ =>
    (expect (.symbol .semicolon) line rest).map fun _ => .exprs list line

mutual

/-- Parses a statement. -/
def parse (ts : List Token) : Parsed Stmt ts.length :=
  match ts with
  | [] => .fail ⟨.unexpectedEnd, 0⟩ []
  | t :: ts =>
    match t.kind with
    | .symbol .semicolon => .ok (.empty t.line) ts (Nat.lt_succ_self _)
    | .symbol .leftBrace => (parseBlock t.line ts).later
    | .keyword .ifWord => (parseIf t.line ts).later
    | .keyword .whileWord => (parseWhile t.line ts).later
    | .keyword .doWord => (parseDo t.line ts).later
    | .keyword .forWord => (parseFor t.line ts).later
    | .keyword .printWord => (parsePrint t.line ts).later
    | _ => parseExprs t.line (t :: ts)
termination_by 3 * ts.length
decreasing_by all_goals simp only [List.length_cons]; omega

/-- Parses the rest of a block, after the brace that opens it. -/
def parseBlock (line : Nat) (ts : List Token) : Parsed Stmt ts.length :=
  (parseBody line ts).map fun body => .block body line
termination_by 3 * ts.length + 2
decreasing_by omega

/-- Parses statements up to the brace that closes their block, and takes the brace. -/
def parseBody (line : Nat) (ts : List Token) : Parsed (List Stmt) ts.length :=
  match ts with
  | [] => .fail ⟨.unexpectedEnd, line⟩ []
  | t :: ts =>
    if t.kind = .symbol .rightBrace then .ok [] ts (Nat.lt_succ_self _)
    else
      (parse (t :: ts)).andThen fun s rest _ => (parseBody line rest).map (s :: ·)
termination_by 3 * ts.length + 1
decreasing_by all_goals simp only [List.length_cons] at *; omega

/-- Parses the rest of a branch, after its first token. -/
def parseIf (line : Nat) (ts : List Token) : Parsed Stmt ts.length :=
  (Expr.parseParens line ts).andThen fun condition rest _ =>
    (parse rest).bind fun thenBranch rest h =>
      match rest, h with
      | [], h => .ok (.ifThen condition thenBranch line) [] h
      | t :: rest, h =>
        if t.kind = .keyword .elseWord then
          ((parse rest).map fun elseBranch => .ifElse condition thenBranch elseBranch line).weaken
            (Nat.le_of_lt (Nat.lt_of_succ_lt h))
        else .ok (.ifThen condition thenBranch line) (t :: rest) h
termination_by 3 * ts.length
decreasing_by
  · omega
  · simp only [List.length_cons] at h; omega

/-- Parses the rest of a loop that tests before its body, after its first token. -/
def parseWhile (line : Nat) (ts : List Token) : Parsed Stmt ts.length :=
  (Expr.parseParens line ts).andThen fun condition rest _ =>
    (parse rest).map fun body => .whileDo condition body line
termination_by 3 * ts.length
decreasing_by omega

/-- Parses the rest of a loop that tests after its body, after its first token. -/
def parseDo (line : Nat) (ts : List Token) : Parsed Stmt ts.length :=
  (parse ts).andThen fun body rest _ =>
    (expect (.keyword .whileWord) line rest).andThen fun _ rest _ =>
      (Expr.parseParens line rest).andThen fun condition rest _ =>
        (expect (.symbol .semicolon) line rest).map fun _ => .doWhile body condition line
termination_by 3 * ts.length + 1
decreasing_by omega

/-- Parses the rest of a loop with a step, after its first token. -/
def parseFor (line : Nat) (ts : List Token) : Parsed Stmt ts.length :=
  (expect (.symbol .leftParen) line ts).andThen fun _ rest _ =>
    (parse rest).andThen fun init rest _ =>
      (Expr.parse rest).andThen fun condition rest _ =>
        (expect (.symbol .semicolon) line rest).andThen fun _ rest _ =>
          (Expr.parse rest).andThen fun step rest _ =>
            (expectCloseParen line rest).andThen fun _ rest _ =>
              (parse rest).map fun body => .forDo init condition step body line
termination_by 3 * ts.length
decreasing_by all_goals omega

end

end Imp32.Stmt
