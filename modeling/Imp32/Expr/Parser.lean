import Imp32.Expr
import Imp32.Parsed

/-!
# Parsing expressions

The grammar of expressions, loosest first:

* an assignment is an operand of the loosest level, alone or followed by an assigning operator and
  an assignment, so assignments group to the right;
* an operand of height `k + 1` is a chain of operands of height `k` with operators of that level
  between them, which group to the left;
* an operand of height `0` is a primary with any number of unary operators before it;
* a primary is a literal, a variable, or an expression in parentheses.

Each rule looks at one token ahead at most. A token it has only looked at is not taken when it
fails. When the tokens end where an operand has to begin, the error carries line `0`: no line is
known here, and parsing a program puts in the last one.

Every call is on a shorter list, or on the same list with a tighter rule, which is what the measure
`13 * ts.length + …` says.
-/

namespace Imp32.Expr

mutual

/-- Parses an expression: an assignment or anything that binds more tightly. -/
def parse (ts : List Token) : Parsed Expr ts.length :=
  (parseOperand 9 ts).bind fun left rest h =>
    match rest, h with
    | [], h => .ok left [] h
    | t :: rest, h =>
      match t.kind.binaryOp? with
      | some op =>
        if op.assigns then
          ((parse rest).map fun right => .binary left op right t.line).weaken
            (Nat.le_of_lt (Nat.lt_of_succ_lt h))
        else .ok left (t :: rest) h
      | none => .ok left (t :: rest) h
termination_by 13 * ts.length + 12
decreasing_by
  · omega
  · simp only [List.length_cons] at h; omega

/-- Parses an operand that binds at least as tightly as the operators of a height. -/
def parseOperand (height : Nat) (ts : List Token) : Parsed Expr ts.length :=
  match height with
  | 0 => parseUnary ts
  | height + 1 =>
    (parseOperand height ts).bind fun left rest h => parseChain height left rest h
termination_by 13 * ts.length + height + 2
decreasing_by all_goals omega

/-- Continues a chain of operands of a height after its operand `left`, as long as an operator of
the next height follows. -/
def parseChain (height : Nat) (left : Expr) (ts : List Token) {n : Nat} (h : ts.length < n) :
    Parsed Expr n :=
  match ts, h with
  | [], h => .ok left [] h
  | t :: ts, h =>
    match t.kind.binaryOp? with
    | some op =>
      if op.height? = some (height + 1) then
        ((parseOperand height ts).bind fun right rest h' =>
          parseChain height (.binary left op right t.line) rest h').weaken
            (Nat.le_of_lt (Nat.lt_of_succ_lt h))
      else .ok left (t :: ts) h
    | none => .ok left (t :: ts) h
termination_by 13 * ts.length + height + 2
decreasing_by all_goals simp only [List.length_cons] at *; omega

/-- Parses a primary with any number of unary operators before it. -/
def parseUnary (ts : List Token) : Parsed Expr ts.length :=
  match ts with
  | [] => parsePrimary []
  | t :: ts =>
    match t.kind.unaryOp? with
    | some op => ((parseUnary ts).map fun operand => .unary op operand t.line).later
    | none => parsePrimary (t :: ts)
termination_by 13 * ts.length + 1
decreasing_by all_goals simp only [List.length_cons, List.length_nil] at *; omega

/-- Parses a literal, a variable, or an expression in parentheses. -/
def parsePrimary (ts : List Token) : Parsed Expr ts.length :=
  match ts with
  | [] => .fail ⟨.unexpectedEnd, 0⟩ []
  | t :: ts =>
    match t.kind with
    | .integer n =>
      match Value.ofLiteral? n with
      | some value => .ok (.num value t.line) ts (Nat.lt_succ_self _)
      | none => .fail ⟨.literalTooLarge, t.line⟩ ts
    | .identifier name => .ok (.var name t.line) ts (Nat.lt_succ_self _)
    | .symbol .leftParen =>
      ((parse ts).andThen fun e rest _ => (expectCloseParen t.line rest).map fun _ => e).later
    | kind => .fail ⟨.unexpected kind, t.line⟩ ts
termination_by 13 * ts.length
decreasing_by all_goals simp only [List.length_cons]; omega

end

/-- Parses an operand that holds operators of the given level or tighter ones. -/
def parseLevel (level : Level) (ts : List Token) : Parsed Expr ts.length :=
  parseOperand level.height ts

/-- Parses an expression in parentheses; the given line is blamed if the tokens end too early. -/
def parseParens (line : Nat) (ts : List Token) : Parsed Expr ts.length :=
  (expect (.symbol .leftParen) line ts).andThen fun _ rest _ =>
    (parse rest).andThen fun e rest _ => (expectCloseParen line rest).map fun _ => e

/-- Parses one or more expressions with commas between them. -/
def parseList (ts : List Token) : Parsed (List Expr) ts.length :=
  (parse ts).bind fun e rest h =>
    match rest, h with
    | [], h => .ok [e] [] h
    | t :: rest, h =>
      if t.kind = .symbol .comma then
        ((parseList rest).map (e :: ·)).weaken (Nat.le_of_lt (Nat.lt_of_succ_lt h))
      else .ok [e] (t :: rest) h
termination_by ts.length
decreasing_by exact Nat.lt_of_succ_lt h

end Imp32.Expr
