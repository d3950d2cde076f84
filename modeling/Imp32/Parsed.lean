import Imp32.SyntaxError

/-!
# Results of parsing

A parser takes a value off the front of a list of tokens. It succeeds with the value and the tokens
that follow, or fails with an error and the tokens that it had not taken yet.

`Parsed α n` records that a success leaves fewer than `n` tokens. A parser on `ts` has a result of
type `Parsed α ts.length`, so it takes at least one token when it succeeds, and what is called on
the tokens it leaves is called on a shorter list. This is what every recursion in the grammar rests
on.
-/

namespace Imp32

/-- The result of a parser, which leaves fewer than `bound` tokens if it succeeds. -/
inductive Parsed (α : Type) (bound : Nat) where
  /-- The value, and the tokens that follow it. -/
  | ok (value : α) (rest : List Token) (shorter : rest.length < bound)
  /-- What is wrong, and the tokens not taken when it showed. -/
  | fail (error : SyntaxError) (rest : List Token)
deriving Repr

namespace Parsed

variable {α β : Type} {m n : Nat}

/-- The tokens left, after a success or a failure. -/
def rest : Parsed α n → List Token
  | .ok _ rest _ => rest
  | .fail _ rest => rest

/-- Changes the value. -/
def map (f : α → β) : Parsed α n → Parsed β n
  | .ok value rest h => .ok (f value) rest h
  | .fail error rest => .fail error rest

/-- Changes the error. -/
def mapError (f : SyntaxError → SyntaxError) : Parsed α n → Parsed α n
  | .ok value rest h => .ok value rest h
  | .fail error rest => .fail (f error) rest

/-- The same result, seen from a longer list. -/
def weaken (h : m ≤ n) : Parsed α m → Parsed α n
  | .ok value rest hr => .ok value rest (Nat.lt_of_lt_of_le hr h)
  | .fail error rest => .fail error rest

/-- The same result, seen from one token before. -/
def later (p : Parsed α n) : Parsed α (n + 1) := p.weaken (Nat.le_succ n)

/-- Goes on from a success, possibly without taking another token. -/
def bind (p : Parsed α n)
    (f : (value : α) → (rest : List Token) → rest.length < n → Parsed β n) : Parsed β n :=
  match p with
  | .ok value rest h => f value rest h
  | .fail error rest => .fail error rest

/-- Goes on from a success with a parser on the tokens left. -/
def andThen (p : Parsed α n)
    (f : (value : α) → (rest : List Token) → rest.length < n → Parsed β rest.length) :
    Parsed β n :=
  p.bind fun value rest h => (f value rest h).weaken (Nat.le_of_lt h)

end Parsed

/-- Takes the next token, which has to be of the kind wanted. If the tokens end here instead, the
given line is blamed. -/
def expect (wanted : Token.Kind) (line : Nat) : (ts : List Token) → Parsed Unit ts.length
  | [] => .fail ⟨.unexpectedEnd, line⟩ []
  | t :: ts =>
    if t.kind = wanted then .ok () ts (Nat.lt_succ_self _)
    else .fail ⟨.expected wanted t.kind, t.line⟩ ts

/-- Takes the next token, which has to be a closing parenthesis. If the tokens end here instead, the
given line is blamed. -/
def expectCloseParen (line : Nat) : (ts : List Token) → Parsed Unit ts.length
  | [] => .fail ⟨.unclosedParen, line⟩ []
  | t :: ts =>
    if t.kind = .symbol .rightParen then .ok () ts (Nat.lt_succ_self _)
    else .fail ⟨.unclosedParen, t.line⟩ ts

end Imp32
