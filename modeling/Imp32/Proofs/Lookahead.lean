import Imp32.Proofs.EarliestError

/-!
# One token of lookahead

What a parser makes of the tokens it takes hangs on the kind of the next token, and on nothing after
it: not on the tokens that follow, and not on how many there are. This is said of all the parsers
that the grammar names (`Nonterminal`) at once. It rests on `Foresees`, which every way of putting
parsers together keeps.
-/

namespace Imp32

theorem Foresees.suffix {α : Type} {lines : Nat → Prop} {L : Language Token} {x : Reading α}
    {ts : List Token} (h : Foresees lines L x ts) : (x ts).2 <:+ ts := by
  rcases hx : x ts with ⟨e | v, rest⟩
  · rcases h.error hx with ⟨rfl, -, -⟩ | ⟨init, t, rfl, -, -, -⟩
    · exact List.nil_suffix
    · exact ⟨init ++ [t], by simp⟩
  · obtain ⟨used, -, rfl, -⟩ := h.ok hx
    exact List.suffix_append used rest

theorem Parsed.rest_eq_outcome {α : Type} {n : Nat} (p : Parsed α n) : p.rest = p.outcome.2 := by
  cases p <;> rfl

/-! ## The parsers by name -/

/-- The parser of a rule. -/
def Expr.Rule.parser : Rule → (ts : List Token) → Parsed Expr ts.length
  | .assignment => Expr.parse
  | .level l => parseLevel l
  | .unary => parseUnary
  | .primary => parsePrimary

/-- What there is a parser for, and the type of its trees. -/
inductive Nonterminal : Type → Type where
  /-- An expression by a rule; by the loosest one, any expression. -/
  | expr (rule : Expr.Rule) : Nonterminal Expr
  /-- A statement. -/
  | stmt : Nonterminal Stmt
  /-- The rest of a block, after its brace on the given line. -/
  | block (line : Nat) : Nonterminal Stmt

namespace Nonterminal

variable {α : Type}

/-- The parser by its name. -/
def parser : Nonterminal α → (ts : List Token) → Parsed α ts.length
  | .expr rule => rule.parser
  | .stmt => Stmt.parse
  | .block line => Stmt.parseBlock line

/-- The token lists from which the grammar derives a tree. -/
def language : Nonterminal α → Language Token
  | .expr rule => Expr.language rule
  | .stmt => Stmt.language
  | .block _ => Stmt.bodyLanguage

/-- Every parser reads its language with foresight. -/
theorem foresees (n : Nonterminal α) (lines : Nat → Prop) (ts : List Token) :
    Foresees lines n.language (reading n.parser) ts := by
  cases n with
  | expr rule =>
    cases rule with
    | assignment => exact Expr.foresees_parse lines ts
    | level l => exact Expr.foresees_parseOperand (r := .level l) rfl lines ts
    | unary => exact Expr.foresees_parseUnary lines ts
    | primary => exact Expr.foresees_parsePrimary lines ts
  | stmt => exact Stmt.foresees_parse lines ts
  | block line => exact Stmt.foresees_parseBlock lines line ts

/-- A parser takes tokens from the front, whether it succeeds or fails. -/
theorem rest_suffix (n : Nonterminal α) (ts : List Token) : (n.parser ts).rest <:+ ts := by
  rw [Parsed.rest_eq_outcome]
  exact (n.foresees (fun _ => False) ts).suffix

/-- Where a parser succeeds it has taken a token, and it does the same before all other tokens that
begin with one of the same kind, or are none if none were left. -/
theorem parsers_look_one_token_ahead (n : Nonterminal α) {ts rest : List Token} {v : α}
    (h : (n.parser ts).Yields v rest) :
    ∃ used, used ≠ [] ∧ ts = used ++ rest ∧
      ∀ rest', SameNext rest rest' → (n.parser (used ++ rest')).Yields v rest' := by
  have hreading : reading n.parser ts = (.ok v, rest) := reading_eq_ok_iff.mpr h
  obtain ⟨used, -, hts, hlocal⟩ := (n.foresees (fun _ => False) ts).ok hreading
  refine ⟨used, ?_, hts, ?_⟩
  · rintro rfl
    have hlt : rest.length < ts.length := h.length_lt
    rw [hts, List.nil_append] at hlt
    exact Nat.lt_irrefl _ hlt
  · intro rest' hsame
    exact reading_eq_ok_iff.mp (hlocal rest' hsame)

/-- A branch that might still take an `else`, and a sum that might still go on: both stop before a
name, and before a name with other tokens after it. -/
theorem parsers_look_one_token_ahead_where_they_stop :
    let x : Token := ⟨.identifier "x", 1⟩
    let plus : Token := ⟨.symbol .plus, 1⟩
    let branch : List Token := [⟨.keyword .ifWord, 1⟩, ⟨.symbol .leftParen, 1⟩, x,
      ⟨.symbol .rightParen, 1⟩, ⟨.symbol .semicolon, 1⟩]
    let rest' : List Token := [⟨.identifier "x", 2⟩, ⟨.keyword .elseWord, 2⟩, plus]
    ((Stmt.parse (branch ++ [x])).Yields (.ifThen (.var "x" 1) (.empty 1) 1) [x] ∧
      (Stmt.parse (branch ++ rest')).Yields (.ifThen (.var "x" 1) (.empty 1) 1) rest') ∧
      (Expr.parseLevel .sum ([x, plus, x] ++ [x])).Yields
        (.binary (.var "x" 1) (.arith .add) (.var "x" 1) 1) [x] ∧
      (Expr.parseLevel .sum ([x, plus, x] ++ rest')).Yields
        (.binary (.var "x" 1) (.arith .add) (.var "x" 1) 1) rest' := by
  intro x plus branch rest'
  have hbranch : (Stmt.parse (branch ++ [x])).Yields (.ifThen (.var "x" 1) (.empty 1) 1) [x] :=
    ⟨by decide, by cbv⟩
  have hsum : (Expr.parseLevel .sum ([x, plus, x] ++ [x])).Yields
      (.binary (.var "x" 1) (.arith .add) (.var "x" 1) 1) [x] :=
    ⟨by decide, by cbv⟩
  have hsame : SameNext [x] rest' := rfl
  obtain ⟨used, -, hused, hlocal⟩ := parsers_look_one_token_ahead stmt hbranch
  obtain ⟨used', -, hused', hlocal'⟩ := parsers_look_one_token_ahead (expr (.level .sum)) hsum
  cases List.append_cancel_right hused
  cases List.append_cancel_right hused'
  exact ⟨⟨hbranch, hlocal rest' hsame⟩, hsum, hlocal' rest' hsame⟩

end Nonterminal

end Imp32
