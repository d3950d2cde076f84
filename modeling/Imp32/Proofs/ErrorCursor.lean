import Imp32.Proofs.Lookahead

/-!
# Errors tell where a parser stopped

A parser that fails has taken some of its tokens, and the error tells which (`TellsCursor`). If the
tokens end too early, all of them are taken. Otherwise the error is about a token: it is the last
one taken, it has the line reported and it is the one named, and those after it are left, whatever
they are. A parenthesis that is not closed can be either. The main statement says this of every
parser (`errors_tell_the_cursor`).
-/

namespace Imp32

namespace SyntaxError

/-- What is said of an unexpected token is the name of the token, alone or at the end, after the
word `found`. -/
def Cause.Names (c : Cause) (k : Token.Kind) : Prop :=
  ∃ text, c.details = "Unexpected token: " ++ text ∧
    (text = k.describe ∨ ∃ before, text = before ++ "found " ++ k.describe)

theorem names_unexpected (found : Token.Kind) : (Cause.unexpected found).Names found :=
  ⟨found.describe, rfl, .inl rfl⟩

theorem names_expected (wanted found : Token.Kind) : (Cause.expected wanted found).Names found := by
  have hdetails : (Cause.expected wanted found).details =
      "Unexpected token: " ++ ("Expected " ++ wanted.describe ++ ", " ++ "found " ++
        found.describe) := by
    calc (Cause.expected wanted found).details
      _ = ("Unexpected token: " ++ "Expected ") ++ wanted.describe ++ (", " ++ "found ") ++
          found.describe := rfl
      _ = _ := by simp only [String.append_assoc]
  exact ⟨_, hdetails, .inr ⟨_, rfl⟩⟩

end SyntaxError

section TellsCursor

variable {α : Type} {bound : List Token → Nat} {p : (ts : List Token) → Parsed α (bound ts)}

/-- The parser has taken the tokens `used`, and fails at the last of them. -/
structure BlamesLast (p : (ts : List Token) → Parsed α (bound ts)) (e : SyntaxError)
    (used : List Token) (t : Token) : Prop where
  /-- The token is the last one taken. -/
  last : used.getLast? = some t
  /-- The error reports the line of the token. -/
  line : e.line = t.line
  /-- No token after it is ever taken. -/
  leaves : ∀ rest, p (used ++ rest) = .fail e rest

/-- Wherever the parser fails, the error tells which tokens it has taken. -/
def TellsCursor (p : (ts : List Token) → Parsed α (bound ts)) : Prop :=
  ∀ ts e rest, p ts = .fail e rest → ∃ used, ts = used ++ rest ∧
    match e.cause with
    | .unexpected _ | .expected _ _ => ∃ t, BlamesLast p e used t ∧ e.cause.Names t.kind
    | .literalTooLarge => ∃ t, BlamesLast p e used t
    | .unclosedParen => (∃ t, BlamesLast p e used t ∧ t.kind ≠ .symbol .rightParen) ∨ rest = []
    | .unexpectedEnd => rest = []
    | .unrecognised _ => False

theorem BlamesLast.of_append_cons {e : SyntaxError} {init : List Token} {t : Token}
    (hline : e.line = t.line) (h : ∀ rest, p (init ++ t :: rest) = .fail e rest) :
    BlamesLast p e (init ++ [t]) t where
  last := List.getLast?_concat
  line := hline
  leaves rest := by
    rw [List.append_assoc]
    exact h rest

/-- Every error shows at the end of the tokens, or at a token whatever follows it. -/
theorem tellsCursor_of_cases (h : ∀ {ts e rest}, p ts = .fail e rest →
    (rest = [] ∧ (e.cause = .unexpectedEnd ∨ e.cause = .unclosedParen)) ∨
      ∃ init t, ts = init ++ t :: rest ∧ e.ShowsAt t ∧
        ∀ rest', p (init ++ t :: rest') = .fail e rest') : TellsCursor p := by
  intro ts e rest hfail
  rcases h hfail with ⟨hrest, hcause⟩ | ⟨init, t, hts, ⟨hline, hcause⟩, hlocal⟩
  · refine ⟨ts, by rw [hrest, List.append_nil], ?_⟩
    rcases hcause with hcause | hcause <;> rw [hcause]
    · exact hrest
    · exact .inr hrest
  · have hstops := BlamesLast.of_append_cons hline hlocal
    refine ⟨init ++ [t], by rw [hts, List.append_assoc]; rfl, ?_⟩
    cases hc : e.cause with
    | unexpected found =>
      rw [hc] at hcause
      cases hcause
      exact ⟨t, hstops, SyntaxError.names_unexpected t.kind⟩
    | expected wanted found =>
      rw [hc] at hcause
      cases hcause
      exact ⟨t, hstops, SyntaxError.names_expected wanted t.kind⟩
    | unclosedParen =>
      rw [hc] at hcause
      exact .inl ⟨t, hstops, hcause⟩
    | literalTooLarge => exact ⟨t, hstops⟩
    | unexpectedEnd =>
      rw [hc] at hcause
      exact hcause.elim
    | unrecognised text =>
      rw [hc] at hcause
      exact hcause

end TellsCursor

theorem SyntaxError.ShowsAtEnd.cause_eq {lines : Nat → Prop} {e : SyntaxError}
    (h : e.ShowsAtEnd lines) : e.cause = .unexpectedEnd ∨ e.cause = .unclosedParen := by
  unfold ShowsAtEnd at h
  split at h
  · rename_i hcause
    exact .inl hcause
  · rename_i hcause
    exact .inr hcause
  · exact h.elim

theorem Nonterminal.tellsCursor {α : Type} (n : Nonterminal α) : TellsCursor n.parser := by
  refine tellsCursor_of_cases fun {ts e rest} hfail => ?_
  rcases (n.foresees (fun _ => False) ts).error (reading_eq_error_iff.mpr hfail) with
    ⟨hrest, hend, -⟩ | ⟨init, t, hts, hat, -, hlocal⟩
  · exact .inl ⟨hrest, hend.cause_eq⟩
  · exact .inr ⟨init, t, hts, hat, fun rest' => reading_eq_error_iff.mp (hlocal rest')⟩

theorem Program.tellsCursor : TellsCursor parseTokens := by
  refine tellsCursor_of_cases fun hfail => ?_
  rcases fail_cases hfail with ⟨hrest, -, hearly⟩ | ⟨init, t, hts, hat, -, hlocal⟩
  · exact .inl ⟨hrest, hearly.imp And.left And.left⟩
  · exact .inr ⟨init, t, hts, hat, hlocal⟩

/-- The error of every parser that fails, of programs, statements, blocks and expressions by any
rule, tells which tokens it has taken. -/
theorem errors_tell_the_cursor :
    TellsCursor Program.parseTokens ∧ ∀ (α : Type) (n : Nonterminal α), TellsCursor n.parser :=
  ⟨Program.tellsCursor, fun _ n => n.tellsCursor⟩

/-- A loop that goes on with another word than it should, and a program with a parenthesis that is
not closed before the semicolon. -/
theorem errors_tell_the_cursor_after_operand :
    let x : Token := ⟨.identifier "x", 2⟩
    let semicolon : Token := ⟨.symbol .semicolon, 2⟩
    let loop : List Token := [⟨.keyword .doWord, 1⟩, x, semicolon]
    let print : Token := ⟨.keyword .printWord, 3⟩
    let unclosed : List Token := [print, ⟨.symbol .leftParen, 1⟩, x]
    let wrong : SyntaxError := ⟨.expected (.keyword .whileWord) (.keyword .printWord), 3⟩
    let missing : SyntaxError := ⟨.unclosedParen, 2⟩
    (Stmt.parse (loop ++ [print] ++ [x]) = .fail wrong [x] ∧
      BlamesLast Stmt.parse wrong (loop ++ [print]) print ∧ wrong.cause.Names print.kind) ∧
    Program.parseTokens (unclosed ++ [semicolon] ++ [x]) = .fail missing [x] ∧
      BlamesLast Program.parseTokens missing (unclosed ++ [semicolon]) semicolon := by
  intro x semicolon loop print unclosed wrong missing
  have hwrong : Stmt.parse (loop ++ [print] ++ [x]) = .fail wrong [x] := by cbv
  have hmissing : Program.parseTokens (unclosed ++ [semicolon] ++ [x]) = .fail missing [x] := by cbv
  obtain ⟨hprogram, hparsers⟩ := errors_tell_the_cursor
  obtain ⟨used, hused, t, hstops, hnames⟩ := hparsers Stmt .stmt _ wrong [x] hwrong
  obtain ⟨used', hused', hcases⟩ := hprogram _ missing [x] hmissing
  cases List.append_cancel_right hused
  cases List.append_cancel_right hused'
  cases hstops.last
  -- a token is left, so the parenthesis is missed at the last one taken
  rcases hcases with ⟨t, hstops', -⟩ | hnone
  · cases hstops'.last
    exact ⟨⟨hwrong, hstops, hnames⟩, hmissing, hstops'⟩
  · cases hnone

end Imp32
