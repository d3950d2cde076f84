import Imp32.Proofs.PrintedTokens

/-!
# Scanning spelled tokens

The tokens that a source text can hold (`Token.Kind.Lexable`) are exactly those that scanning
produces. A token of this kind that stands before a space is scanned as it is spelled, whatever the
tokens around it: the space ends it, and nothing of it is left for the next one. So scanning the
spellings of such tokens, with single spaces between them, gives back the tokens.
-/

namespace Imp32

open Token.Kind

instance : DecidablePred Token.Kind.Lexable
  | .integer n => inferInstanceAs (Decidable (0 ≤ n ∧ n < 0x8000000000000000))
  | .identifier name => inferInstanceAs (Decidable (isName name = true))
  | .keyword _ | .symbol _ => .isTrue trivial
  | .trivia _ => .isFalse id

/-- No token that stands before a space runs on into it. -/
theorem Pending.extend?_ofKind_space (k : Token.Kind) : (ofKind k).extend? ' ' = none := by
  have hword : isWordPart ' ' = false := by decide
  have htail : ' ' ∉ operatorTail := by decide
  exact extend?_ofKind hword htail k

namespace Scanner

/-- With nothing pending, the spelling of a token leaves that token pending. -/
theorem feed_spelling_of_nothing {k : Token.Kind} (hk : k.Lexable) (done : List Token)
    (line : Nat) :
    feed ⟨done, line, .nothing⟩ k.spelling.toList = .ok ⟨done, line, .ofKind k⟩ := by
  have hkind : Pending.nothing.kind? line = .ok none := rfl
  have hapart : ∀ c ∈ k.spelling.toList.head?, Pending.nothing.extend? c = none := fun _ _ => rfl
  exact feed_spelling (s := ⟨done, line, .nothing⟩) hk hkind hapart

/-- A space completes the pending token, and leaves nothing pending on the same line. -/
theorem feed_space_of_ofKind {k : Token.Kind} (hk : k.Lexable) (done : List Token) (line : Nat) :
    feed ⟨done, line, .ofKind k⟩ [' '] = .ok ⟨⟨k, line⟩ :: done, line, .nothing⟩ := by
  have hkind : (Pending.ofKind k).kind? line = .ok (some k) := Pending.kind?_ofKind hk line
  have hstep : step ⟨done, line, .ofKind k⟩ ' ' = .ok ⟨⟨k, line⟩ :: done, line, .nothing⟩ :=
    step_eq_ok_iff.mpr (.inr ⟨some k, .nothing, Pending.extend?_ofKind_space k, hkind, rfl, rfl⟩)
  exact feed_cons_eq_ok_iff.mpr ⟨_, hstep, feed_nil _⟩

/-- What one token and the space after it do: the token is complete, and all is as before. -/
theorem feed_spelling_space {k : Token.Kind} (hk : k.Lexable) (done : List Token) (line : Nat) :
    feed ⟨done, line, .nothing⟩ (k.spelling.toList ++ [' ']) =
      .ok ⟨⟨k, line⟩ :: done, line, .nothing⟩ :=
  feed_append_eq_ok_iff.mpr
    ⟨_, feed_spelling_of_nothing hk done line, feed_space_of_ofKind hk done line⟩

/-- What the spellings of tokens with single spaces between them do. -/
theorem exists_feed_spellings {ks : List Token.Kind} (hks : ∀ k ∈ ks, k.Lexable)
    (done : List Token) (line : Nat) :
    ∃ s, feed ⟨done, line, .nothing⟩ (" ".intercalate (ks.map spelling)).toList = .ok s ∧
      s.finish = .ok (done.reverse ++ ks.map fun k => ⟨k, line⟩) := by
  -- between two tokens nothing is pending, so only the complete tokens change
  induction ks generalizing done with
  | nil =>
    refine ⟨⟨done, line, .nothing⟩, rfl, ?_⟩
    exact finish_eq_ok_iff.mpr ⟨none, rfl, by simp [doneWith]⟩
  | cons k ks ih =>
    rw [List.forall_mem_cons] at hks
    obtain ⟨hk, hks⟩ := hks
    cases ks with
    | nil =>
      refine ⟨⟨done, line, .ofKind k⟩, ?_, ?_⟩
      · rw [List.map_singleton, String.intercalate_singleton]
        exact feed_spelling_of_nothing hk done line
      · have hkind : (Pending.ofKind k).kind? line = .ok (some k) := Pending.kind?_ofKind hk line
        exact finish_eq_ok_iff.mpr ⟨some k, hkind, by simp [doneWith]⟩
    | cons k' ks =>
      obtain ⟨s, hfeed, hfinish⟩ := ih hks (⟨k, line⟩ :: done)
      have htext : (" ".intercalate ((k :: k' :: ks).map spelling)).toList =
          (k.spelling.toList ++ [' ']) ++ (" ".intercalate ((k' :: ks).map spelling)).toList := by
        rw [List.map_cons, List.map_cons, String.intercalate_cons_cons, String.toList_append,
          String.toList_append]
        rfl
      refine ⟨s, ?_, by simpa using hfinish⟩
      rw [htext]
      exact feed_append_eq_ok_iff.mpr ⟨_, feed_spelling_space hk done line, hfeed⟩

end Scanner

/-- The spellings of tokens that a source text can hold, with single spaces between them, are scanned
to these tokens, all on line one; and every token that scanning produces is one of these. -/
theorem scanning_undoes_spelling :
    (∀ ks : List Token.Kind, (∀ k ∈ ks, k.Lexable) →
      scan (" ".intercalate (ks.map spelling)) = .ok (ks.map fun k => ⟨k, 1⟩)) ∧
    ∀ source ts, scan source = .ok ts → ∀ t ∈ ts, t.kind.Lexable := by
  constructor
  · intro ks hks
    obtain ⟨s, hfeed, hfinish⟩ := Scanner.exists_feed_spellings hks [] 1
    exact scan_eq_ok_iff.mpr ⟨s, hfeed, hfinish⟩
  · intro source ts hscan
    exact lexable_of_scan hscan

/-- Keywords and words that begin with one, the largest literal, and operators that begin others or
a comment. -/
theorem scanning_undoes_spelling_of_prefixes :
    let ks : List Token.Kind := [.keyword .ifWord, .identifier "iffy", .identifier "_do",
      .keyword .doWord, .integer 9223372036854775807, .integer 0, .identifier "x0",
      .symbol .slash, .symbol .slash, .symbol (.binary (.arith .mul)), .symbol .plus,
      .symbol .increment, .symbol (.binary .assign), .symbol (.binary (.compare .eq))]
    let source := "if iffy _do do 9223372036854775807 0 x0 / / * + ++ = =="
    (∀ k ∈ ks, k.Lexable) ∧ scan source = .ok (ks.map fun k => ⟨k, 1⟩) ∧
      ∀ t ∈ ks.map fun k => (⟨k, 1⟩ : Token), t.kind.Lexable := by
  intro ks source
  have hks : ∀ k ∈ ks, k.Lexable := by decide
  have hsource : " ".intercalate (ks.map spelling) = source := by decide
  have hscan : scan source = .ok (ks.map fun k => ⟨k, 1⟩) :=
    hsource ▸ scanning_undoes_spelling.1 ks hks
  exact ⟨hks, hscan, scanning_undoes_spelling.2 source _ hscan⟩

end Imp32
