import Mathlib.Data.List.Induction
import Imp32.Proofs.TokenPlaces

/-!
# The lexical grammar

How a text is cut into tokens and gaps, stated on its own and without a scanner. At each place the
longest text that one of the rules matches is taken (`Longest`). A gap is a blank, a line end or a
comment; a line comment ends before its line does, and a block comment with the first `*/` after it
began, or else with the text.

`Lexes` leads from one place in a text to another, over whole gaps and tokens. Every text can be
read to its end, or up to a piece that is no token (`exists_lexes`); and it can be read to its end
in one way only (`Lexes.unique`).
-/

namespace Imp32

/-! ## Rules -/

/-- The texts that the rules for tokens match, and the marks that begin a comment. The characters
of words are those of `isWordStart_iff` and `isWordPart_iff`. -/
inductive Lexeme : List Char → Prop where
  /-- Digits. -/
  | number {text : List Char} (hne : text ≠ []) (h : ∀ c ∈ text, c.isDigit = true) : Lexeme text
  /-- A letter or underscore, and any number of letters, digits and underscores. -/
  | word {c : Char} {cs : List Char} (hc : isWordStart c = true) (hcs : cs.all isWordPart = true) :
      Lexeme (c :: cs)
  /-- A symbol. -/
  | symbol (sym : Symbol) : Lexeme sym.spelling.toList
  /-- What begins a line comment. -/
  | lineMark : Lexeme ['/', '/']
  /-- What begins a block comment. -/
  | blockMark : Lexeme ['/', '*']

/-- No rule matches more of the text from here on. -/
def Longest (text after : List Char) : Prop :=
  ∀ longer, longer <+: text ++ after → Lexeme longer → longer.length ≤ text.length

/-- The text is the token, if it stands before the text `after`. -/
structure Token.Kind.Fits (k : Token.Kind) (text after : List Char) : Prop where
  written : k.WrittenAs text
  lexable : k.Lexable
  longest : Longest text after

/-- The texts that leave no token, each with the text after it. The blanks are those of
`isBlank_iff`. -/
inductive Gap : List Char → List Char → Prop where
  /-- A character that separates tokens. -/
  | blank {c : Char} (h : isBlank c = true) (after : List Char) : Gap [c] after
  /-- The end of a line. -/
  | lineEnd (after : List Char) : Gap ['\n'] after
  /-- A comment up to the end of its line. -/
  | lineComment {inside after : List Char} (h : '\n' ∉ inside)
      (hend : ∀ c ∈ after.head?, c = '\n') : Gap ('/' :: '/' :: inside) after
  /-- A comment up to the first `*/` in it. -/
  | blockComment {inside : List Char} (h : ¬ ['*', '/'] <:+: inside ++ ['*'])
      (after : List Char) : Gap ('/' :: '*' :: inside ++ ['*', '/']) after
  /-- A comment that the text ends in. -/
  | openComment {inside : List Char} (h : ¬ ['*', '/'] <:+: inside) :
      Gap ('/' :: '*' :: inside) []

/-- The texts that are neither token nor gap, each with the text after it. -/
inductive NoToken : List Char → List Char → Prop where
  /-- A character that nothing begins with. -/
  | stray {c : Char} (hgap : (c == '\n' || isBlank c) = false) (h : ∀ more, ¬ Lexeme (c :: more))
      (after : List Char) : NoToken [c] after
  /-- Digits that are out of the range of a signed 64-bit word. -/
  | overflow {text after : List Char} (hne : text ≠ []) (hdigits : ∀ c ∈ text, c.isDigit = true)
      (hlarge : 0x8000000000000000 ≤ Nat.ofDigitChars 10 text 0) (hlong : Longest text after) :
      NoToken text after

/-- A token of a text, and all that stands before it. -/
structure Place where
  /-- The text before the first character of the token. -/
  before : List Char
  /-- The token. -/
  kind : Token.Kind
deriving DecidableEq, Repr

/-- Where the text `before` has been read and `rest` is left, reading on over gaps and tokens comes
to where `rest'` is left; the tokens stand at the given places. -/
inductive Lexes : (before rest : List Char) → List Place → (rest' : List Char) → Prop where
  /-- Nothing is read. -/
  | refl (before rest : List Char) : Lexes before rest [] rest
  /-- A gap, and what follows it. -/
  | gap {before text after rest' : List Char} {places : List Place} (hgap : Gap text after)
      (h : Lexes (before ++ text) after places rest') : Lexes before (text ++ after) places rest'
  /-- A token, and what follows it. -/
  | token {before text after rest' : List Char} {places : List Place} {k : Token.Kind}
      (hk : k.Fits text after) (h : Lexes (before ++ text) after places rest') :
      Lexes before (text ++ after) (⟨before, k⟩ :: places) rest'

/-! ## Pieces that the scanner is in the middle of -/

namespace Pending

/-- Read on its own, the text leaves the piece pending. -/
def Leaves (text : List Char) (p : Pending) : Prop :=
  ∃ c cs first, text = c :: cs ∧ (∀ line, start line c = .ok first) ∧
    cs.foldlM extend? first = some p

/-- The piece is not continued by what follows. -/
def StopsAt (p : Pending) (after : List Char) : Prop := ∀ c ∈ after.head?, p.extend? c = none

theorem Spells.leaves {text : List Char} {p : Pending} (h : Spells text p) : Leaves text p := by
  obtain ⟨c, cs, first, htext, -, hstart, hcs⟩ := h
  exact ⟨c, cs, first, htext, hstart, hcs⟩

theorem Leaves.ne_nil {text : List Char} {p : Pending} (h : Leaves text p) : text ≠ [] := by
  obtain ⟨c, cs, first, rfl, -, -⟩ := h
  simp

theorem Leaves.snoc {text : List Char} {p p' : Pending} {c : Char} (h : Leaves text p)
    (hc : p.extend? c = some p') : Leaves (text ++ [c]) p' := by
  obtain ⟨d, ds, first, rfl, hstart, hds⟩ := h
  refine ⟨d, ds ++ [c], first, rfl, hstart, ?_⟩
  rw [List.foldlM_append, hds]
  simpa using hc

theorem Leaves.eq_of_leaves {text : List Char} {p q : Pending} (h : Leaves text p)
    (h' : Leaves text q) : p = q := by
  obtain ⟨c, cs, first, rfl, hstart, hcs⟩ := h
  obtain ⟨_, _, first', heq, hstart', hcs'⟩ := h'
  cases heq
  cases (hstart 0).symm.trans (hstart' 0)
  exact Option.some.inj (hcs.symm.trans hcs')

/-- A text that reading goes on from is continued by the next character. -/
theorem Leaves.extend?_ne_none {text more : List Char} {p q : Pending} {c : Char}
    (h : Leaves text p) (h' : Leaves (text ++ c :: more) q) : p.extend? c ≠ none := by
  obtain ⟨d, ds, first, rfl, hstart, hds⟩ := h
  obtain ⟨_, _, first', heq, hstart', hds'⟩ := h'
  cases heq
  cases (hstart 0).symm.trans (hstart' 0)
  intro hnone
  have hall : (ds ++ c :: more).foldlM extend? first = some q := hds'
  rw [List.foldlM_append, hds] at hall
  simp [hnone] at hall

/-- At each place, reading stops after one text only. -/
theorem Leaves.eq_of_append {text after text' after' : List Char} {p p' : Pending}
    (h : Leaves text p) (hstop : p.StopsAt after) (h' : Leaves text' p')
    (hstop' : p'.StopsAt after') (heq : text ++ after = text' ++ after') :
    text = text' ∧ after = after' ∧ p = p' := by
  have hsame : text = text' ∧ after = after' := by
    rcases List.append_eq_append_iff.mp heq with ⟨more, rfl, rfl⟩ | ⟨more, rfl, rfl⟩
    · cases more with
      | nil => simp
      | cons c more => exact absurd (hstop c rfl) (h.extend?_ne_none h')
    · cases more with
      | nil => simp
      | cons c more => exact absurd (hstop' c rfl) (h'.extend?_ne_none h)
  obtain ⟨rfl, rfl⟩ := hsame
  exact ⟨rfl, rfl, h.eq_of_leaves h'⟩

/-- Reading goes on as long as it can. -/
theorem exists_stopsAt (p : Pending) (text : List Char) :
    ∃ more after q, text = more ++ after ∧ more.foldlM extend? p = some q ∧ q.StopsAt after := by
  induction text generalizing p with
  | nil => exact ⟨[], [], p, rfl, rfl, by simp [StopsAt]⟩
  | cons c text ih =>
    cases hc : p.extend? c with
    | none => exact ⟨[], c :: text, p, rfl, rfl, by simpa [StopsAt] using hc⟩
    | some p' =>
      obtain ⟨more, after, q, rfl, hmore, hstop⟩ := ih p'
      exact ⟨c :: more, after, q, rfl, by simp [hc, hmore], hstop⟩

theorem start_eq_ok_of_eq_ok {line : Nat} {c : Char} {p : Pending} (h : start line c = .ok p)
    (line' : Nat) : start line' c = .ok p := by
  unfold start at h ⊢
  split_ifs at h ⊢
  · exact h
  · exact h
  · exact h
  · split at h
    · exact h
    · cases h

/-! ## The texts of pending pieces -/

/-- What has been read of a piece that is pending. -/
def Covers : Pending → List Char → Prop
  | .nothing, text => (∃ c, text = [c] ∧ (c == '\n' || isBlank c) = true) ∨
      ∃ inside, text = '/' :: '*' :: inside ++ ['*', '/'] ∧ ¬ ['*', '/'] <:+: inside ++ ['*']
  | .lineComment, text => ∃ inside, text = '/' :: '/' :: inside ∧ '\n' ∉ inside
  | .blockComment starred, text => ∃ inside, text = '/' :: '*' :: inside ∧
      ¬ ['*', '/'] <:+: inside ∧ (starred = true ↔ ['*'] <:+ inside)
  | p, text => p.Reads text ∧ p.Formed

theorem covers_start {line : Nat} {c : Char} {p : Pending} (h : start line c = .ok p) :
    p.Covers [c] := by
  have hformed := formed_start h
  unfold start at h
  split at h
  · rename_i hc
    cases h
    exact .inl ⟨c, rfl, hc⟩
  · split at h
    · cases h
      exact ⟨rfl, hformed⟩
    · split at h
      · rename_i hdigit
        cases h
        exact ⟨⟨rfl, by simp, by simpa using hdigit⟩, hformed⟩
      · split at h
        · rename_i sym hsym
          cases h
          exact ⟨(Symbol.toList_spelling_of_ofChar? hsym).symm, hformed⟩
        · cases h

theorem star_suffix_snoc_iff {inside : List Char} {c : Char} :
    ['*'] <:+ inside ++ [c] ↔ c = '*' := by
  simp [List.singleton_suffix_iff_getLast?_eq_some]

/-- The comment goes on exactly if its `*/` is not complete. -/
theorem close_infix_snoc_iff {inside : List Char} {c : Char} :
    ['*', '/'] <:+: inside ++ [c] ↔ ['*', '/'] <:+: inside ∨ ['*'] <:+ inside ∧ c = '/' := by
  rw [List.infix_concat_iff, List.suffix_concat_iff, or_comm]
  refine or_congr Iff.rfl ⟨?_, ?_⟩
  · rintro (h | ⟨t, ht, hsuffix⟩)
    · cases h
    · have hsplit : ['*'] ++ ['/'] = t ++ [c] := ht
      obtain ⟨rfl, hc⟩ := List.append_inj' hsplit rfl
      exact ⟨hsuffix, (List.cons.inj hc).1.symm⟩
  · rintro ⟨hsuffix, rfl⟩
    exact .inr ⟨['*'], rfl, hsuffix⟩

theorem Covers.extend? {p p' : Pending} {text : List Char} {c : Char} (h : p.Covers text)
    (hc : p.extend? c = some p') : p'.Covers (text ++ [c]) := by
  cases p with
  | nothing => cases hc
  | word chars =>
    have hformed := h.2.extend? hc
    simp only [Pending.extend?] at hc
    split at hc
    · cases hc
      have htext : text = chars.reverse := h.1
      exact ⟨by rw [Reads, htext, List.reverse_cons], hformed⟩
    · cases hc
  | number digits =>
    have hformed := h.2.extend? hc
    simp only [Pending.extend?] at hc
    split at hc
    · rename_i hdigit
      cases hc
      obtain ⟨rfl, -, hdigits⟩ := h.1
      refine ⟨⟨by simp, by simp, ?_⟩, hformed⟩
      exact List.forall_mem_append.mpr ⟨hdigits, by simpa using hdigit⟩
    · cases hc
  | symbol sym =>
    have htext : text = sym.spelling.toList := h.1
    simp only [Pending.extend?] at hc
    split at hc
    · rename_i hslash
      cases hc
      exact ⟨[], by rw [htext, hslash.1, hslash.2]; rfl, by simp⟩
    · split at hc
      · rename_i hslash
        cases hc
        exact ⟨[], by rw [htext, hslash.1, hslash.2]; rfl, by simp, by simp⟩
      · obtain ⟨sym', hsym, rfl⟩ := Option.map_eq_some_iff.mp hc
        exact ⟨by rw [htext]; exact (Symbol.toList_spelling_of_extend? hsym).symm, trivial⟩
  | lineComment =>
    obtain ⟨inside, rfl, hline⟩ := h
    simp only [Pending.extend?] at hc
    split at hc
    · cases hc
    · rename_i hne
      cases hc
      refine ⟨inside ++ [c], rfl, ?_⟩
      simp only [beq_iff_eq] at hne
      simp [hline, Ne.symm hne]
  | blockComment starred =>
    obtain ⟨inside, rfl, hopen, hstar⟩ := h
    simp only [Pending.extend?] at hc
    split at hc
    · rename_i hclose
      cases hc
      simp only [Bool.and_eq_true, beq_iff_eq] at hclose
      obtain ⟨hstarred, rfl⟩ := hclose
      obtain ⟨inside, rfl⟩ := hstar.mp hstarred
      exact .inr ⟨inside, by simp, hopen⟩
    · rename_i hclose
      cases hc
      refine ⟨inside ++ [c], rfl, ?_, ?_⟩
      · rw [close_infix_snoc_iff]
        rintro (hinside | ⟨hsuffix, rfl⟩)
        · exact hopen hinside
        · exact hclose (by simp [hstar.mpr hsuffix])
      · rw [beq_iff_eq, star_suffix_snoc_iff]

theorem covers_of_foldlM {cs text : List Char} {p q : Pending} (hp : p.Covers text)
    (h : cs.foldlM extend? p = some q) : q.Covers (text ++ cs) := by
  induction cs generalizing p text with
  | nil =>
    cases h
    simpa using hp
  | cons c cs ih =>
    rw [List.foldlM_cons, Option.bind_eq_bind, Option.bind_eq_some_iff] at h
    obtain ⟨p', hc, h⟩ := h
    simpa using ih (hp.extend? hc) h

theorem Leaves.covers {text : List Char} {p : Pending} (h : Leaves text p) : p.Covers text := by
  obtain ⟨c, cs, first, rfl, hstart, hcs⟩ := h
  exact covers_of_foldlM (covers_start (hstart 0)) hcs

/-! ## Comments -/

theorem leaves_lineComment {inside : List Char} (h : '\n' ∉ inside) :
    Leaves ('/' :: '/' :: inside) .lineComment := by
  induction inside using List.reverseRecOn with
  | nil => exact ⟨'/', ['/'], .symbol .slash, rfl, fun _ => rfl, rfl⟩
  | append_singleton inside c ih =>
    simp only [List.mem_append, List.mem_singleton, not_or] at h
    refine (ih h.1).snoc ?_
    rw [extend?, if_neg (by simpa using Ne.symm h.2)]

theorem Leaves.starred_iff {inside : List Char} {starred : Bool}
    (h : Leaves ('/' :: '*' :: inside) (.blockComment starred)) :
    starred = true ↔ ['*'] <:+ inside := by
  obtain ⟨_, heq, -, hiff⟩ := h.covers
  cases heq
  exact hiff

theorem leaves_blockComment {inside : List Char} (h : ¬ ['*', '/'] <:+: inside) :
    ∃ starred, Leaves ('/' :: '*' :: inside) (.blockComment starred) := by
  induction inside using List.reverseRecOn with
  | nil => exact ⟨false, '/', ['*'], .symbol .slash, rfl, fun _ => rfl, rfl⟩
  | append_singleton inside c ih =>
    rw [close_infix_snoc_iff, not_or] at h
    obtain ⟨starred, hleaves⟩ := ih h.1
    have hopen : ¬ (starred && c == '/') = true := by
      simp only [Bool.and_eq_true, beq_iff_eq, hleaves.starred_iff]
      exact h.2
    exact ⟨c == '*', hleaves.snoc (by rw [extend?, if_neg hopen])⟩

theorem leaves_closedComment {inside : List Char} (h : ¬ ['*', '/'] <:+: inside ++ ['*']) :
    Leaves ('/' :: '*' :: inside ++ ['*', '/']) .nothing := by
  obtain ⟨starred, hleaves⟩ := leaves_blockComment h
  obtain rfl : starred = true := hleaves.starred_iff.mpr (List.suffix_append inside ['*'])
  have hclose : (Pending.blockComment true).extend? '/' = some .nothing := rfl
  simpa using hleaves.snoc hclose

end Pending

open Pending

/-! ## Gaps and tokens are read whole -/

/-- Nothing is left of a gap, and it is as long as it can be. -/
theorem Gap.leaves {text after : List Char} (h : Gap text after) :
    ∃ p, Leaves text p ∧ p.Silent ∧ p.StopsAt after := by
  cases h with
  | @blank c hc after =>
    have hstart (line : Nat) : start line c = .ok .nothing := by
      rw [start, if_pos (by simp [hc])]
    exact ⟨.nothing, ⟨c, [], .nothing, rfl, hstart, rfl⟩, fun _ => rfl, fun _ _ => rfl⟩
  | lineEnd after =>
    exact ⟨.nothing, ⟨'\n', [], .nothing, rfl, fun _ => rfl, rfl⟩, fun _ => rfl, fun _ _ => rfl⟩
  | lineComment h hend =>
    refine ⟨.lineComment, leaves_lineComment h, fun _ => rfl, fun c hc => ?_⟩
    rw [extend?, if_pos (by simp [hend c hc])]
  | blockComment h after =>
    exact ⟨.nothing, leaves_closedComment h, fun _ => rfl, fun _ _ => rfl⟩
  | openComment h =>
    obtain ⟨starred, hleaves⟩ := leaves_blockComment h
    exact ⟨.blockComment starred, hleaves, fun _ => rfl, by simp [StopsAt]⟩

theorem Lexeme.leaves {text : List Char} (h : Lexeme text) : ∃ p, Leaves text p := by
  cases h with
  | number hne hdigits =>
    obtain ⟨c, cs, rfl⟩ := List.exists_cons_of_ne_nil hne
    exact ⟨_, (spells_number hdigits).leaves⟩
  | word hc hcs => exact ⟨_, (spells_word hc hcs).leaves⟩
  | symbol sym => exact ⟨_, (spells_symbol sym).leaves⟩
  | lineMark => exact ⟨_, leaves_lineComment List.not_mem_nil⟩
  | blockMark =>
    have hopen : ¬ ['*', '/'] <:+: [] := by simp
    obtain ⟨starred, hleaves⟩ := leaves_blockComment hopen
    exact ⟨_, hleaves⟩

theorem Pending.Covers.lexeme {p : Pending} {text : List Char} (h : p.Covers text)
    (hreads : p.Reads text) : Lexeme text := by
  cases p with
  | word chars =>
    obtain ⟨rfl, c, cs, hrev, hc, hcs⟩ := h
    rw [hrev]
    exact .word hc hcs
  | number digits => exact .number hreads.2.1 hreads.2.2
  | symbol sym =>
    rw [show text = sym.spelling.toList from hreads]
    exact .symbol sym
  | nothing => exact hreads.elim
  | lineComment => exact hreads.elim
  | blockComment starred => exact hreads.elim

/-- A piece that may become a token grows by a character only into another lexeme. -/
theorem Pending.Leaves.lexeme_snoc {text : List Char} {p p' : Pending} {c : Char}
    (h : Leaves text p) (hreads : p.Reads text) (hc : p.extend? c = some p') :
    Lexeme (text ++ [c]) := by
  have hcovers := (h.snoc hc).covers
  cases p with
  | word chars =>
    simp only [extend?] at hc
    split at hc
    · cases hc
      exact hcovers.lexeme hcovers.1
    · cases hc
  | number digits =>
    simp only [extend?] at hc
    split at hc
    · cases hc
      exact hcovers.lexeme hcovers.1
    · cases hc
  | symbol sym =>
    have htext : text = sym.spelling.toList := hreads
    simp only [extend?] at hc
    split at hc
    · rename_i hslash
      rw [htext, hslash.1, hslash.2]
      exact .lineMark
    · split at hc
      · rename_i hslash
        rw [htext, hslash.1, hslash.2]
        exact .blockMark
      · obtain ⟨sym', -, rfl⟩ := Option.map_eq_some_iff.mp hc
        exact hcovers.lexeme hcovers.1
  | nothing => exact hreads.elim
  | lineComment => exact hreads.elim
  | blockComment starred => exact hreads.elim

/-- The text of a token is the longest exactly if the scanner stops after it. -/
theorem Pending.Leaves.longest_iff {text after : List Char} {p : Pending} (h : Leaves text p)
    (hreads : p.Reads text) : Longest text after ↔ p.StopsAt after := by
  constructor
  · intro hlong c hc
    obtain ⟨more, rfl⟩ := List.head?_eq_some_iff.mp hc
    by_contra hsome
    obtain ⟨p', hp'⟩ := Option.ne_none_iff_exists'.mp hsome
    have hle := hlong (text ++ [c]) ⟨more, by simp⟩ (h.lexeme_snoc hreads hp')
    rw [List.length_append, List.length_singleton] at hle
    omega
  · rintro hstop longer ⟨tail, htail⟩ hlexeme
    obtain ⟨q, hq⟩ := hlexeme.leaves
    rcases List.append_eq_append_iff.mp htail with ⟨more, rfl, -⟩ | ⟨more, rfl, rfl⟩
    · simp
    · cases more with
      | nil => simp
      | cons c more => exact absurd (hstop c rfl) (h.extend?_ne_none hq)

/-- No rule matches more than digits up to where no digit follows. -/
theorem longest_digits {digits after : List Char} (hne : digits ≠ [])
    (hdigits : ∀ c ∈ digits, c.isDigit = true) (hafter : ∀ c ∈ after.head?, c.isDigit = false) :
    Longest digits after := by
  obtain ⟨c, cs, rfl⟩ := List.exists_cons_of_ne_nil hne
  have hleaves := (spells_number hdigits).leaves
  have hstop : (Pending.number (c :: cs).reverse).StopsAt after := by
    intro d hd
    rw [extend?, if_neg (by simp [hafter d hd])]
  exact (hleaves.longest_iff ⟨by simp, hne, hdigits⟩).mpr hstop

/-- A token is read whole, and as far as it goes. -/
theorem Token.Kind.Fits.leaves {k : Token.Kind} {text after : List Char} (h : k.Fits text after) :
    ∃ p, Leaves text p ∧ (∀ line, p.kind? line = .ok (some k)) ∧ p.StopsAt after := by
  obtain ⟨p, hleaves, hreads, hkind⟩ :
      ∃ p, Leaves text p ∧ p.Reads text ∧ ∀ line, p.kind? line = .ok (some k) := by
    cases k with
    | integer n =>
      obtain ⟨hne, hdigits, rfl⟩ := h.written
      obtain ⟨c, cs, rfl⟩ := List.exists_cons_of_ne_nil hne
      obtain ⟨-, hlt⟩ := h.lexable
      have hrange : Nat.ofDigitChars 10 (c :: cs) 0 < 0x8000000000000000 := by omega
      refine ⟨_, (spells_number hdigits).leaves, ⟨by simp, hne, hdigits⟩, fun line => ?_⟩
      rw [kind?, List.reverse_reverse, if_pos hrange]
    | identifier name =>
      obtain rfl : text = name.toList := h.written
      exact ⟨_, (spells_ofKind h.lexable).leaves, by simp [ofKind, Reads], kind?_ofKind h.lexable⟩
    | keyword word =>
      obtain rfl : text = word.spelling.toList := h.written
      exact ⟨_, (spells_ofKind h.lexable).leaves, by simp [ofKind, Reads], kind?_ofKind h.lexable⟩
    | symbol sym =>
      obtain rfl : text = sym.spelling.toList := h.written
      exact ⟨_, (spells_symbol sym).leaves, rfl, fun _ => rfl⟩
    | trivia t => exact h.lexable.elim
  exact ⟨p, hleaves, hkind, (hleaves.longest_iff hreads).mp h.longest⟩

theorem Symbol.isSome_ofChar?_of_mem {sym : Symbol} {c : Char} (h : c ∈ sym.spelling.toList) :
    (Symbol.ofChar? c).isSome = true := by
  have hall : sym.spelling.toList.all (fun d => (Symbol.ofChar? d).isSome) = true := by
    cases sym with
    | binary op =>
      cases op with
      | arith op => cases op <;> decide
      | compare op => cases op <;> decide
      | logic op => cases op <;> decide
      | assign => decide
      | compound op => cases op <;> decide
    | _ => decide
  exact List.all_eq_true.mp hall c h

/-- A token, or the mark of a comment, consists of letters, digits and underscores alone, or else of
the characters of symbols. -/
theorem Lexeme.word_or_symbol {text : List Char} (h : Lexeme text) :
    (∀ c ∈ text, isWordPart c = true) ∨ ∀ c ∈ text, (Symbol.ofChar? c).isSome = true := by
  cases h with
  | number hne hdigits => exact .inl fun c hc => isWordPart_of_isDigit (hdigits c hc)
  | @word first rest hstart hrest =>
    left
    intro c hc
    rcases List.mem_cons.mp hc with rfl | hc
    · exact isWordPart_of_isWordStart hstart
    · exact List.all_eq_true.mp hrest c hc
  | symbol sym => exact .inr fun c hc => Symbol.isSome_ofChar?_of_mem hc
  | lineMark => exact .inr (List.all_eq_true.mp rfl)
  | blockMark => exact .inr (List.all_eq_true.mp rfl)

theorem Lexeme.separator_not_mem {text : List Char} (h : Lexeme text) {c : Char}
    (hc : (c == '\n' || isBlank c) = true) : c ∉ text := by
  intro hmem
  rcases h.word_or_symbol with hword | hsymbol
  · exact not_separator (hword c hmem) hc
  · have hall : ['\n', ' ', '\t', '\r', '\x0c'].all (fun d => (Symbol.ofChar? d).isNone) := by
      decide
    have hnone := List.all_eq_true.mp hall c (separator_iff.mp hc)
    have hsome := hsymbol c hmem
    rw [Option.isNone_iff_eq_none.mp hnone] at hsome
    cases hsome

theorem Lexeme.lineEnd_not_mem {text : List Char} (h : Lexeme text) : '\n' ∉ text :=
  h.separator_not_mem rfl

theorem Token.Kind.Fits.lexeme {k : Token.Kind} {text after : List Char} (h : k.Fits text after) :
    Lexeme text := by
  obtain ⟨p, hleaves, hkind, -⟩ := h.leaves
  have hcovers := hleaves.covers
  cases p with
  | word chars => exact hcovers.lexeme hcovers.1
  | number digits => exact hcovers.lexeme hcovers.1
  | symbol sym => exact hcovers.lexeme hcovers.1
  | nothing => cases hkind 0
  | lineComment => cases hkind 0
  | blockComment starred => cases hkind 0

/-! ## Every text is cut, and in one way -/

theorem Pending.Leaves.fits {text after : List Char} {p : Pending} {line : Nat} {k : Token.Kind}
    (h : Leaves text p) (hreads : p.Reads text) (hformed : p.Formed) (hstop : p.StopsAt after)
    (hkind : p.kind? line = .ok (some k)) : k.Fits text after where
  written := hreads.writtenAs hkind
  lexable := hformed.lexable hkind
  longest := (h.longest_iff hreads).mpr hstop

/-- What the scanner takes in one piece is a gap, or a token, or neither. -/
theorem Pending.Leaves.gap_or_fits {text after : List Char} {p : Pending} (h : Leaves text p)
    (hstop : p.StopsAt after) :
    Gap text after ∨ (∃ k : Token.Kind, k.Fits text after) ∨ NoToken text after := by
  have hcovers := h.covers
  cases p with
  | nothing =>
    left
    rcases hcovers with ⟨c, rfl, hc⟩ | ⟨inside, rfl, hopen⟩
    · rcases Bool.or_eq_true_iff.mp hc with hc | hc
      · rw [beq_iff_eq.mp hc]
        exact .lineEnd after
      · exact .blank hc after
    · exact .blockComment hopen after
  | lineComment =>
    left
    obtain ⟨inside, rfl, hline⟩ := hcovers
    refine .lineComment hline fun c hc => ?_
    by_contra hne
    have hnone := hstop c hc
    rw [extend?, if_neg (by simpa using hne)] at hnone
    cases hnone
  | blockComment starred =>
    left
    obtain ⟨inside, rfl, hopen, -⟩ := hcovers
    cases after with
    | nil => exact .openComment hopen
    | cons c after =>
      have hnone := hstop c rfl
      simp only [extend?] at hnone
      split at hnone <;> cases hnone
  | word chars =>
    have hkind : (Pending.word chars).kind? 0 = .ok (some (wordKind (.ofList chars.reverse))) := rfl
    exact .inr (.inl ⟨_, h.fits hcovers.1 hcovers.2 hstop hkind⟩)
  | symbol sym =>
    have hkind : (Pending.symbol sym).kind? 0 = .ok (some (.symbol sym)) := rfl
    exact .inr (.inl ⟨_, h.fits hcovers.1 hcovers.2 hstop hkind⟩)
  | number digits =>
    right
    have hlong := (h.longest_iff hcovers.1).mpr hstop
    obtain ⟨⟨rfl, hne, hdigits⟩, hformed⟩ := hcovers
    by_cases hrange : Nat.ofDigitChars 10 digits.reverse 0 < 0x8000000000000000
    · have hkind : (Pending.number digits).kind? 0 =
          .ok (some (.integer (Nat.ofDigitChars 10 digits.reverse 0))) := by
        rw [kind?, if_pos hrange]
      exact .inl ⟨_, h.fits ⟨rfl, hne, hdigits⟩ hformed hstop hkind⟩
    · exact .inr (.overflow hne hdigits (by omega) hlong)

theorem exists_piece {rest : List Char} (hne : rest ≠ []) :
    ∃ text after, rest = text ++ after ∧ text ≠ [] ∧
      (Gap text after ∨ (∃ k : Token.Kind, k.Fits text after) ∨ NoToken text after) := by
  obtain ⟨c, cs, rfl⟩ := List.exists_cons_of_ne_nil hne
  cases hstart : start 0 c with
  | error e =>
    have hgap : (c == '\n' || isBlank c) = false := by
      by_contra hsep
      rw [start, if_pos (eq_true_of_ne_false hsep)] at hstart
      cases hstart
    refine ⟨[c], cs, rfl, by simp, .inr (.inr (.stray hgap (fun more hlexeme => ?_) cs))⟩
    obtain ⟨p, _, _, first, heq, hfirst, -⟩ := hlexeme.leaves
    cases heq
    cases hstart.symm.trans (hfirst 0)
  | ok first =>
    obtain ⟨more, after, p, rfl, hmore, hstop⟩ := exists_stopsAt first cs
    have hleaves : Leaves (c :: more) p := ⟨c, more, first, rfl, start_eq_ok_of_eq_ok hstart, hmore⟩
    exact ⟨c :: more, after, rfl, by simp, hleaves.gap_or_fits hstop⟩

/-- From any place, a text can be read to its end or up to a piece that is no token. -/
theorem exists_lexes (before rest : List Char) :
    ∃ places rest', Lexes before rest places rest' ∧
      (rest' = [] ∨ ∃ text after, rest' = text ++ after ∧ NoToken text after) := by
  by_cases hne : rest = []
  · exact ⟨[], rest, .refl before rest, .inl hne⟩
  obtain ⟨text, after, rfl, htext, hpiece⟩ := exists_piece hne
  have hshorter : after.length < (text ++ after).length := by
    have hpos := List.length_pos_iff.mpr htext
    rw [List.length_append]
    omega
  rcases hpiece with hgap | ⟨k, hk⟩ | hbad
  · obtain ⟨places, rest', hlexes, hend⟩ := exists_lexes (before ++ text) after
    exact ⟨places, rest', .gap hgap hlexes, hend⟩
  · obtain ⟨places, rest', hlexes, hend⟩ := exists_lexes (before ++ text) after
    exact ⟨⟨before, k⟩ :: places, rest', .token hk hlexes, hend⟩
  · exact ⟨[], text ++ after, .refl before _, .inr ⟨text, after, rfl, hbad⟩⟩
termination_by rest.length

namespace Lexes

/-- A reading to the end takes the piece that is next. -/
theorem next {before text after : List Char} {places : List Place} {p : Pending}
    (h : Lexes before (text ++ after) places []) (hp : Leaves text p) (hstop : p.StopsAt after) :
    (p.Silent ∧ Lexes (before ++ text) after places []) ∨
      ∃ k places', (∀ line, p.kind? line = .ok (some k)) ∧ places = ⟨before, k⟩ :: places' ∧
        Lexes (before ++ text) after places' [] := by
  generalize hrest : text ++ after = rest at h
  cases h with
  | refl => exact absurd (List.append_eq_nil_iff.mp hrest).1 hp.ne_nil
  | gap hgap h =>
    obtain ⟨q, hq, hsilent, hstop'⟩ := hgap.leaves
    obtain ⟨rfl, rfl, rfl⟩ := hp.eq_of_append hstop hq hstop' hrest
    exact .inl ⟨hsilent, h⟩
  | token hk h =>
    obtain ⟨q, hq, hkind, hstop'⟩ := hk.leaves
    obtain ⟨rfl, rfl, rfl⟩ := hp.eq_of_append hstop hq hstop' hrest
    exact .inr ⟨_, _, hkind, rfl, h⟩

theorem places_eq_nil {before : List Char} {places : List Place} (h : Lexes before [] places []) :
    places = [] := by
  generalize hrest : [] = rest at h
  cases h with
  | refl => rfl
  | gap hgap h =>
    obtain ⟨p, hp, -⟩ := hgap.leaves
    exact absurd (List.append_eq_nil_iff.mp hrest.symm).1 hp.ne_nil
  | token hk h =>
    obtain ⟨p, hp, -⟩ := hk.leaves
    exact absurd (List.append_eq_nil_iff.mp hrest.symm).1 hp.ne_nil

/-- A text is cut into tokens and gaps in one way only. -/
theorem unique {before rest : List Char} {places places' : List Place}
    (h : Lexes before rest places []) (h' : Lexes before rest places' []) : places = places' := by
  generalize hend : [] = rest' at h
  induction h generalizing places' with
  | refl before rest =>
    subst hend
    exact h'.places_eq_nil.symm
  | gap hgap _ ih =>
    obtain ⟨p, hp, hsilent, hstop⟩ := hgap.leaves
    rcases h'.next hp hstop with ⟨-, h'⟩ | ⟨k, _, hkind, -, -⟩
    · exact ih h' hend
    · cases (hsilent 0).symm.trans (hkind 0)
  | token hk _ ih =>
    obtain ⟨p, hp, hkind, hstop⟩ := hk.leaves
    rcases h'.next hp hstop with ⟨hsilent, -⟩ | ⟨k, tail, hkind', rfl, htail⟩
    · cases (hsilent 0).symm.trans (hkind 0)
    · cases (hkind 0).symm.trans (hkind' 0)
      rw [ih htail hend]

end Lexes

end Imp32
