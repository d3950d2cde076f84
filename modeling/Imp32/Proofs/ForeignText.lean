import Mathlib.Algebra.Group.Nat.Defs
import Mathlib.Data.List.Basic
import Imp32.Proofs.Separation

/-!
# Text that is no token

When scanning fails, and with what. A piece of a text is foreign to the language if it is a
character outside of the alphabet, or a whole run of digits, not at the end of a word, that is out
of range for a signed 64-bit word. Scanning fails exactly if a foreign piece stands after a text
that scanning succeeds on and that does not end within a comment. There is at most one such piece:
it is the leftmost one (`scanning_fails_at_first_foreign_piece`).
-/

namespace Imp32

open Pending

/-! ## The alphabet -/

/-- The characters that symbols are made of. -/
def symbolChars : List Char :=
  ['+', '-', '*', '/', '&', '|', '^', '!', '~', '=', '<', '>', '(', ')', '\x7b', '\x7d', ';', ',']

/-- The characters that may stand outside of comments: the line end, the blanks (`isBlank_iff`), the
letters, digits and underscore (`isWordPart_iff`), and those of symbols. -/
def inAlphabet (c : Char) : Bool :=
  c == '\n' || isBlank c || isWordPart c || symbolChars.contains c

theorem Symbol.isSome_ofChar?_iff {c : Char} :
    (Symbol.ofChar? c).isSome = true ↔ c ∈ symbolChars := by
  constructor
  · intro h
    unfold Symbol.ofChar? at h
    split at h
    case h_19 => cases h
    all_goals decide
  · intro h
    have hall : symbolChars.all (fun d => (Symbol.ofChar? d).isSome) = true := by decide
    exact List.all_eq_true.mp hall c h

theorem not_isWordPart_of_mem_symbolChars {c : Char} (h : c ∈ symbolChars) :
    isWordPart c = false := by
  have hall : symbolChars.all (fun d => !isWordPart d) = true := by decide
  simpa using List.all_eq_true.mp hall c h

theorem Lexeme.inAlphabet {text : List Char} (h : Lexeme text) {c : Char} (hc : c ∈ text) :
    inAlphabet c = true := by
  rcases h.word_or_symbol with hword | hsymbol
  · simp [Imp32.inAlphabet, hword c hc]
  · have hmem : c ∈ symbolChars := Symbol.isSome_ofChar?_iff.mp (hsymbol c hc)
    simp [Imp32.inAlphabet, hmem]

/-- Each character of the alphabet is a gap or begins a token. -/
theorem exists_lexeme_of_inAlphabet {c : Char} (h : inAlphabet c = true)
    (hgap : (c == '\n' || isBlank c) = false) : ∃ more, Lexeme (c :: more) := by
  rw [inAlphabet, hgap, Bool.false_or, Bool.or_eq_true] at h
  refine ⟨[], ?_⟩
  rcases h with hword | hsymbol
  · by_cases hstart : isWordStart c = true
    · exact .word hstart rfl
    · have hdigit : c.isDigit = true := by
        simp only [isWordPart, isWordStart, Char.isAlphanum, Bool.or_eq_true] at hword hstart
        tauto
      exact .number (by simp) (by simpa using hdigit)
  · have hmem : c ∈ symbolChars := by simpa using hsymbol
    obtain ⟨sym, hsym⟩ := Option.isSome_iff_exists.mp (Symbol.isSome_ofChar?_iff.mpr hmem)
    rw [← Symbol.toList_spelling_of_ofChar? hsym]
    exact .symbol sym

/-! ## Foreign pieces -/

/-- Between the texts `before` and `after`, the text is foreign to the language. -/
inductive Foreign : (before text after : List Char) → Prop where
  /-- A character outside of the alphabet. -/
  | char {c : Char} (hc : inAlphabet c = false) (before after : List Char) :
      Foreign before [c] after
  /-- A run of digits that is out of range. No digit follows it, and it does not end a word. -/
  | number {before text after : List Char} (hne : text ≠ [])
      (hdigits : ∀ c ∈ text, c.isDigit = true)
      (hbefore : ∀ c ∈ before.getLast?, isWordPart c = false)
      (hafter : ∀ c ∈ after.head?, c.isDigit = false)
      (hlarge : 2 ^ 63 - 1 < Nat.ofDigitChars 10 text 0) : Foreign before text after

theorem Foreign.noToken {before text after : List Char} (h : Foreign before text after) :
    NoToken text after := by
  cases h with
  | @char c hc before after =>
    have hgap : (c == '\n' || isBlank c) = false := by
      by_contra hsep
      rw [inAlphabet, eq_true_of_ne_false hsep] at hc
      cases hc
    refine .stray hgap (fun more hlexeme => ?_) after
    rw [hlexeme.inAlphabet List.mem_cons_self] at hc
    cases hc
  | number hne hdigits hbefore hafter hlarge =>
    exact .overflow hne hdigits (by omega) (longest_digits hne hdigits hafter)

/-- A foreign piece ends no line, and continues no token that stands before it. -/
theorem Foreign.first {before text after : List Char} (h : Foreign before text after) :
    ∃ c more, text = c :: more ∧ c ≠ '\n' ∧
      ∀ last, last <:+ before → last ≠ [] → ¬ Lexeme (last ++ [c]) := by
  cases h with
  | @char c hc before after =>
    have hline : c ≠ '\n' := by
      rintro rfl
      cases hc
    refine ⟨c, [], rfl, hline, fun last _ _ hlexeme => ?_⟩
    rw [hlexeme.inAlphabet (by simp)] at hc
    cases hc
  | number hne hdigits hbefore hafter hlarge =>
    obtain ⟨c, cs, rfl⟩ := List.exists_cons_of_ne_nil hne
    have hline : c ≠ '\n' := by
      rintro rfl
      cases hdigits _ List.mem_cons_self
    refine ⟨c, cs, rfl, hline, fun last hsuffix hlast hlexeme => ?_⟩
    have hdigit : isWordPart c = true := isWordPart_of_isDigit (hdigits c List.mem_cons_self)
    have hmem : last.getLast hlast ∈ before.getLast? := by
      obtain ⟨init, rfl⟩ := hsuffix
      rw [List.getLast?_append_of_ne_nil init hlast, List.getLast?_eq_some_getLast hlast]
      rfl
    have hword : isWordPart (last.getLast hlast) = false := hbefore _ hmem
    rcases hlexeme.word_or_symbol with hall | hall
    · have hlastWord := hall (last.getLast hlast) (by simp)
      rw [hword] at hlastWord
      cases hlastWord
    · have hsymbol := Symbol.isSome_ofChar?_iff.mp (hall c (by simp))
      rw [not_isWordPart_of_mem_symbolChars hsymbol] at hdigit
      cases hdigit

/-- A digit goes on from a piece that ends in a letter, a digit or an underscore. -/
theorem Pending.Leaves.extend?_digit {text : List Char} {p : Pending} (h : Leaves text p)
    {c d : Char} (hc : c ∈ text.getLast?) (hword : isWordPart c = true) (hd : d.isDigit = true) :
    p.extend? d ≠ none := by
  have hcovers := h.covers
  cases p with
  | nothing =>
    rcases hcovers with ⟨sep, rfl, hsep⟩ | ⟨inside, rfl, -⟩
    · obtain rfl : sep = c := by simpa using hc
      exact absurd hsep (not_separator hword)
    · rw [List.getLast?_append_of_ne_nil _ (by simp)] at hc
      obtain rfl : '/' = c := by simpa using hc
      cases hword
  | lineComment =>
    have hline : d ≠ '\n' := by
      rintro rfl
      cases hd
    rw [extend?, if_neg (by simpa using hline)]
    simp
  | blockComment starred =>
    rw [extend?]
    split <;> simp
  | word chars =>
    rw [extend?, if_pos (isWordPart_of_isDigit hd)]
    simp
  | number digits =>
    rw [extend?, if_pos hd]
    simp
  | symbol sym =>
    have htext : text = sym.spelling.toList := hcovers.1
    have hmem : c ∈ sym.spelling.toList := htext ▸ List.mem_of_getLast? hc
    have hsymbol := Symbol.isSome_ofChar?_iff.mp (Symbol.isSome_ofChar?_of_mem hmem)
    rw [not_isWordPart_of_mem_symbolChars hsymbol] at hword
    cases hword

/-- What scanning cannot read on from a cut is foreign. -/
theorem NoToken.foreign {before text after : List Char} {ts : List Token}
    (h : NoToken text after) (hat : Scanner.At before (text ++ after) ts) :
    Foreign before text after := by
  cases h with
  | @stray c hgap hno after =>
    refine .char ?_ before after
    by_contra hin
    obtain ⟨more, hlexeme⟩ := exists_lexeme_of_inAlphabet (eq_true_of_ne_false hin) hgap
    exact hno more hlexeme
  | overflow hne hdigits hlarge hlong =>
    obtain ⟨d, ds, rfl⟩ := List.exists_cons_of_ne_nil hne
    refine .number hne hdigits ?_ ?_ (by omega)
    · intro c hc
      by_contra hword
      obtain ⟨s, hfeed, hfinish, hstop⟩ := hat
      have hbefore : before ≠ [] := by
        rintro rfl
        cases hc
      obtain ⟨places, last, -, ⟨init, rfl⟩, hlast⟩ :=
        Scanner.exists_last_piece hfeed hfinish hbefore
      rw [List.getLast?_append_of_ne_nil init hlast.ne_nil] at hc
      have hgoes := hlast.extend?_digit hc (eq_true_of_ne_false hword)
        (hdigits d List.mem_cons_self)
      exact hgoes (hstop d rfl)
    · intro c hc
      have hleaves := (spells_number hdigits).leaves
      have hstop := (hleaves.longest_iff ⟨by simp, hne, hdigits⟩).mp hlong c hc
      rw [extend?] at hstop
      by_contra hdigit
      rw [if_pos (eq_true_of_ne_false hdigit)] at hstop
      cases hstop

/-! ## The first foreign piece -/

/-- Scanning succeeds on the text, and the text does not end within a comment. -/
structure Complete (source : String) : Prop where
  scans : ∃ ts, scan source = .ok ts
  blockClosed : ¬ EndsInComment source.toList
  lineClosed : ¬ EndsInLineComment source.toList

/-- In the text there is a foreign piece, after a text that is complete. -/
structure FailsAt (source before piece after : String) : Prop where
  text : source = before ++ piece ++ after
  complete : Complete before
  foreign : Foreign before.toList piece.toList after.toList

/-- A cut before a foreign piece leaves no comment open. -/
theorem Scanner.At.complete {before : String} {text after : List Char} {ts : List Token}
    (h : At before.toList (text ++ after) ts) (hforeign : Foreign before.toList text after) :
    Complete before := by
  obtain ⟨s, hfeed, hfinish, hstop⟩ := h
  obtain ⟨c, more, rfl, hc, -⟩ := hforeign.first
  have hnone : s.pending.extend? c = none := hstop c rfl
  refine ⟨⟨ts, scan_eq_ok_iff.mpr ⟨s, hfeed, hfinish⟩⟩, ?_, ?_⟩
  · intro hopen
    obtain ⟨starred, hpending⟩ := hopen.pending
    rw [hfeed] at hpending
    have hsame : s.pending = .blockComment starred := Except.ok.inj hpending
    rw [hsame, extend?] at hnone
    split at hnone <;> cases hnone
  · intro hopen
    have hpending := hopen.pending
    rw [hfeed] at hpending
    have hsame : s.pending = .lineComment := Except.ok.inj hpending
    rw [hsame, extend?, if_neg (by simpa using hc)] at hnone
    cases hnone

theorem Complete.at {before : String} (h : Complete before) {text after : List Char}
    (hforeign : Foreign before.toList text after) :
    ∃ ts, Scanner.At before.toList (text ++ after) ts := by
  obtain ⟨ts, hscan⟩ := h.scans
  obtain ⟨c, more, rfl, -, hnone⟩ := hforeign.first
  refine ⟨ts, Scanner.at_of_scan hscan h.blockClosed ?_ hnone _⟩
  intro hopen
  exact absurd hopen h.lineClosed

theorem FailsAt.scan_eq {source before piece after : String}
    (h : FailsAt source before piece after) :
    scan source = .error ⟨piece, 1 + before.toList.count '\n'⟩ := by
  obtain ⟨ts, hat⟩ := h.complete.at h.foreign
  have hall := hat.noToken h.foreign.noToken
  rw [String.ofList_toList] at hall
  rw [Imp32.scan_eq, h.text, String.toList_append, String.toList_append]
  exact hall

theorem exists_failsAt {source : String} {e : Unrecognised} (h : scan source = .error e) :
    ∃ before after, FailsAt source before e.text after ∧
      e.line = 1 + before.toList.count '\n' := by
  obtain ⟨places, rest, hlexes, rfl | ⟨text, after, rfl, hbad⟩⟩ := exists_lexes [] source.toList
  · cases h.symm.trans (scan_of_lexes hlexes)
  · obtain ⟨before, heq, hat⟩ := hlexes.scanned (Scanner.at_nil _)
    have hforeign := hbad.foreign hat
    -- from here on, the parts of the text are strings
    obtain ⟨before, rfl⟩ : ∃ s : String, before = s.toList := ⟨.ofList before, by simp⟩
    obtain ⟨text, rfl⟩ : ∃ s : String, text = s.toList := ⟨.ofList text, by simp⟩
    obtain ⟨after, rfl⟩ : ∃ s : String, after = s.toList := ⟨.ofList after, by simp⟩
    have hsource : source = before ++ text ++ after := by
      rw [← String.toList_inj, String.toList_append, String.toList_append, List.append_assoc, heq,
        List.nil_append]
    have hfails : FailsAt source before text after := ⟨hsource, hat.complete hforeign, hforeign⟩
    cases h.symm.trans hfails.scan_eq
    exact ⟨before, after, hfails, rfl⟩

/-! ## There is one such piece -/

theorem Foreign.of_append {before text after more : List Char}
    (h : Foreign before text (after ++ more)) : Foreign before text after := by
  cases h with
  | char hc => exact .char hc before after
  | number hne hdigits hbefore hafter hlarge =>
    refine .number hne hdigits hbefore ?_ hlarge
    intro c hc
    obtain ⟨cs, rfl⟩ := List.head?_eq_some_iff.mp hc
    exact hafter c rfl

/-- A foreign piece of more than one character is a number, and no part of it stands before it. -/
theorem Foreign.not_split {before first last after : List Char} (hfirst : first ≠ [])
    (hlast : last ≠ []) (h : Foreign (before ++ first) (first ++ last) after) : False := by
  generalize hparts : first ++ last = text at h
  cases h with
  | char hc =>
    have hlen := congrArg List.length hparts
    have hpos := List.length_pos_iff.mpr hfirst
    have hpos' := List.length_pos_iff.mpr hlast
    rw [List.length_append, List.length_singleton] at hlen
    omega
  | number hne hdigits hbefore hafter hlarge =>
    subst hparts
    have hmem : first.getLast hfirst ∈ (before ++ first).getLast? := by
      rw [List.getLast?_append_of_ne_nil before hfirst, List.getLast?_eq_some_getLast hfirst]
      rfl
    have hdigit := hdigits (first.getLast hfirst) (by simp)
    have hword := hbefore _ hmem
    rw [isWordPart_of_isDigit hdigit] at hword
    cases hword

/-- Scanning comes to no piece behind the first. -/
theorem FailsAt.eq_empty_of_append {source before more piece after after' : String}
    (h : FailsAt source before piece after) (h' : FailsAt source (before ++ more) piece after') :
    more = "" := by
  by_contra hmore
  have hne : more.toList ≠ [] := by simpa using hmore
  have heq : more.toList ++ (piece.toList ++ after'.toList) = piece.toList ++ after.toList := by
    have htext := congrArg String.toList (h'.text.symm.trans h.text)
    simpa using htext
  have hbehind : ∃ rest rest', more.toList = piece.toList ++ rest ∧
      after.toList = rest ++ rest' := by
    rcases List.append_eq_append_iff.mp heq with ⟨rest, hpiece, hafter⟩ | ⟨rest, hmore, hafter⟩
    · have hrest : rest = [] := by
        by_contra hrest
        have hforeign := h'.foreign
        rw [String.toList_append, hpiece] at hforeign
        exact Foreign.not_split hne hrest hforeign
      subst hrest
      exact ⟨[], after.toList, by rw [hpiece, List.append_nil, List.append_nil], rfl⟩
    · exact ⟨rest, _, hmore, hafter⟩
  obtain ⟨rest, rest', hparts, hafter⟩ := hbehind
  -- so scanning fails on the text before the second piece
  have hforeign : Foreign before.toList piece.toList rest := by
    have hlonger := h.foreign
    rw [hafter] at hlonger
    exact hlonger.of_append
  have hfails : FailsAt (before ++ more) before piece (.ofList rest) := by
    refine ⟨?_, h.complete, by rwa [String.toList_ofList]⟩
    rw [← String.toList_inj]
    simp [hparts]
  obtain ⟨ts, hscan⟩ := h'.complete.scans
  cases hscan.symm.trans hfails.scan_eq

theorem FailsAt.unique {source before piece after before' piece' after' : String}
    (h : FailsAt source before piece after) (h' : FailsAt source before' piece' after') :
    before = before' ∧ piece = piece' := by
  have herror := h.scan_eq.symm.trans h'.scan_eq
  simp only [Except.error.injEq, Unrecognised.mk.injEq] at herror
  obtain ⟨rfl, -⟩ := herror
  refine ⟨?_, rfl⟩
  have heq : before.toList ++ (piece.toList ++ after.toList) =
      before'.toList ++ (piece.toList ++ after'.toList) := by
    have htext := congrArg String.toList (h.text.symm.trans h'.text)
    simpa using htext
  rcases List.append_eq_append_iff.mp heq with ⟨more, hmore, -⟩ | ⟨more, hmore, -⟩
  · obtain rfl : before' = before ++ .ofList more := by
      rw [← String.toList_inj]
      simp [hmore]
    rw [h.eq_empty_of_append h', String.append_empty]
  · obtain rfl : before = before' ++ .ofList more := by
      rw [← String.toList_inj]
      simp [hmore]
    rw [h'.eq_empty_of_append h, String.append_empty]

/-- Scanning fails exactly if there is a foreign piece after a text that is complete, and with that
piece and its line. It is the only one: behind it, no text is complete. -/
theorem scanning_fails_at_first_foreign_piece (source : String) :
    (∀ e, scan source = .error e ↔ ∃ before after, FailsAt source before e.text after ∧
      e.line = 1 + before.toList.count '\n') ∧
    ∀ before piece after before' piece' after', FailsAt source before piece after →
      FailsAt source before' piece' after' → before = before' ∧ piece = piece' := by
  refine ⟨fun e => ⟨exists_failsAt, ?_⟩, fun _ _ _ _ _ _ h h' => h.unique h'⟩
  rintro ⟨before, after, h, hline⟩
  rw [h.scan_eq, ← hline]

/-- A number that is out of range, with a stray character in a comment before it and another one
behind it. Digits at the end of a word are no number, and zeros put none out of range. -/
theorem scanning_fails_at_first_foreign_piece_after_comment :
    let source := "x9223372036854775808 /* $\n*/ 0009223372036854775807*9223372036854775808y $"
    ∃ before after, FailsAt source before "9223372036854775808" after ∧
      2 = 1 + before.toList.count '\n' ∧
      ∀ before' piece after', FailsAt source before' piece after' → before' = before := by
  intro source
  have hscan : scan source = .error ⟨"9223372036854775808", 2⟩ := by decide +kernel
  have hfails := scanning_fails_at_first_foreign_piece source
  obtain ⟨before, after, hat, hline⟩ := (hfails.1 _).mp hscan
  exact ⟨before, after, hat, hline, fun before' piece after' hat' =>
    (hfails.2 before' piece after' before _ after hat' hat).1⟩

end Imp32
