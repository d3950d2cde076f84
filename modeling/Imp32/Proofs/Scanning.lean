import Imp32.Token.Scanner

/-!
# Scanning

What one character does to the scanner, and what a whole text does. The tokens that scanning can
produce are the lexable ones (`Token.Kind.Lexable`); and the spelling of a lexable token, read after
a piece that it does not continue, is scanned as that token.
-/

namespace Imp32

/-! ## Lexable tokens -/

/-- The word can be the name of a variable: it is a letter or underscore (`isWordStart_iff`), then
any number of letters, digits and underscores (`isWordPart_iff`), and no keyword. -/
def isName (name : String) : Bool :=
  match name.toList with
  | [] => false
  | c :: cs => isWordStart c && cs.all isWordPart && (Keyword.ofWord? name).isNone

/-- The tokens that a source text can hold. -/
def Token.Kind.Lexable : Token.Kind → Prop
  | .integer n => 0 ≤ n ∧ n < 0x8000000000000000
  | .identifier name => isName name = true
  | .keyword _ | .symbol _ => True
  | .trivia _ => False

theorem isName_iff {name : String} :
    isName name = true ↔ ∃ c cs, name.toList = c :: cs ∧ isWordStart c = true ∧
      cs.all isWordPart = true ∧ Keyword.ofWord? name = none := by
  unfold isName
  cases name.toList with
  | nil => simp
  | cons c cs => simp [and_assoc]

theorem isWordPart_of_isWordStart {c : Char} (h : isWordStart c = true) : isWordPart c = true := by
  rcases isWordStart_iff.mp h with hupper | hlower | hunderscore
  · exact isWordPart_iff.mpr (.inl hupper)
  · exact isWordPart_iff.mpr (.inr (.inl hlower))
  · exact isWordPart_iff.mpr (.inr (.inr (.inr hunderscore)))

theorem isWordPart_of_isDigit {c : Char} (h : c.isDigit = true) : isWordPart c = true :=
  isWordPart_iff.mpr (.inr (.inr (.inl (isDigit_iff.mp h))))

theorem not_isWordStart {c : Char} (h : c.isDigit = true) : ¬ isWordStart c = true := by
  intro hc
  -- every digit lies below every character that begins a word
  obtain ⟨-, hdigit⟩ := isDigit_iff.mp h
  rcases isWordStart_iff.mp hc with ⟨hupper, -⟩ | ⟨hlower, -⟩ | rfl
  · exact absurd (Char.le_trans hupper hdigit) (by decide)
  · exact absurd (Char.le_trans hlower hdigit) (by decide)
  · exact absurd hdigit (by decide)

theorem isWordPart_of_isName {name : String} (h : isName name = true) {c : Char}
    (hc : c ∈ name.toList) : isWordPart c = true := by
  obtain ⟨first, rest, hname, hfirst, hrest, -⟩ := isName_iff.mp h
  rw [hname] at hc
  rcases List.mem_cons.mp hc with rfl | hc
  · exact isWordPart_of_isWordStart hfirst
  · exact List.all_eq_true.mp hrest c hc

/-- The characters that separate tokens are the line end and the four blanks. -/
theorem separator_iff {c : Char} :
    (c == '\n' || isBlank c) = true ↔ c ∈ ['\n', ' ', '\t', '\r', '\x0c'] := by
  rw [Bool.or_eq_true, beq_iff_eq, isBlank_iff]
  exact List.mem_cons.symm

/-- No character that separates tokens belongs to a word. -/
theorem not_separator {c : Char} (h : isWordPart c = true) : ¬ (c == '\n' || isBlank c) = true := by
  intro hc
  have hall : ['\n', ' ', '\t', '\r', '\x0c'].all (fun d => !isWordPart d) = true := by decide
  have hnot := List.all_eq_true.mp hall c (separator_iff.mp hc)
  rw [h] at hnot
  cases hnot

/-- The characters of words stand for themselves between quotes. -/
theorem quotedChar_of_isWordPart {c : Char} (h : isWordPart c = true) :
    quotedChar c = c.toString := by
  have hlow : ' ' ≤ c := by
    rcases isWordPart_iff.mp h with ⟨hupper, -⟩ | ⟨hlower, -⟩ | ⟨hdigit, -⟩ | rfl
    · exact Char.le_trans (by decide) hupper
    · exact Char.le_trans (by decide) hlower
    · exact Char.le_trans (by decide) hdigit
    · decide
  unfold quotedChar
  split
  case h_7 =>
    refine if_neg ?_
    rintro (hlt | rfl)
    · exact Char.not_lt.mpr hlow hlt
    · cases h
  all_goals cases h

/-- The name of a variable stands for itself between quotes. -/
theorem Token.Kind.describe_of_isName {name : String} (h : isName name = true) :
    (Token.Kind.identifier name).describe = "Identifier(\"" ++ name ++ "\")" := by
  have hchars : name.toList.map quotedChar = name.toList.map Char.toString :=
    List.map_congr_left fun c hc => quotedChar_of_isWordPart (isWordPart_of_isName h hc)
  have hjoin : String.join (name.toList.map Char.toString) = name := by
    rw [← String.toList_inj, String.toList_join, List.flatMap_map]
    simp
  rw [describe, quoted, hchars, hjoin]
  calc "Identifier(" ++ ("\"" ++ name ++ "\"") ++ ")"
      _ = ("Identifier(" ++ "\"") ++ name ++ ("\"" ++ ")") := by simp only [String.append_assoc]
      _ = "Identifier(\"" ++ name ++ "\")" := rfl

namespace Scanner

/-! ## Reading a character -/

/-- The line after a character. -/
def nextLine (s : Scanner) (c : Char) : Nat := if c == '\n' then s.line + 1 else s.line

/-- The complete tokens if a pending piece ends here and is the given token, or none. -/
def doneWith (s : Scanner) (kind : Option Token.Kind) : List Token :=
  (kind.map fun k => ⟨k, s.line⟩).toList ++ s.done

theorem flush_eq_ok_iff {s s' : Scanner} :
    s.flush = .ok s' ↔ ∃ kind, s.pending.kind? s.line = .ok kind ∧
      s' = { s with done := s.doneWith kind, pending := .nothing } := by
  unfold flush
  cases hk : s.pending.kind? s.line with
  | error e => simp [bind, Except.bind]
  | ok kind =>
    cases kind with
    | none => simp [bind, Except.bind, pure, Except.pure, doneWith, eq_comm]
    | some k => simp [bind, Except.bind, pure, Except.pure, doneWith, eq_comm]

/-- A character continues the pending piece, or ends it and begins another. -/
theorem step_eq_ok_iff {s s' : Scanner} {c : Char} :
    s.step c = .ok s' ↔
      (∃ pending, s.pending.extend? c = some pending ∧ s' = ⟨s.done, s.nextLine c, pending⟩) ∨
      (∃ kind pending, s.pending.extend? c = none ∧ s.pending.kind? s.line = .ok kind ∧
        Pending.start s.line c = .ok pending ∧ s' = ⟨s.doneWith kind, s.nextLine c, pending⟩) := by
  unfold step
  cases hext : s.pending.extend? c with
  | some pending =>
    constructor
    · intro h
      cases h
      exact .inl ⟨pending, rfl, rfl⟩
    · rintro (⟨_, ⟨⟩, rfl⟩ | ⟨_, _, ⟨⟩, -⟩)
      rfl
  | none =>
    cases hk : s.pending.kind? s.line with
    | error e => simp [bind, Except.bind, flush, hk]
    | ok kind =>
      have hflush := flush_eq_ok_iff.mpr ⟨kind, hk, rfl⟩
      cases hp : Pending.start s.line c with
      | error e => simp [bind, Except.bind, hflush, hp]
      | ok pending =>
        simp only [bind, Except.bind, hflush, hp]
        constructor
        · intro h
          cases h
          exact .inr ⟨kind, pending, trivial, rfl, rfl, rfl⟩
        · rintro (⟨_, ⟨⟩, -⟩ | ⟨_, _, -, ⟨⟩, ⟨⟩, rfl⟩)
          rfl

theorem feed_nil (s : Scanner) : s.feed [] = .ok s := rfl

theorem feed_cons (s : Scanner) (c : Char) (text : List Char) :
    s.feed (c :: text) = s.step c >>= fun s => s.feed text :=
  rfl

theorem feed_cons_eq_ok_iff {s s' : Scanner} {c : Char} {text : List Char} :
    s.feed (c :: text) = .ok s' ↔ ∃ mid, s.step c = .ok mid ∧ mid.feed text = .ok s' := by
  rw [feed_cons]
  cases s.step c with
  | error e => simp [bind, Except.bind]
  | ok mid => simp [bind, Except.bind]

theorem feed_append_eq_ok_iff {s s' : Scanner} {a b : List Char} :
    s.feed (a ++ b) = .ok s' ↔ ∃ mid, s.feed a = .ok mid ∧ mid.feed b = .ok s' := by
  rw [feed_append]
  cases s.feed a with
  | error e => simp [bind, Except.bind]
  | ok mid => simp [bind, Except.bind]

/-- What every character preserves, every text preserves. -/
theorem feed_invariant {I : Scanner → Prop} (hstep : ∀ s c s', I s → s.step c = .ok s' → I s')
    {text : List Char} {s s' : Scanner} (hs : I s) (h : s.feed text = .ok s') : I s' := by
  induction text generalizing s with
  | nil =>
    cases h
    exact hs
  | cons c text ih =>
    obtain ⟨mid, hmid, h⟩ := feed_cons_eq_ok_iff.mp h
    exact ih (hstep s c mid hs hmid) h

theorem finish_eq_ok_iff {s : Scanner} {ts : List Token} :
    s.finish = .ok ts ↔ ∃ kind, s.pending.kind? s.line = .ok kind ∧
      ts = (s.doneWith kind).reverse := by
  unfold finish
  cases hk : s.pending.kind? s.line with
  | error e => simp [bind, Except.bind, flush, hk]
  | ok kind =>
    have hflush := flush_eq_ok_iff.mpr ⟨kind, hk, rfl⟩
    simp [bind, Except.bind, pure, Except.pure, hflush, eq_comm]

end Scanner

theorem scan_eq_ok_iff {source : String} {ts : List Token} :
    scan source = .ok ts ↔ ∃ s, Scanner.feed {} source.toList = .ok s ∧ s.finish = .ok ts := by
  unfold scan
  cases Scanner.feed {} source.toList with
  | error e => simp [bind, Except.bind]
  | ok s => simp [bind, Except.bind]

/-! ## What scanning produces -/

/-- A pending word has the form of a word. -/
def Pending.Formed : Pending → Prop
  | .word chars => ∃ c cs, chars.reverse = c :: cs ∧ isWordStart c = true ∧
      cs.all isWordPart = true
  | _ => True

theorem Pending.Formed.extend? {p p' : Pending} {c : Char} (hp : p.Formed)
    (h : p.extend? c = some p') : p'.Formed := by
  cases p with
  | word chars =>
    simp only [Pending.extend?] at h
    split at h
    · rename_i hc
      cases h
      obtain ⟨d, ds, hrev, hd, hds⟩ := hp
      exact ⟨d, ds ++ [c], by simp [hrev], hd, by simp [hds, hc]⟩
    · cases h
  | nothing => cases h
  | number digits =>
    simp only [Pending.extend?] at h
    split at h <;> cases h
    trivial
  | symbol sym =>
    simp only [Pending.extend?] at h
    split at h
    · cases h
      trivial
    · split at h
      · cases h
        trivial
      · obtain ⟨sym', -, rfl⟩ := Option.map_eq_some_iff.mp h
        trivial
  | lineComment =>
    simp only [Pending.extend?] at h
    split at h <;> cases h
    trivial
  | blockComment starred =>
    simp only [Pending.extend?] at h
    split at h <;> cases h <;> trivial

theorem Pending.formed_start {line : Nat} {c : Char} {p : Pending}
    (h : Pending.start line c = .ok p) : p.Formed := by
  unfold Pending.start at h
  split at h
  · cases h
    trivial
  · split at h
    · rename_i hc
      cases h
      exact ⟨c, [], rfl, hc, rfl⟩
    · split at h
      · cases h
        trivial
      · split at h <;> cases h
        trivial

theorem Pending.Formed.lexable {p : Pending} {line : Nat} {k : Token.Kind} (hp : p.Formed)
    (h : p.kind? line = .ok (some k)) : k.Lexable := by
  cases p with
  | word chars =>
    simp only [Pending.kind?, Except.ok.injEq, Option.some.injEq] at h
    subst h
    unfold Pending.wordKind
    split
    · trivial
    · rename_i hword
      obtain ⟨c, cs, hrev, hc, hcs⟩ := hp
      exact isName_iff.mpr ⟨c, cs, by rw [String.toList_ofList, hrev], hc, hcs, hword⟩
  | number digits =>
    simp only [Pending.kind?] at h
    split at h
    · rename_i hlt
      cases h
      exact ⟨Int.natCast_nonneg _, by omega⟩
    · cases h
  | symbol sym =>
    simp only [Pending.kind?, Except.ok.injEq, Option.some.injEq] at h
    subst h
    trivial
  | nothing => cases h
  | lineComment => cases h
  | blockComment starred => cases h

namespace Scanner

/-- The complete tokens are lexable, and so is the pending piece if it ends. -/
def Sound (s : Scanner) : Prop := (∀ t ∈ s.done, t.kind.Lexable) ∧ s.pending.Formed

theorem Sound.doneWith {s : Scanner} (hs : s.Sound) {kind : Option Token.Kind}
    (h : s.pending.kind? s.line = .ok kind) : ∀ t ∈ s.doneWith kind, t.kind.Lexable := by
  intro t ht
  cases kind with
  | none => exact hs.1 t (by simpa [Scanner.doneWith] using ht)
  | some k =>
    rcases List.mem_cons.mp (by simpa [Scanner.doneWith] using ht) with rfl | ht
    · exact hs.2.lexable h
    · exact hs.1 t ht

theorem Sound.step {s s' : Scanner} {c : Char} (hs : s.Sound) (h : s.step c = .ok s') :
    s'.Sound := by
  rcases step_eq_ok_iff.mp h with ⟨p, hext, rfl⟩ | ⟨kind, p, -, hkind, hstart, rfl⟩
  · exact ⟨hs.1, hs.2.extend? hext⟩
  · exact ⟨hs.doneWith hkind, Pending.formed_start hstart⟩

end Scanner

/-- Scanning produces lexable tokens only. -/
theorem lexable_of_scan {source : String} {ts : List Token} (h : scan source = .ok ts) :
    ∀ t ∈ ts, t.kind.Lexable := by
  obtain ⟨s, hfeed, hfinish⟩ := scan_eq_ok_iff.mp h
  obtain ⟨kind, hkind, rfl⟩ := Scanner.finish_eq_ok_iff.mp hfinish
  have hs : s.Sound := by
    refine Scanner.feed_invariant (fun _ _ _ hs hstep => hs.step hstep) ?_ hfeed
    exact ⟨by simp, trivial⟩
  intro t ht
  exact hs.doneWith hkind t (List.mem_reverse.mp ht)

/-! ## Spelling tokens -/

namespace Pending

/-- The piece that is pending after the spelling of a token. -/
def ofKind : Token.Kind → Pending
  | .integer n => .number n.repr.toList.reverse
  | .identifier name => .word name.toList.reverse
  | .keyword k => .word k.spelling.toList.reverse
  | .symbol sym => .symbol sym
  | .trivia _ => .nothing

/-- The spelling of a token, ended, is that token. -/
theorem kind?_ofKind {k : Token.Kind} (h : k.Lexable) (line : Nat) :
    (ofKind k).kind? line = .ok (some k) := by
  cases k with
  | integer n =>
    obtain ⟨hpos, hlt⟩ := h
    obtain ⟨m, rfl⟩ := Int.eq_ofNat_of_zero_le hpos
    have hm : m < 0x8000000000000000 := by omega
    simp only [ofKind, kind?, List.reverse_reverse, Int.repr, Nat.toList_repr,
      Nat.ofDigitChars_ten_toDigits]
    rw [if_pos hm]
  | identifier name =>
    obtain ⟨_, _, -, -, -, hword⟩ := isName_iff.mp h
    simp [ofKind, kind?, wordKind, hword]
  | keyword k =>
    have hk : Keyword.ofWord? k.spelling = some k := Keyword.ofWord?_eq_some_iff.mpr rfl
    simp [ofKind, kind?, wordKind, hk]
  | symbol sym => rfl
  | trivia part => exact h.elim

/-- The text begins a piece and continues it to a pending one, on one line. -/
def Spells (text : List Char) (p : Pending) : Prop :=
  ∃ c cs first, text = c :: cs ∧ '\n' ∉ text ∧ (∀ line, start line c = .ok first) ∧
    cs.foldlM extend? first = some p

theorem foldlM_extend?_word {cs : List Char} (h : cs.all isWordPart = true) (chars : List Char) :
    cs.foldlM extend? (.word chars) = some (.word (cs.reverse ++ chars)) := by
  induction cs generalizing chars with
  | nil => rfl
  | cons c cs ih =>
    simp only [List.all_cons, Bool.and_eq_true] at h
    simp [extend?, h.1, ih h.2]

theorem foldlM_extend?_number {cs : List Char} (h : ∀ c ∈ cs, c.isDigit = true)
    (digits : List Char) :
    cs.foldlM extend? (.number digits) = some (.number (cs.reverse ++ digits)) := by
  induction cs generalizing digits with
  | nil => rfl
  | cons c cs ih =>
    simp [extend?, h c List.mem_cons_self, ih fun d hd => h d (List.mem_cons_of_mem c hd)]

theorem spells_word {c : Char} {cs : List Char} (hc : isWordStart c = true)
    (hcs : cs.all isWordPart = true) : Spells (c :: cs) (.word (c :: cs).reverse) := by
  refine ⟨c, cs, .word [c], rfl, ?_, fun line => ?_, by simp [foldlM_extend?_word hcs]⟩
  · intro hmem
    rcases List.mem_cons.mp hmem with rfl | hmem
    · exact absurd hc (by decide)
    · exact absurd (List.all_eq_true.mp hcs _ hmem) (by decide)
  · rw [start, if_neg (not_separator (isWordPart_of_isWordStart hc)), if_pos hc]

theorem spells_number {c : Char} {cs : List Char} (h : ∀ d ∈ c :: cs, d.isDigit = true) :
    Spells (c :: cs) (.number (c :: cs).reverse) := by
  have hc := h c List.mem_cons_self
  refine ⟨c, cs, .number [c], rfl, ?_, fun line => ?_, ?_⟩
  · intro hmem
    exact absurd (h _ hmem) (by decide)
  · rw [start, if_neg (not_separator (isWordPart_of_isDigit hc)), if_neg (not_isWordStart hc),
      if_pos hc]
  · simp [foldlM_extend?_number fun d hd => h d (List.mem_cons_of_mem c hd)]

theorem spells_symbol (sym : Symbol) : Spells sym.spelling.toList (.symbol sym) := by
  cases sym with
  | binary op =>
    cases op with
    | arith op => cases op <;> exact ⟨_, _, _, rfl, by decide, fun _ => rfl, rfl⟩
    | compare op => cases op <;> exact ⟨_, _, _, rfl, by decide, fun _ => rfl, rfl⟩
    | logic op => cases op <;> exact ⟨_, _, _, rfl, by decide, fun _ => rfl, rfl⟩
    | assign => exact ⟨_, _, _, rfl, by decide, fun _ => rfl, rfl⟩
    | compound op => cases op <;> exact ⟨_, _, _, rfl, by decide, fun _ => rfl, rfl⟩
  | _ => exact ⟨_, _, _, rfl, by decide, fun _ => rfl, rfl⟩

theorem spells_ofKind {k : Token.Kind} (h : k.Lexable) : Spells k.spelling.toList (ofKind k) := by
  cases k with
  | integer n =>
    obtain ⟨m, rfl⟩ := Int.eq_ofNat_of_zero_le h.1
    have hdigits : ∀ d ∈ Nat.toDigits 10 m, d.isDigit = true := fun d hd =>
      Nat.isDigit_of_mem_toDigits (by decide) (by decide) hd
    simp only [Token.Kind.spelling, ofKind, Int.repr, Nat.toList_repr]
    cases hm : Nat.toDigits 10 m with
    | nil => exact absurd hm Nat.toDigits_ne_nil
    | cons c cs => exact spells_number (hm ▸ hdigits)
  | identifier name =>
    obtain ⟨c, cs, hname, hc, hcs, -⟩ := isName_iff.mp h
    simp only [Token.Kind.spelling, ofKind, hname]
    exact spells_word hc hcs
  | keyword k => cases k <;> exact spells_word (by decide) (by decide)
  | symbol sym => exact spells_symbol sym
  | trivia part => exact h.elim

end Pending

namespace Scanner

/-- Characters that continue the pending piece do nothing else, but for the lines they end. -/
theorem feed_foldlM {cs : List Char} {s : Scanner} {p : Pending}
    (h : cs.foldlM Pending.extend? s.pending = some p) :
    s.feed cs = .ok ⟨s.done, s.line + cs.count '\n', p⟩ := by
  induction cs generalizing s with
  | nil =>
    cases h
    rfl
  | cons c cs ih =>
    rw [List.foldlM_cons, Option.bind_eq_bind, Option.bind_eq_some_iff] at h
    obtain ⟨q, hq, h⟩ := h
    have hstep : s.step c = .ok ⟨s.done, s.nextLine c, q⟩ :=
      step_eq_ok_iff.mpr (.inl ⟨q, hq, rfl⟩)
    have hline : s.nextLine c + cs.count '\n' = s.line + (c :: cs).count '\n' := by
      rw [nextLine, List.count_cons]
      split <;> omega
    refine feed_cons_eq_ok_iff.mpr ⟨_, hstep, ?_⟩
    rw [← hline]
    exact ih h

theorem feed_extend {cs : List Char} {s : Scanner} {p : Pending} (hline : '\n' ∉ cs)
    (h : cs.foldlM Pending.extend? s.pending = some p) :
    s.feed cs = .ok { s with pending := p } := by
  rw [feed_foldlM h, List.count_eq_zero.mpr hline, Nat.add_zero]

/-- The spelling of a token that does not continue the pending piece ends that piece, and leaves the
token pending. -/
theorem feed_spelling {s : Scanner} {k : Token.Kind} {kind : Option Token.Kind} (hk : k.Lexable)
    (hkind : s.pending.kind? s.line = .ok kind)
    (hapart : ∀ c ∈ k.spelling.toList.head?, s.pending.extend? c = none) :
    s.feed k.spelling.toList = .ok ⟨s.doneWith kind, s.line, .ofKind k⟩ := by
  obtain ⟨c, cs, first, htext, hline, hstart, hcs⟩ := Pending.spells_ofKind hk
  rw [htext] at hapart hline ⊢
  simp only [List.mem_cons, not_or] at hline
  have hnext : s.nextLine c = s.line := by simp [nextLine, Ne.symm hline.1]
  refine feed_cons_eq_ok_iff.mpr ⟨⟨s.doneWith kind, s.line, first⟩, ?_, feed_extend hline.2 hcs⟩
  exact step_eq_ok_iff.mpr (.inr ⟨kind, first, hapart c rfl, hkind, hstart s.line, by rw [hnext]⟩)

/-- Blanks and line ends leave nothing pending. -/
theorem feed_blanks {text : List Char} {s : Scanner} (hs : s.pending = .nothing)
    (htext : ∀ c ∈ text, (c == '\n' || isBlank c) = true) :
    ∃ line, s.feed text = .ok ⟨s.done, line, .nothing⟩ := by
  induction text generalizing s with
  | nil => exact ⟨s.line, by rw [feed_nil, ← hs]⟩
  | cons c text ih =>
    have hstep : s.step c = .ok ⟨s.done, s.nextLine c, .nothing⟩ := by
      refine step_eq_ok_iff.mpr (.inr ⟨none, .nothing, ?_, ?_, ?_, rfl⟩)
      · rw [hs, Pending.extend?]
      · rw [hs, Pending.kind?]
      · rw [Pending.start, if_pos (htext c List.mem_cons_self)]
    obtain ⟨line, hfeed⟩ := ih (s := ⟨s.done, s.nextLine c, .nothing⟩) rfl fun d hd =>
      htext d (List.mem_cons_of_mem c hd)
    exact ⟨line, feed_cons_eq_ok_iff.mpr ⟨_, hstep, hfeed⟩⟩

/-- A blank or line end that does not continue the pending piece ends it; more of them change
nothing. -/
theorem feed_gap {s : Scanner} {c : Char} {text : List Char} {kind : Option Token.Kind}
    (htext : ∀ d ∈ c :: text, (d == '\n' || isBlank d) = true)
    (hkind : s.pending.kind? s.line = .ok kind) (hapart : s.pending.extend? c = none) :
    ∃ line, s.feed (c :: text) = .ok ⟨s.doneWith kind, line, .nothing⟩ := by
  have hstart : Pending.start s.line c = .ok .nothing := by
    rw [Pending.start, if_pos (htext c List.mem_cons_self)]
  have hstep := step_eq_ok_iff.mpr (.inr ⟨kind, .nothing, hapart, hkind, hstart, rfl⟩)
  obtain ⟨line, hfeed⟩ := feed_blanks (s := ⟨s.doneWith kind, s.nextLine c, .nothing⟩) rfl
    fun d hd => htext d (List.mem_cons_of_mem c hd)
  exact ⟨line, feed_cons_eq_ok_iff.mpr ⟨_, hstep, hfeed⟩⟩

end Scanner

end Imp32
