import Imp32.Proofs.Scanning

/-!
# Where tokens stand in a text

A token stands between two cuts of the text: places up to which scanning has read, and where the
next character does not continue what it is in the middle of. No cut lies within a comment, a word
or a longer symbol. The line of a token, or of a piece that is none, is one more than the number of
line ends before it, whatever blanks and comments they stand in.
-/

namespace Imp32

/-- The token is written so: a number in digits, any other token in its one spelling. -/
def Token.Kind.WrittenAs : Token.Kind → List Char → Prop
  | .integer n, text =>
    text ≠ [] ∧ (∀ c ∈ text, c.isDigit = true) ∧ n = Nat.ofDigitChars 10 text 0
  | .identifier name, text => text = name.toList
  | .keyword k, text => text = k.spelling.toList
  | .symbol sym, text => text = sym.spelling.toList
  | .trivia _, _ => False

/-- Scanning reads the text before, and what follows begins a piece of its own. -/
def Cut (before after : List Char) : Prop :=
  ∃ s, Scanner.feed {} before = .ok s ∧ ∀ c ∈ after.head?, s.pending.extend? c = none

theorem Cut.append {before after : List Char} (h : Cut before after) (hne : after ≠ [])
    (more : List Char) : Cut before (after ++ more) := by
  obtain ⟨s, hfeed, hnext⟩ := h
  obtain ⟨c, cs, rfl⟩ := List.exists_cons_of_ne_nil hne
  exact ⟨s, hfeed, hnext⟩

/-- The text between `before` and `after` is the token, from one cut to the next. -/
structure Token.Stands (t : Token) (before text after : List Char) : Prop where
  written : t.kind.WrittenAs text
  starts : Cut before (text ++ after)
  ends : Cut (before ++ text) after

theorem Token.Stands.append {t : Token} {before text after : List Char}
    (h : t.Stands before text after) (hne : after ≠ []) (more : List Char) :
    t.Stands before text (after ++ more) where
  written := h.written
  starts := by
    rw [← List.append_assoc]
    exact h.starts.append (by simp [hne]) more
  ends := h.ends.append hne more

/-! ## Pieces of text -/

namespace Pending

/-- No token comes of the piece. -/
def Silent (p : Pending) : Prop := ∀ line, p.kind? line = .ok none

/-- The piece was read from the text, and may become a token. -/
def Reads : Pending → List Char → Prop
  | .word chars, text => text = chars.reverse
  | .number digits, text => text = digits.reverse ∧ text ≠ [] ∧ ∀ c ∈ text, c.isDigit = true
  | .symbol sym, text => text = sym.spelling.toList
  | _, _ => False

theorem Reads.writtenAs {p : Pending} {text : List Char} {line : Nat} {k : Token.Kind}
    (h : p.Reads text) (hk : p.kind? line = .ok (some k)) : k.WrittenAs text := by
  cases p with
  | word chars =>
    simp only [kind?, Except.ok.injEq, Option.some.injEq] at hk
    subst hk
    have htext : text = (String.ofList chars.reverse).toList := by rw [h, String.toList_ofList]
    unfold wordKind
    split
    · rename_i keyword hword
      rw [Keyword.ofWord?_eq_some_iff.mp hword] at htext
      exact htext
    · exact htext
  | number digits =>
    obtain ⟨rfl, hne, hdigits⟩ := h
    simp only [kind?] at hk
    split at hk
    · cases hk
      exact ⟨hne, hdigits, rfl⟩
    · cases hk
  | symbol sym =>
    cases hk
    exact h
  | nothing => exact h.elim
  | lineComment => exact h.elim
  | blockComment starred => exact h.elim

theorem Reads.text_eq {p : Pending} {text : List Char} {line : Nat} {e : Unrecognised}
    (h : p.Reads text) (hk : p.kind? line = .error e) :
    e.text.toList = text ∧ e.line = line := by
  cases p with
  | number digits =>
    simp only [kind?] at hk
    split at hk
    · cases hk
    · cases hk
      exact ⟨by rw [h.1, String.toList_ofList], rfl⟩
  | _ => cases hk

/-- A piece that may become a token is begun by a character on the same line. -/
theorem reads_of_start {line : Nat} {c : Char} {p : Pending} (h : start line c = .ok p) :
    p.Silent ∨ c ≠ '\n' ∧ p.Reads [c] := by
  unfold start at h
  split at h
  · cases h
    exact .inl fun _ => rfl
  · rename_i hc
    have hline : c ≠ '\n' := by
      rintro rfl
      exact hc rfl
    refine .inr ⟨hline, ?_⟩
    split at h
    · cases h
      rfl
    · split at h
      · rename_i hdigit
        cases h
        exact ⟨rfl, by simp, by simpa using hdigit⟩
      · split at h
        · rename_i sym hsym
          cases h
          exact (Symbol.toList_spelling_of_ofChar? hsym).symm
        · cases h

theorem text_of_start_eq_error {line : Nat} {c : Char} {e : Unrecognised}
    (h : start line c = .error e) : e.text.toList = [c] ∧ e.line = line := by
  unfold start at h
  repeat' split at h
  all_goals cases h
  exact ⟨by simp, rfl⟩

/-- A piece that may become a token is continued on the same line, and was begun as such a piece. -/
theorem reads_of_extend? {p p' : Pending} {c : Char} (h : p.extend? c = some p') :
    p'.Silent ∨ (¬ p.Silent ∧ c ≠ '\n' ∧ ∀ text, p.Reads text → p'.Reads (text ++ [c])) := by
  cases p with
  | nothing => cases h
  | word chars =>
    simp only [extend?] at h
    split at h
    · rename_i hc
      cases h
      refine .inr ⟨?_, ?_, ?_⟩
      · intro hsilent
        cases hsilent 0
      · rintro rfl
        exact absurd hc (by decide)
      · rintro _ rfl
        simp [Reads]
    · cases h
  | number digits =>
    simp only [extend?] at h
    split at h
    · rename_i hc
      cases h
      refine .inr ⟨?_, ?_, ?_⟩
      · intro hsilent
        have hnone := hsilent 0
        simp only [kind?] at hnone
        split at hnone <;> cases hnone
      · rintro rfl
        exact absurd hc (by decide)
      · rintro _ ⟨rfl, -, hdigits⟩
        refine ⟨by simp, by simp, ?_⟩
        intro d hd
        rcases List.mem_append.mp hd with hd | hd
        · exact hdigits d hd
        · rw [List.mem_singleton.mp hd]
          exact hc
    · cases h
  | symbol sym =>
    simp only [extend?] at h
    split at h
    · cases h
      exact .inl fun _ => rfl
    · split at h
      · cases h
        exact .inl fun _ => rfl
      · obtain ⟨sym', hsym, rfl⟩ := Option.map_eq_some_iff.mp h
        refine .inr ⟨?_, ?_, ?_⟩
        · intro hsilent
          cases hsilent 0
        · rintro rfl
          unfold Symbol.extend? at hsym
          split at hsym <;> simp_all
        · rintro _ rfl
          exact (Symbol.toList_spelling_of_extend? hsym).symm
  | lineComment =>
    simp only [extend?] at h
    split at h <;> cases h
    exact .inl fun _ => rfl
  | blockComment starred =>
    simp only [extend?] at h
    split at h <;> cases h
    · exact .inl fun _ => rfl
    · exact .inl fun _ => rfl

end Pending

/-! ## The scanner keeps count -/

namespace Scanner

theorem line_of_step {s s' : Scanner} {c : Char} (h : s.step c = .ok s') :
    s'.line = s.line + [c].count '\n' := by
  have hnext : s.nextLine c = s.line + [c].count '\n' := by
    rw [nextLine, List.count_singleton]
    split <;> rfl
  rcases step_eq_ok_iff.mp h with ⟨p, -, rfl⟩ | ⟨kind, p, -, -, -, rfl⟩
  · exact hnext
  · exact hnext

theorem line_of_feed {s s' : Scanner} {text : List Char} (h : s.feed text = .ok s') :
    s'.line = s.line + text.count '\n' := by
  induction text generalizing s with
  | nil =>
    cases h
    rfl
  | cons c text ih =>
    obtain ⟨mid, hmid, h⟩ := feed_cons_eq_ok_iff.mp h
    have hcount : ([c] ++ text).count '\n' = [c].count '\n' + text.count '\n' := List.count_append
    rw [ih h, line_of_step hmid, Nat.add_assoc, ← hcount]
    rfl

/-- The last part of what was read is a piece of its own, on one line. -/
def LastPiece (read text : List Char) : Prop :=
  ∃ before, read = before ++ text ∧ text ≠ [] ∧ '\n' ∉ text ∧ Cut before text

theorem LastPiece.snoc {read text : List Char} {c : Char} (h : LastPiece read text)
    (hc : c ≠ '\n') : LastPiece (read ++ [c]) (text ++ [c]) := by
  obtain ⟨before, rfl, hne, hline, hcut⟩ := h
  refine ⟨before, by simp, by simp, ?_, hcut.append hne [c]⟩
  simp [hline, Ne.symm hc]

theorem lastPiece_singleton {read : List Char} {c : Char} (h : Cut read [c]) (hc : c ≠ '\n') :
    LastPiece (read ++ [c]) [c] :=
  ⟨read, rfl, by simp, by simp [Ne.symm hc], h⟩

theorem LastPiece.line_eq {read text : List Char} {s : Scanner} (hfeed : feed {} read = .ok s)
    (h : LastPiece read text) :
    ∃ before, read = before ++ text ∧ text ≠ [] ∧ Cut before text ∧
      s.line = 1 + before.count '\n' := by
  obtain ⟨before, rfl, hne, hline, hcut⟩ := h
  refine ⟨before, rfl, hne, hcut, ?_⟩
  rw [line_of_feed hfeed, List.count_append, List.count_eq_zero.mpr hline, Nat.add_zero]

/-- Each complete token stands in what was read and has its line; and the pending piece is the last
part of it. -/
structure Placed (read : List Char) (s : Scanner) : Prop where
  -- a token is complete only when a character that does not continue it has been read
  done : ∀ t ∈ s.done, ∃ before text after, read = before ++ text ++ after ∧ after ≠ [] ∧
    t.Stands before text after ∧ t.line = 1 + before.count '\n'
  pending : s.pending.Silent ∨ ∃ text, s.pending.Reads text ∧ LastPiece read text

theorem Placed.exists_reads {read : List Char} {s : Scanner} (h : Placed read s)
    (hkind : s.pending.kind? s.line ≠ .ok none) :
    ∃ text, s.pending.Reads text ∧ LastPiece read text := by
  refine h.pending.resolve_left fun hsilent => ?_
  exact hkind (hsilent s.line)

theorem Placed.doneWith {read after : List Char} {s : Scanner} {kind : Option Token.Kind}
    (h : Placed read s) (hfeed : feed {} read = .ok s) (hkind : s.pending.kind? s.line = .ok kind)
    (hcut : Cut read after) :
    ∀ t ∈ s.doneWith kind, ∃ before text rest, read ++ after = before ++ text ++ rest ∧
      (rest = after ∨ rest ≠ []) ∧ t.Stands before text rest ∧ t.line = 1 + before.count '\n' := by
  intro t ht
  rcases List.mem_append.mp ht with ht | ht
  · obtain ⟨k, rfl, rfl⟩ := Option.map_eq_some_iff.mp (Option.mem_toList.mp ht)
    obtain ⟨text, hreads, hlast⟩ := h.exists_reads (by simp [hkind])
    obtain ⟨before, rfl, hne, hstart, hline⟩ := hlast.line_eq hfeed
    exact ⟨before, text, after, rfl, .inl rfl,
      ⟨hreads.writtenAs hkind, hstart.append hne after, hcut⟩, hline⟩
  · obtain ⟨before, text, rest, rfl, hrest, hstands, hline⟩ := h.done t ht
    exact ⟨before, text, rest ++ after, by simp, .inr (by simp [hrest]),
      hstands.append hrest after, hline⟩

theorem Placed.step {read : List Char} {s s' : Scanner} {c : Char} (h : Placed read s)
    (hfeed : feed {} read = .ok s) (hstep : s.step c = .ok s') : Placed (read ++ [c]) s' := by
  rcases step_eq_ok_iff.mp hstep with ⟨p, hext, rfl⟩ | ⟨kind, p, hext, hkind, hstart, rfl⟩
  · constructor
    · intro t ht
      obtain ⟨before, text, after, rfl, hafter, hstands, hline⟩ := h.done t ht
      exact ⟨before, text, after ++ [c], by simp, by simp, hstands.append hafter [c], hline⟩
    · rcases Pending.reads_of_extend? hext with hsilent | ⟨hspeaks, hc, hreads⟩
      · exact .inl hsilent
      · obtain ⟨text, htext, hlast⟩ := h.pending.resolve_left hspeaks
        exact .inr ⟨text ++ [c], hreads text htext, hlast.snoc hc⟩
  · have hcut : Cut read [c] := ⟨s, hfeed, by simpa using hext⟩
    constructor
    · intro t ht
      obtain ⟨before, text, rest, heq, hrest, hstands, hline⟩ := h.doneWith hfeed hkind hcut t ht
      refine ⟨before, text, rest, heq, ?_, hstands, hline⟩
      rcases hrest with rfl | hrest
      · simp
      · exact hrest
    · rcases Pending.reads_of_start hstart with hsilent | ⟨hc, hreads⟩
      · exact .inl hsilent
      · exact .inr ⟨[c], hreads, lastPiece_singleton hcut hc⟩

theorem Placed.feed {read text : List Char} {s s' : Scanner} (h : Placed read s)
    (hread : Scanner.feed {} read = .ok s) (hfeed : s.feed text = .ok s') :
    Placed (read ++ text) s' := by
  induction text generalizing read s with
  | nil =>
    cases hfeed
    simpa using h
  | cons c text ih =>
    obtain ⟨mid, hmid, hfeed⟩ := feed_cons_eq_ok_iff.mp hfeed
    have hread' : Scanner.feed {} (read ++ [c]) = .ok mid := by
      refine feed_append_eq_ok_iff.mpr ⟨s, hread, ?_⟩
      exact feed_cons_eq_ok_iff.mpr ⟨mid, hmid, rfl⟩
    simpa using ih (h.step hread hmid) hread' hfeed

theorem placed_of_feed {text : List Char} {s : Scanner} (h : feed {} text = .ok s) :
    Placed text s := by
  have hnil : Placed [] {} := ⟨by simp, .inl fun _ => rfl⟩
  simpa using hnil.feed rfl h

/-! ## Pieces that are no token -/

theorem step_eq_error_iff {s : Scanner} {c : Char} {e : Unrecognised} :
    s.step c = .error e ↔ s.pending.extend? c = none ∧
      (s.pending.kind? s.line = .error e ∨
        ∃ kind, s.pending.kind? s.line = .ok kind ∧ Pending.start s.line c = .error e) := by
  unfold step
  cases hext : s.pending.extend? c with
  | some p => simp [pure, Except.pure]
  | none =>
    cases hk : s.pending.kind? s.line with
    | error e' => simp [bind, Except.bind, flush, hk]
    | ok kind =>
      have hflush := flush_eq_ok_iff.mpr ⟨kind, hk, rfl⟩
      cases hp : Pending.start s.line c with
      | error e' => simp [bind, Except.bind, hflush, hp]
      | ok p => simp [bind, Except.bind, pure, Except.pure, hflush, hp]

theorem feed_eq_error {s : Scanner} {text : List Char} {e : Unrecognised}
    (h : s.feed text = .error e) :
    ∃ a c b mid, text = a ++ c :: b ∧ s.feed a = .ok mid ∧ mid.step c = .error e := by
  induction text generalizing s with
  | nil => cases h
  | cons c text ih =>
    cases hstep : s.step c with
    | error e' =>
      rw [feed_cons, hstep] at h
      cases h
      exact ⟨[], c, text, s, rfl, rfl, hstep⟩
    | ok mid =>
      rw [feed_cons, hstep] at h
      obtain ⟨a, d, b, last, rfl, ha, hlast⟩ := ih h
      exact ⟨c :: a, d, b, last, rfl, feed_cons_eq_ok_iff.mpr ⟨mid, hstep, ha⟩, hlast⟩

theorem finish_eq_error_iff {s : Scanner} {e : Unrecognised} :
    s.finish = .error e ↔ s.pending.kind? s.line = .error e := by
  unfold finish
  cases hk : s.pending.kind? s.line with
  | error e' => simp [bind, Except.bind, flush, hk]
  | ok kind =>
    have hflush := flush_eq_ok_iff.mpr ⟨kind, hk, rfl⟩
    simp [bind, Except.bind, pure, Except.pure, hflush]

end Scanner

/-- A piece of text that is no token stands between `before` and `after`, and begins at a cut. -/
def Unrecognised.Stands (e : Unrecognised) (before after : List Char) : Prop :=
  e.text.toList ≠ [] ∧ Cut before (e.text.toList ++ after)

/-- A pending piece that is no token stands at the end of what was read. -/
theorem Unrecognised.stands_of_kind? {read : List Char} {s : Scanner} {e : Unrecognised}
    (hfeed : Scanner.feed {} read = .ok s) (h : s.pending.kind? s.line = .error e)
    (after : List Char) :
    ∃ before, read = before ++ e.text.toList ∧ e.Stands before after ∧
      e.line = 1 + before.count '\n' := by
  have hplaced := Scanner.placed_of_feed hfeed
  obtain ⟨text, hreads, hlast⟩ := hplaced.exists_reads (by simp [h])
  obtain ⟨rfl, hline⟩ := hreads.text_eq h
  obtain ⟨before, hread, hne, hcut, hcount⟩ := hlast.line_eq hfeed
  exact ⟨before, hread, ⟨hne, hcut.append hne after⟩, hline.trans hcount⟩

/-! ## Whole texts -/

theorem count_le_of_eq_append {source before text after : List Char}
    (h : source = before ++ text ++ after) : before.count '\n' ≤ source.count '\n' := by
  rw [h, List.append_assoc, List.count_append]
  exact Nat.le_add_right _ _

/-- Every token of a source stands in it, on the line that it carries. -/
theorem stands_of_mem_scan {source : String} {ts : List Token} (h : scan source = .ok ts)
    {t : Token} (ht : t ∈ ts) :
    ∃ before text after, source.toList = before ++ text ++ after ∧ t.Stands before text after ∧
      t.line = 1 + before.count '\n' := by
  obtain ⟨s, hfeed, hfinish⟩ := scan_eq_ok_iff.mp h
  obtain ⟨kind, hkind, rfl⟩ := Scanner.finish_eq_ok_iff.mp hfinish
  have hcut : Cut source.toList [] := ⟨s, hfeed, by simp⟩
  have hplaced := Scanner.placed_of_feed hfeed
  obtain ⟨before, text, after, heq, -, hstands, hline⟩ :=
    hplaced.doneWith hfeed hkind hcut t (List.mem_reverse.mp ht)
  exact ⟨before, text, after, by simpa using heq, hstands, hline⟩

/-- The text for which scanning fails stands in the source, on the line that is reported. -/
theorem stands_of_scan_eq_error {source : String} {e : Unrecognised} (h : scan source = .error e) :
    ∃ before after, source.toList = before ++ e.text.toList ++ after ∧ e.Stands before after ∧
      e.line = 1 + before.count '\n' := by
  unfold scan at h
  cases hfeed : Scanner.feed {} source.toList with
  | ok s =>
    rw [hfeed] at h
    have hkind := Scanner.finish_eq_error_iff.mp h
    obtain ⟨before, hread, hstands, hline⟩ := Unrecognised.stands_of_kind? hfeed hkind []
    exact ⟨before, [], by simpa using hread, hstands, hline⟩
  | error e' =>
    rw [hfeed] at h
    cases h
    obtain ⟨read, c, rest, s, hsource, hread, hstep⟩ := Scanner.feed_eq_error hfeed
    obtain ⟨hext, hkind | ⟨kind, -, hstart⟩⟩ := Scanner.step_eq_error_iff.mp hstep
    · obtain ⟨before, heq, hstands, hline⟩ := Unrecognised.stands_of_kind? hread hkind (c :: rest)
      exact ⟨before, c :: rest, by rw [hsource, heq], hstands, hline⟩
    · obtain ⟨htext, hline⟩ := Pending.text_of_start_eq_error hstart
      have hcut : Cut read (c :: rest) := ⟨s, hread, by simpa using hext⟩
      refine ⟨read, rest, by rw [hsource, htext]; simp, ⟨by simp [htext], ?_⟩, ?_⟩
      · rw [htext]
        exact hcut
      · rw [hline, Scanner.line_of_feed hread]

end Imp32
