import Imp32.Proofs.Relabelling
import Imp32.Proofs.TokenLines

/-!
# Text after a separator

What follows a separator is scanned as if nothing stood before it, on later lines
(`separators_separate`). A separator is a blank or a line end, and any blanks, line ends and whole
comments after that. The text before it must not end within a comment, which would go on.

A text can be cut where the next character continues neither a comment nor the last token
(`Scanner.at_of_scan`); and after a cut, scanning starts afresh (`scan_append_of_at`).
-/

namespace Imp32

open Pending

/-! ## Texts that end within a comment -/

/-- Reading the text comes to a `/*` with no `*/` after it. -/
def EndsInComment (source : List Char) : Prop :=
  ∃ places inside, Lexes [] source places ('/' :: '*' :: inside) ∧ ¬ ['*', '/'] <:+: inside

/-- Reading the text comes to a `//` with no line end after it. -/
def EndsInLineComment (source : List Char) : Prop :=
  ∃ places inside, Lexes [] source places ('/' :: '/' :: inside) ∧ '\n' ∉ inside

/-- The scanner is left with the piece that a text ends in. -/
theorem Lexes.pending_eq {source text : List Char} {places : List Place} {p : Pending}
    (h : Lexes [] source places text) (hp : Leaves text p) :
    (Scanner.feed {} source).map Scanner.pending = .ok p := by
  obtain ⟨before, heq, hat⟩ := h.scanned (Scanner.at_nil _)
  rw [← List.append_nil text] at hat
  have hfeed := hat.feed_piece hp
  rw [heq, List.nil_append] at hfeed
  rw [hfeed]
  rfl

theorem EndsInComment.pending {source : List Char} (h : EndsInComment source) :
    ∃ starred, (Scanner.feed {} source).map Scanner.pending = .ok (.blockComment starred) := by
  obtain ⟨places, inside, hlexes, hopen⟩ := h
  obtain ⟨starred, hleaves⟩ := leaves_blockComment hopen
  exact ⟨starred, hlexes.pending_eq hleaves⟩

theorem EndsInLineComment.pending {source : List Char} (h : EndsInLineComment source) :
    (Scanner.feed {} source).map Scanner.pending = .ok .lineComment := by
  obtain ⟨places, inside, hlexes, hline⟩ := h
  exact hlexes.pending_eq (leaves_lineComment hline)

/-- The text, from the given place on, can be read up to a last piece. -/
def Lexes.HasLast (before rest : List Char) : Prop :=
  ∃ places text, Lexes before rest places text ∧ text <:+ rest ∧ ∃ p, Leaves text p

/-- The last piece is the one that is read next, or else it is the last piece of what follows. -/
theorem Lexes.HasLast.of_append {before text after : List Char} {p : Pending}
    (hp : Leaves text p)
    (hnext : ∀ {places rest}, Lexes (before ++ text) after places rest →
      ∃ places', Lexes before (text ++ after) places' rest)
    (hafter : after ≠ [] → HasLast (before ++ text) after) : HasLast before (text ++ after) := by
  by_cases hempty : after = []
  · subst hempty
    rw [List.append_nil]
    exact ⟨[], text, .refl before text, List.suffix_rfl, p, hp⟩
  · obtain ⟨places, last, hlast, hsuffix, hleaves⟩ := hafter hempty
    obtain ⟨places', hlast'⟩ := hnext hlast
    exact ⟨places', last, hlast', hsuffix.trans (List.suffix_append text after), hleaves⟩

/-- A text that can be read to its end has a last gap or token. -/
theorem Lexes.hasLast {before rest : List Char} {places : List Place}
    (h : Lexes before rest places []) (hne : rest ≠ []) : HasLast before rest := by
  generalize hend : [] = rest' at h
  induction h with
  | refl before rest => exact absurd hend.symm hne
  | gap hgap _ ih =>
    obtain ⟨p, hp, -⟩ := hgap.leaves
    exact .of_append hp (fun hlexes => ⟨_, .gap hgap hlexes⟩) fun hafter => ih hafter hend
  | token hk _ ih =>
    obtain ⟨p, hp, -⟩ := hk.leaves
    exact .of_append hp (fun hlexes => ⟨_, .token hk hlexes⟩) fun hafter => ih hafter hend

/-- When a text has been read, the pending piece is the last part of it. -/
theorem Scanner.exists_last_piece {source : List Char} {s : Scanner} {ts : List Token}
    (hfeed : feed {} source = .ok s) (hfinish : s.finish = .ok ts) (hne : source ≠ []) :
    ∃ places text, Lexes [] source places text ∧ text <:+ source ∧ Leaves text s.pending := by
  have hscan : scan (.ofList source) = .ok ts :=
    scan_eq_ok_iff.mpr ⟨s, by rw [String.toList_ofList]; exact hfeed, hfinish⟩
  obtain ⟨places, hlexes, -⟩ := lexes_of_scan hscan
  rw [String.toList_ofList] at hlexes
  obtain ⟨places', text, hlast, hsuffix, p, hp⟩ := hlexes.hasLast hne
  have hpending := hlast.pending_eq hp
  rw [hfeed] at hpending
  have hsame : s.pending = p := Except.ok.inj hpending
  exact ⟨places', text, hlast, hsuffix, hsame ▸ hp⟩

/-! ## Where a text can be cut -/

/-- A character that continues neither a comment nor the last token of a text begins a new piece. -/
theorem Scanner.at_of_scan {source : String} {ts : List Token} {c : Char}
    (hscan : scan source = .ok ts) (hblock : ¬ EndsInComment source.toList)
    (hline : EndsInLineComment source.toList → c = '\n')
    (hc : ∀ text, text <:+ source.toList → text ≠ [] → ¬ Lexeme (text ++ [c]))
    (more : List Char) : At source.toList (c :: more) ts := by
  obtain ⟨s, hfeed, hfinish⟩ := scan_eq_ok_iff.mp hscan
  have hstop : s.pending.extend? c = none := by
    by_cases hne : source.toList = []
    · rw [hne] at hfeed
      cases hfeed
      rfl
    · obtain ⟨places, text, hlast, hsuffix, hp⟩ := exists_last_piece hfeed hfinish hne
      have htoken (hreads : s.pending.Reads text) : s.pending.extend? c = none := by
        by_contra hsome
        obtain ⟨p', hp'⟩ := Option.ne_none_iff_exists'.mp hsome
        exact hc text hsuffix hp.ne_nil (hp.lexeme_snoc hreads hp')
      have hcovers := hp.covers
      -- the last piece is a comment, or nothing remains of it, or it may become a token
      cases hcase : s.pending with
      | nothing => rfl
      | lineComment =>
        rw [hcase] at hcovers
        obtain ⟨inside, rfl, hinside⟩ := hcovers
        have hchar : c = '\n' := hline ⟨places, inside, hlast, hinside⟩
        rw [extend?, if_pos (by simp [hchar])]
      | blockComment starred =>
        rw [hcase] at hcovers
        obtain ⟨inside, rfl, hopen, -⟩ := hcovers
        exact absurd ⟨places, inside, hlast, hopen⟩ hblock
      | word chars =>
        rw [hcase] at hcovers htoken
        exact htoken hcovers.1
      | number digits =>
        rw [hcase] at hcovers htoken
        exact htoken hcovers.1
      | symbol sym =>
        rw [hcase] at hcovers htoken
        exact htoken hcovers.1
  refine ⟨s, hfeed, hfinish, ?_⟩
  intro d hd
  rw [← Option.some.inj hd]
  exact hstop

/-! ## What follows a cut -/

/-- The place in a text that has more before it. -/
def Place.after (more : List Char) (x : Place) : Place := ⟨more ++ x.before, x.kind⟩

theorem Place.token_after (more : List Char) (x : Place) :
    (x.after more).token = x.token.mapLine (· + more.count '\n') := by
  simp only [Place.token, Place.after, Token.mapLine, List.count_append]
  congr 1
  omega

/-- A text is cut alike whatever stands before it. -/
theorem Lexes.after {before rest rest' : List Char} {places : List Place}
    (h : Lexes before rest places rest') (more : List Char) :
    Lexes (more ++ before) rest (places.map (Place.after more)) rest' := by
  induction h with
  | refl before rest => exact .refl _ _
  | gap hgap _ ih => exact .gap hgap (by simpa using ih)
  | token hk _ ih => exact .token hk (by simpa using ih)

/-- The result of scanning a text that has more lines before it. -/
def scanAfter (ts : List Token) (lines : Nat) (source : String) :
    Except Unrecognised (List Token) :=
  match scan source with
  | .ok us => .ok (ts ++ us.map (Token.mapLine (· + lines)))
  | .error e => .error { e with line := e.line + lines }

theorem scanAfter_of_ok {source : String} {us : List Token} (h : scan source = .ok us)
    (ts : List Token) (lines : Nat) :
    scanAfter ts lines source = .ok (ts ++ us.map (Token.mapLine (· + lines))) := by
  rw [scanAfter, h]

theorem scanAfter_of_error {source : String} {e : Unrecognised} (h : scan source = .error e)
    (ts : List Token) (lines : Nat) :
    scanAfter ts lines source = .error { e with line := e.line + lines } := by
  rw [scanAfter, h]

/-- After a cut, scanning starts afresh. -/
theorem scan_append_of_at {a b : String} {ts : List Token}
    (h : Scanner.At a.toList b.toList ts) :
    scan (a ++ b) = scanAfter ts (a.toList.count '\n') b := by
  have htext : (a ++ b).toList = a.toList ++ b.toList := String.toList_append
  obtain ⟨places, rest, hlexes, hend⟩ := exists_lexes [] b.toList
  have hafter := hlexes.after a.toList
  rw [List.append_nil] at hafter
  obtain ⟨before, heq, hat⟩ := hafter.scanned h
  rcases hend with rfl | ⟨text, after, rfl, hbad⟩
  · -- the second text is read to its end
    have htokens : (places.map (Place.after a.toList)).map Place.token =
        (places.map Place.token).map (Token.mapLine (· + a.toList.count '\n')) := by
      rw [List.map_map, List.map_map]
      exact List.map_congr_left fun x _ => Place.token_after a.toList x
    obtain ⟨s, hfeed, hfinish, -⟩ := hat
    rw [List.append_nil] at heq
    rw [heq, ← htext] at hfeed
    rw [htokens] at hfinish
    rw [scanAfter_of_ok (scan_of_lexes hlexes)]
    exact scan_eq_ok_iff.mpr ⟨s, hfeed, hfinish⟩
  · -- it holds a piece that is no token
    obtain ⟨before', hb, herror⟩ := scan_of_noToken hlexes hbad
    have hbefore : before = a.toList ++ before' := by
      rw [hb, ← List.append_assoc, ← List.append_assoc, ← List.append_assoc] at heq
      exact List.append_cancel_right (List.append_cancel_right heq)
    have hline : 1 + before.count '\n' = 1 + before'.count '\n' + a.toList.count '\n' := by
      rw [hbefore, List.count_append]
      omega
    have hall := hat.noToken hbad
    rw [List.append_assoc, heq, ← htext, hline] at hall
    rw [scanAfter_of_error herror, scan_eq]
    exact hall

/-! ## Separators -/

/-- Blanks and line ends (`separator_iff`), and whole comments, one after another. -/
inductive Spacing : List Char → Prop where
  | nil : Spacing []
  /-- A blank or a line end. -/
  | char {c : Char} {w : List Char} (hc : (c == '\n' || isBlank c) = true) (hw : Spacing w) :
      Spacing (c :: w)
  /-- A comment, and the end of its line. -/
  | lineComment {inside w : List Char} (h : '\n' ∉ inside) (hw : Spacing w) :
      Spacing ('/' :: '/' :: inside ++ '\n' :: w)
  /-- A comment up to the first `*/` in it. -/
  | blockComment {inside w : List Char} (h : ¬ ['*', '/'] <:+: inside ++ ['*'])
      (hw : Spacing w) : Spacing ('/' :: '*' :: inside ++ '*' :: '/' :: w)

theorem Gap.of_separator {c : Char} (hc : (c == '\n' || isBlank c) = true) (after : List Char) :
    Gap [c] after := by
  rcases Bool.or_eq_true_iff.mp hc with hc | hc
  · rw [beq_iff_eq.mp hc]
    exact .lineEnd after
  · exact .blank hc after

/-- A cut before spacing is a cut after it, and there are no more tokens. -/
theorem Spacing.at_append {w : List Char} (hw : Spacing w) {before after : List Char}
    {ts : List Token} (h : Scanner.At before (w ++ after) ts) :
    Scanner.At (before ++ w) after ts := by
  induction hw generalizing before with
  | nil => simpa using h
  | @char c w hc _ ih =>
    have hhere : Scanner.At before ([c] ++ (w ++ after)) ts := h
    rw [List.append_cons]
    exact ih (hhere.gap (.of_separator hc (w ++ after)))
  | @lineComment inside w hinside _ ih =>
    have hhere : Scanner.At before ('/' :: '/' :: inside ++ '\n' :: (w ++ after)) ts := by
      simpa using h
    -- the line end is left to stand on its own
    have hend : Scanner.At (before ++ '/' :: '/' :: inside) (['\n'] ++ (w ++ after)) ts :=
      hhere.gap (.lineComment hinside (by simp))
    simpa using ih (hend.gap (.lineEnd (w ++ after)))
  | @blockComment inside w hinside _ ih =>
    have hhere : Scanner.At before ('/' :: '*' :: inside ++ ['*', '/'] ++ (w ++ after)) ts := by
      simpa using h
    simpa using ih (hhere.gap (.blockComment hinside (w ++ after)))

/-! ## Texts one after another -/

/-- After a text that does not end within a comment, and a separator, any text is scanned as it is
on its own, on the lines that follow: its tokens come after those of the first text, and if it holds
a piece that is no token, that piece is reported. -/
theorem separators_separate {a w : String} {ts : List Token} (ha : scan a = .ok ts)
    (hblock : ¬ EndsInComment a.toList) (hline : ¬ EndsInLineComment a.toList)
    (hw : Spacing w.toList) (hfirst : ∃ c ∈ w.toList.head?, c = '\n' ∨ isBlank c = true)
    (b : String) :
    scan (a ++ w ++ b) =
      match scan b with
      | .ok us => .ok (ts ++ us.map fun t => ⟨t.kind, t.line + (a ++ w).toList.count '\n'⟩)
      | .error e => .error ⟨e.text, e.line + (a ++ w).toList.count '\n'⟩ := by
  obtain ⟨c, hc, hsep⟩ := hfirst
  obtain ⟨w', hw'⟩ := List.head?_eq_some_iff.mp hc
  have hsep : (c == '\n' || isBlank c) = true := by simpa using hsep
  have hnone (text : List Char) (_ : text <:+ a.toList) (_ : text ≠ []) :
      ¬ Lexeme (text ++ [c]) := by
    intro hlexeme
    exact hlexeme.separator_not_mem hsep (by simp)
  have hcut : Scanner.At a.toList (w.toList ++ b.toList) ts := by
    rw [hw']
    exact Scanner.at_of_scan ha hblock (fun h => absurd h hline) hnone _
  have hat : Scanner.At (a ++ w).toList b.toList ts := by
    rw [String.toList_append]
    exact hw.at_append hcut
  exact scan_append_of_at hat

/-- A `/` that the next text would continue, were it not for two comments between them. -/
theorem separators_separate_slash :
    let a := "x /"
    let w := " // y\n/* z\n*/"
    scan (a ++ w ++ "= 7") = .ok [⟨.identifier "x", 1⟩, ⟨.symbol .slash, 1⟩,
      ⟨.symbol (.binary .assign), 3⟩, ⟨.integer 7, 3⟩] ∧
    scan (a ++ w ++ "=\n$ 7") = .error ⟨"$", 4⟩ := by
  intro a w
  have ha : scan a = .ok [⟨.identifier "x", 1⟩, ⟨.symbol .slash, 1⟩] := by decide +kernel
  have hpending : (Scanner.feed {} a.toList).map Scanner.pending = .ok (.symbol .slash) := by
    decide +kernel
  have hblock : ¬ EndsInComment a.toList := by
    intro hopen
    obtain ⟨starred, hcomment⟩ := hopen.pending
    cases hpending.symm.trans hcomment
  have hline : ¬ EndsInLineComment a.toList := by
    intro hopen
    cases hpending.symm.trans hopen.pending
  have hw : Spacing w.toList := by
    have htext : w.toList = ' ' :: ('/' :: '/' :: [' ', 'y'] ++ '\n' ::
        ('/' :: '*' :: [' ', 'z', '\n'] ++ '*' :: '/' :: [])) := by decide +kernel
    rw [htext]
    exact .char (by decide) (.lineComment (by decide) (.blockComment (by decide) .nil))
  have hfirst : ∃ c ∈ w.toList.head?, c = '\n' ∨ isBlank c = true :=
    ⟨' ', by decide +kernel, .inr (by decide)⟩
  have hcount : (a ++ w).toList.count '\n' = 2 := by decide +kernel
  constructor
  · have hb : scan "= 7" = .ok [⟨.symbol (.binary .assign), 1⟩, ⟨.integer 7, 1⟩] := by
      decide +kernel
    rw [separators_separate ha hblock hline hw hfirst, hb, hcount]
    rfl
  · have hb : scan "=\n$ 7" = .error ⟨"$", 2⟩ := by decide +kernel
    rw [separators_separate ha hblock hline hw hfirst, hb, hcount]

end Imp32
