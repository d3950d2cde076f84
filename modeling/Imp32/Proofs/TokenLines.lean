import Imp32.Proofs.LexicalGrammar

/-!
# The tokens of a text and their lines

Scanning finds the tokens of a text as the lexical grammar cuts it, each on the line that it begins
on, however many line ends stand in the gaps before it. It fails where the grammar comes to a piece
that is no token, with that piece and its line.
-/

namespace Imp32

open Pending

/-- The token, with its line: one more than the number of line ends before it. -/
def Place.token (x : Place) : Token := ⟨x.kind, 1 + x.before.count '\n'⟩

theorem Pending.StopsAt.of_append {p : Pending} {text after : List Char}
    (h : p.StopsAt (text ++ after)) : p.StopsAt text := by
  cases text with
  | nil => simp [StopsAt]
  | cons c text => exact h

/-- A character that nothing begins with is reported where it stands. -/
theorem Pending.start_of_stray {c : Char} (hgap : (c == '\n' || isBlank c) = false)
    (h : ∀ more, ¬ Lexeme (c :: more)) (line : Nat) :
    start line c = .error ⟨.ofList [c], line⟩ := by
  have hword : ¬ isWordStart c = true := fun hc => h [] (.word hc rfl)
  have hdigit : ¬ c.isDigit = true := fun hc => h [] (.number (by simp) (by simpa using hc))
  have hsymbol : Symbol.ofChar? c = none := by
    cases hsym : Symbol.ofChar? c with
    | none => rfl
    | some sym =>
      refine absurd ?_ (h [])
      rw [← Symbol.toList_spelling_of_ofChar? hsym]
      exact .symbol sym
  rw [start, if_neg (by simp [hgap]), if_neg hword, if_neg hdigit, hsymbol]
  rfl

namespace Scanner

/-! ## From cut to cut -/

/-- A text that does not continue the pending piece ends it, and leaves what it would alone. -/
theorem feed_of_leaves {text : List Char} {s : Scanner} {p : Pending} {kind : Option Token.Kind}
    (h : Leaves text p) (hkind : s.pending.kind? s.line = .ok kind)
    (hstop : s.pending.StopsAt text) : ∃ line, s.feed text = .ok ⟨s.doneWith kind, line, p⟩ := by
  obtain ⟨c, cs, first, rfl, hstart, hcs⟩ := h
  have hstep : s.step c = .ok ⟨s.doneWith kind, s.nextLine c, first⟩ :=
    step_eq_ok_iff.mpr (.inr ⟨kind, first, hstop c rfl, hkind, hstart s.line, rfl⟩)
  exact ⟨_, feed_cons_eq_ok_iff.mpr ⟨_, hstep, feed_foldlM hcs⟩⟩

/-- Where the text `before` has been read, `after` continues nothing, and the tokens are `ts`. -/
def At (before after : List Char) (ts : List Token) : Prop :=
  ∃ s, feed {} before = .ok s ∧ s.finish = .ok ts ∧ s.pending.StopsAt after

theorem at_nil (after : List Char) : At [] after [] :=
  ⟨{}, rfl, rfl, fun _ _ => rfl⟩

/-- One piece is read on from a cut. -/
theorem At.feed_piece {before text after : List Char} {ts : List Token} {p : Pending}
    (h : At before (text ++ after) ts) (hp : Leaves text p) :
    feed {} (before ++ text) = .ok ⟨ts.reverse, 1 + (before ++ text).count '\n', p⟩ := by
  obtain ⟨s, hfeed, hfinish, hstop⟩ := h
  obtain ⟨kind, hkind, rfl⟩ := finish_eq_ok_iff.mp hfinish
  obtain ⟨line, hpiece⟩ := feed_of_leaves hp hkind hstop.of_append
  have hall := feed_append_eq_ok_iff.mpr ⟨s, hfeed, hpiece⟩
  have hline : line = 1 + (before ++ text).count '\n' := line_of_feed hall
  rw [hall, hline, List.reverse_reverse]

/-- A gap is read over. -/
theorem At.gap {before text after : List Char} {ts : List Token} (h : At before (text ++ after) ts)
    (hgap : Gap text after) : At (before ++ text) after ts := by
  obtain ⟨p, hp, hsilent, hstop⟩ := hgap.leaves
  refine ⟨_, h.feed_piece hp, finish_eq_ok_iff.mpr ⟨none, hsilent _, ?_⟩, hstop⟩
  simp [doneWith]

/-- A text that fits a token is read as the next token. -/
theorem At.token {before text after : List Char} {ts : List Token} {k : Token.Kind}
    (h : At before (text ++ after) ts) (hk : k.Fits text after) :
    At (before ++ text) after (ts ++ [Place.token ⟨before, k⟩]) := by
  obtain ⟨p, hp, hkind, hstop⟩ := hk.leaves
  refine ⟨_, h.feed_piece hp, finish_eq_ok_iff.mpr ⟨some k, hkind _, ?_⟩, hstop⟩
  -- a token lies on one line, so that its line is also the one that it ends on
  have hcount : text.count '\n' = 0 := List.count_eq_zero.mpr hk.lexeme.lineEnd_not_mem
  simp [doneWith, Place.token, hcount]

end Scanner

open Scanner

/-- Where the rules lead, the scanner gets to, with the tokens at the given places. -/
theorem Lexes.scanned {before rest rest' : List Char} {places : List Place} {ts : List Token}
    (h : Lexes before rest places rest') (hat : At before rest ts) :
    ∃ before', before' ++ rest' = before ++ rest ∧
      At before' rest' (ts ++ places.map Place.token) := by
  induction h generalizing ts with
  | refl before rest => exact ⟨before, rfl, by simpa using hat⟩
  | gap hgap _ ih =>
    obtain ⟨before', heq, hat'⟩ := ih (hat.gap hgap)
    exact ⟨before', by simpa using heq, hat'⟩
  | token hk _ ih =>
    obtain ⟨before', heq, hat'⟩ := ih (hat.token hk)
    exact ⟨before', by simpa using heq, by simpa using hat'⟩

theorem scan_eq (source : String) :
    scan source = Scanner.feed {} source.toList >>= Scanner.finish :=
  rfl

/-! ## Texts that are read to their end -/

theorem scan_of_lexes {source : String} {places : List Place}
    (h : Lexes [] source.toList places []) : scan source = .ok (places.map Place.token) := by
  obtain ⟨before, heq, s, hfeed, hfinish, -⟩ := h.scanned (at_nil _)
  simp only [List.append_nil, List.nil_append] at heq hfinish
  exact scan_eq_ok_iff.mpr ⟨s, heq ▸ hfeed, hfinish⟩

/-! ## Texts that are not -/

namespace Scanner

theorem finish_of_kind?_eq_error {s : Scanner} {after : List Char} {e : Unrecognised}
    (hkind : s.pending.kind? s.line = .error e) (hstop : s.pending.StopsAt after) :
    s.feed after >>= finish = .error e := by
  cases after with
  | nil =>
    rw [feed_nil]
    exact finish_eq_error_iff.mpr hkind
  | cons c after =>
    rw [feed_cons, step_eq_error_iff.mpr ⟨hstop c rfl, .inl hkind⟩]
    rfl

/-- Whatever comes after it, a piece that is no token is what is reported. -/
theorem At.noToken {before text after : List Char} {ts : List Token}
    (h : At before (text ++ after) ts) (hbad : NoToken text after) :
    feed {} (before ++ text ++ after) >>= finish =
      .error ⟨.ofList text, 1 + before.count '\n'⟩ := by
  cases hbad with
  | stray hgap hno after =>
    obtain ⟨s, hfeed, hfinish, hstop⟩ := h
    obtain ⟨kind, hkind, -⟩ := finish_eq_ok_iff.mp hfinish
    have hline : s.line = 1 + before.count '\n' := line_of_feed hfeed
    have hstart := start_of_stray hgap hno s.line
    have hstep := step_eq_error_iff.mpr ⟨hstop _ rfl, .inr ⟨kind, hkind, hstart⟩⟩
    rw [List.append_assoc, feed_append, hfeed, ← hline]
    change s.feed (_ :: after) >>= finish = _
    rw [feed_cons, hstep]
    rfl
  | overflow hne hdigits hlarge hlong =>
    obtain ⟨c, cs, rfl⟩ := List.exists_cons_of_ne_nil hne
    have hp := (spells_number hdigits).leaves
    have hstop := (hp.longest_iff ⟨by simp, hne, hdigits⟩).mp hlong
    have hcount : (c :: cs).count '\n' = 0 :=
      List.count_eq_zero.mpr (Lexeme.number hne hdigits).lineEnd_not_mem
    rw [feed_append, h.feed_piece hp]
    refine finish_of_kind?_eq_error ?_ hstop
    simp only [kind?, List.reverse_reverse]
    rw [if_neg (by omega), List.count_append, hcount, Nat.add_zero]

end Scanner

theorem scan_of_noToken {source : String} {places : List Place} {text after : List Char}
    (h : Lexes [] source.toList places (text ++ after)) (hbad : NoToken text after) :
    ∃ before, source.toList = before ++ text ++ after ∧
      scan source = .error ⟨.ofList text, 1 + before.count '\n'⟩ := by
  obtain ⟨before, heq, hat⟩ := h.scanned (at_nil _)
  have hsource : source.toList = before ++ text ++ after := by
    rw [List.append_assoc, heq, List.nil_append]
  exact ⟨before, hsource, by rw [scan_eq, hsource, hat.noToken hbad]⟩

/-- If scanning succeeds, the text can be read to its end by the rules, with the same tokens. -/
theorem lexes_of_scan {source : String} {ts : List Token} (h : scan source = .ok ts) :
    ∃ places, Lexes [] source.toList places [] ∧ ts = places.map Place.token := by
  obtain ⟨places, rest, hlexes, rfl | ⟨text, after, rfl, hbad⟩⟩ := exists_lexes [] source.toList
  · exact ⟨places, hlexes, Except.ok.inj (h.symm.trans (scan_of_lexes hlexes))⟩
  · obtain ⟨before, -, herror⟩ := scan_of_noToken hlexes hbad
    cases h.symm.trans herror

/-- Scanning succeeds exactly on the texts that the grammar reads to their end, and gives the tokens
of the only such reading; each is on the line that it begins on, which the line ends before it
count, in blanks and comments as well. It fails exactly with the first piece that is no token, and
the line of that. -/
theorem token_lines_are_exact (source : String) :
    (∀ ts, scan source = .ok ts ↔ ∃ places, Lexes [] source.toList places [] ∧
      ts = places.map fun x => ⟨x.kind, 1 + x.before.count '\n'⟩) ∧
    (∀ places places', Lexes [] source.toList places [] → Lexes [] source.toList places' [] →
      places = places') ∧
    ∀ e, scan source = .error e ↔ ∃ places before after,
      source.toList = before ++ e.text.toList ++ after ∧
      Lexes [] source.toList places (e.text.toList ++ after) ∧ NoToken e.text.toList after ∧
      e.line = 1 + before.count '\n' := by
  refine ⟨fun ts => ⟨lexes_of_scan, ?_⟩, fun _ _ => Lexes.unique, fun e => ⟨fun hscan => ?_, ?_⟩⟩
  · rintro ⟨places, hlexes, rfl⟩
    exact scan_of_lexes hlexes
  · obtain ⟨places, rest, hlexes, rfl | ⟨text, after, rfl, hbad⟩⟩ := exists_lexes [] source.toList
    · cases hscan.symm.trans (scan_of_lexes hlexes)
    · obtain ⟨before, hsource, herror⟩ := scan_of_noToken hlexes hbad
      cases hscan.symm.trans herror
      rw [String.toList_ofList]
      exact ⟨places, before, after, hsource, hlexes, hbad, rfl⟩
  · rintro ⟨places, before, after, hsource, hlexes, hbad, hline⟩
    obtain ⟨before', hsource', herror⟩ := scan_of_noToken hlexes hbad
    obtain rfl : before = before' := by
      simpa using hsource.symm.trans hsource'
    rw [herror, ← hline, String.ofList_toList]

/-- A comment that `/*/` does not close, line ends of both kinds, and a comment that never ends;
and a stray character below a comment of two lines. -/
theorem token_lines_are_exact_across_comments :
    (∃ places, Lexes [] "x /*/ // \n*/ + // y\r\n 7 /* z\n".toList places [] ∧
      [⟨.identifier "x", 1⟩, ⟨.symbol (.binary (.arith .add)), 2⟩, ⟨.integer 7, 3⟩] =
        places.map (fun x => (⟨x.kind, 1 + x.before.count '\n'⟩ : Token)) ∧
      ∀ places', Lexes [] "x /*/ // \n*/ + // y\r\n 7 /* z\n".toList places' [] →
        places' = places) ∧
    ∃ places before after, "a // b\n/* c\n*/ $".toList = before ++ "$".toList ++ after ∧
      Lexes [] "a // b\n/* c\n*/ $".toList places ("$".toList ++ after) ∧
      NoToken "$".toList after ∧ 3 = 1 + before.count '\n' := by
  constructor
  · have hscan : scan "x /*/ // \n*/ + // y\r\n 7 /* z\n" = .ok [⟨.identifier "x", 1⟩,
        ⟨.symbol (.binary (.arith .add)), 2⟩, ⟨.integer 7, 3⟩] := by decide +kernel
    have htokens := token_lines_are_exact "x /*/ // \n*/ + // y\r\n 7 /* z\n"
    obtain ⟨places, hlexes, hts⟩ := (htokens.1 _).mp hscan
    exact ⟨places, hlexes, hts, fun places' hlexes' => htokens.2.1 places' places hlexes' hlexes⟩
  · exact ((token_lines_are_exact "a // b\n/* c\n*/ $").2.2 ⟨"$", 3⟩).mp (by decide +kernel)

end Imp32
