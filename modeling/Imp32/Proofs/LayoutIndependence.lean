import Imp32.Proofs.PrintedMeaning
import Imp32.Proofs.Relabelling
import Imp32.Run

/-!
# Layout does not matter

Blanks, line ends and comments between tokens show in the lines of the tokens only. If two source
texts have tokens of the same kinds, then both are programs, which are equal up to lines, or neither
is, for the same cause. And they run alike: they end together, in the same state, with results that
are equal up to lines (`layout_does_not_matter`).
-/

namespace Imp32

/-! ## Errors up to lines -/

/-- Changes the line of an error. -/
def Error.mapLine (f : Nat → Nat) : Error → Error
  | .parsing error => .parsing (error.mapLine f)
  | .running fault => .running (fault.mapLine f)

/-- The error with line zero. -/
def Error.eraseLine (error : Error) : Error := error.mapLine fun _ => 0

theorem SyntaxError.mapLine_zero_eq_iff {e e' : SyntaxError} :
    e.mapLine (fun _ => 0) = e'.mapLine (fun _ => 0) ↔ e.cause = e'.cause := by
  constructor
  · intro h
    have hcause := congrArg cause h
    exact hcause
  · intro h
    rw [mapLine, mapLine, h]

/-- Tokens of the same kinds are equal once their lines are the same. -/
theorem Token.map_mapLine_zero_of_kinds {ts ts' : List Token}
    (h : ts.map Token.kind = ts'.map Token.kind) :
    ts.map (mapLine fun _ => 0) = ts'.map (mapLine fun _ => 0) := by
  have herase : mapLine (fun _ => 0) = (fun k => ⟨k, 0⟩) ∘ Token.kind := rfl
  rw [herase, ← List.map_map, ← List.map_map, h]

/-! ## Parsing -/

namespace Program

/-- Both texts are programs, equal up to lines, or neither is, for the same cause. -/
inductive ParseAlike (source source' : String) : Prop where
  /-- Both texts are programs. -/
  | programs {p p' : Program} (h : parse source = .ok p) (h' : parse source' = .ok p')
    (heq : p.eraseLines = p'.eraseLines) : ParseAlike source source'
  /-- Neither text is a program. -/
  | errors {e e' : SyntaxError} (h : parse source = .error e) (h' : parse source' = .error e')
    (heq : e.cause = e'.cause) : ParseAlike source source'

/-- Once scanned, a text is parsed from its tokens alone. -/
theorem parse_of_scan {source : String} {ts : List Token} (h : scan source = .ok ts) :
    parse source = (reading parseTokens ts).1 := by
  rw [parse, h, reading]
  dsimp only
  cases parseTokens ts <;> rfl

/-- Texts with the same tokens on any lines are parsed alike. -/
theorem parseAlike_of_kinds {source source' : String} {ts ts' : List Token}
    (hscan : scan source = .ok ts) (hscan' : scan source' = .ok ts')
    (hkinds : ts.map Token.kind = ts'.map Token.kind) : ParseAlike source source' := by
  have hparse := parse_of_scan hscan
  have hparse' := parse_of_scan hscan'
  have hrelabel := relabels_parseTokens (f := fun _ => 0) rfl ts
  have hrelabel' := relabels_parseTokens (f := fun _ => 0) rfl ts'
  have hsame : Reading.relabel (fun _ => 0) (mapLines fun _ => 0) (reading parseTokens ts) =
      Reading.relabel (fun _ => 0) (mapLines fun _ => 0) (reading parseTokens ts') := by
    rw [← hrelabel, ← hrelabel', Token.map_mapLine_zero_of_kinds hkinds]
  rcases hts : reading parseTokens ts with ⟨e | p, rest⟩ <;>
    rcases hts' : reading parseTokens ts' with ⟨e' | p', rest'⟩ <;>
    rw [hts] at hparse hsame <;> rw [hts'] at hparse' hsame
  · have herrors := Except.error.inj (congrArg Prod.fst hsame)
    exact .errors hparse hparse' (SyntaxError.mapLine_zero_eq_iff.mp herrors)
  · cases congrArg Prod.fst hsame
  · cases congrArg Prod.fst hsame
  · have hprograms := Except.ok.inj (congrArg Prod.fst hsame)
    exact .programs hparse hparse' hprograms

end Program

/-! ## Running -/

theorem run_of_parse_eq_ok {source : String} {p : Program} (h : Program.parse source = .ok p)
    (budget : Nat) (sink : Sink) :
    run budget source sink =
      (p.exec budget { sink }).map fun r => (r.1.mapError Error.running, r.2) := by
  rw [run, h]
  dsimp only
  rcases p.exec budget { sink } with _ | ⟨_ | _, m⟩ <;> rfl

theorem run_of_parse_eq_error {source : String} {e : SyntaxError}
    (h : Program.parse source = .error e) (budget : Nat) (sink : Sink) :
    run budget source sink = some (.error (.parsing e), { sink }) := by
  rw [run, h]

theorem run_budget_mono {b c : Nat} (hbc : b ≤ c) {source : String} {sink : Sink}
    {r : Except Error Unit × Machine} (h : run b source sink = some r) :
    run c source sink = some r := by
  cases hparse : Program.parse source with
  | error e =>
    rw [run_of_parse_eq_error hparse] at h ⊢
    exact h
  | ok p =>
    rw [run_of_parse_eq_ok hparse] at h ⊢
    obtain ⟨r', hr', rfl⟩ := Option.map_eq_some_iff.mp h
    rw [Program.exec_budget_mono hbc hr', Option.map_some]

/-- What a run ends with, up to the line of its error. -/
def runErased (budget : Nat) (source : String) (sink : Sink) :
    Option (Except Error Unit × Machine) :=
  (run budget source sink).map fun r => (r.1.mapError Error.eraseLine, r.2)

theorem mapError_running_eraseLine (r : Except Fault Unit) :
    (r.mapError Error.running).mapError Error.eraseLine =
      (r.mapError Fault.eraseLine).mapError Error.running := by
  cases r <;> rfl

/-- Texts that are parsed alike are run alike, but for the lines of errors. -/
theorem Program.ParseAlike.runErased_eq {source source' : String}
    (h : Program.ParseAlike source source') (budget : Nat) (sink : Sink) :
    runErased budget source sink = runErased budget source' sink := by
  cases h with
  | programs h h' heq =>
    rename_i p p'
    have hadapt : ExceptT.adapt Fault.eraseLine (p.exec budget) =
        ExceptT.adapt Fault.eraseLine (p'.exec budget) := by
      rw [← Program.exec_eraseLines, heq, Program.exec_eraseLines]
    have hm := congrFun hadapt { sink }
    rw [Exec.adapt_apply, Exec.adapt_apply] at hm
    have hmap := congrArg (Option.map fun r => (r.1.mapError Error.running, r.2)) hm
    rw [Option.map_map, Option.map_map] at hmap
    rw [runErased, runErased, run_of_parse_eq_ok h, run_of_parse_eq_ok h', Option.map_map,
      Option.map_map]
    simpa only [Function.comp_def, mapError_running_eraseLine] using hmap
  | errors h h' heq =>
    rename_i e e'
    have hlines := SyntaxError.mapLine_zero_eq_iff.mpr heq
    rw [runErased, runErased, run_of_parse_eq_error h, run_of_parse_eq_error h']
    show some (Except.error (Error.parsing (e.mapLine fun _ => 0)), Machine.mk {} sink) =
      some (Except.error (Error.parsing (e'.mapLine fun _ => 0)), Machine.mk {} sink)
    rw [hlines]

theorem exists_run_of_runErased_eq {budget : Nat} {source source' : String} {sink : Sink}
    (h : runErased budget source sink = runErased budget source' sink) {r : Except Error Unit}
    {m : Machine} (hrun : run budget source sink = some (r, m)) :
    ∃ r', run budget source' sink = some (r', m) ∧
      r'.mapError Error.eraseLine = r.mapError Error.eraseLine := by
  rw [runErased, runErased, hrun, Option.map_some] at h
  obtain ⟨⟨r', m'⟩, hrun', heq⟩ := Option.map_eq_some_iff.mp h.symm
  obtain ⟨hr, rfl⟩ := Prod.mk.inj heq
  exact ⟨r', hrun', hr⟩

/-- Two source texts with tokens of the same kinds parse alike and run alike, up to lines. -/
theorem layout_does_not_matter {source source' : String} {ts ts' : List Token}
    (hscan : scan source = .ok ts) (hscan' : scan source' = .ok ts')
    (hkinds : ts.map Token.kind = ts'.map Token.kind) :
    ((∃ p p', Program.parse source = .ok p ∧ Program.parse source' = .ok p' ∧
        p.eraseLines = p'.eraseLines) ∨
      ∃ e e', Program.parse source = .error e ∧ Program.parse source' = .error e' ∧
        e.cause = e'.cause) ∧
      ∀ sink,
        ((∃ b r m, run b source sink = some (r, m)) ↔ ∃ b r m, run b source' sink = some (r, m)) ∧
          ∀ b b' r r' m m', run b source sink = some (r, m) → run b' source' sink = some (r', m') →
            m = m' ∧ r.mapError Error.eraseLine = r'.mapError Error.eraseLine := by
  have halike := Program.parseAlike_of_kinds hscan hscan' hkinds
  refine ⟨?_, fun sink => ⟨⟨?_, ?_⟩, ?_⟩⟩
  · cases halike with
    | programs h h' heq => exact .inl ⟨_, _, h, h', heq⟩
    | errors h h' heq => exact .inr ⟨_, _, h, h', heq⟩
  · rintro ⟨b, r, m, hrun⟩
    obtain ⟨r', hrun', -⟩ := exists_run_of_runErased_eq (halike.runErased_eq b sink) hrun
    exact ⟨b, r', m, hrun'⟩
  · rintro ⟨b, r', m, hrun'⟩
    obtain ⟨r, hrun, -⟩ := exists_run_of_runErased_eq (halike.runErased_eq b sink).symm hrun'
    exact ⟨b, r, m, hrun⟩
  · intro b b' r r' m m' hrun hrun'
    -- Both runs have ended for the larger budget, as they did for their own.
    have hmax := run_budget_mono (Nat.le_max_left b b') hrun
    have hmax' := run_budget_mono (Nat.le_max_right b b') hrun'
    obtain ⟨s, hs, hsr⟩ := exists_run_of_runErased_eq (halike.runErased_eq (max b b') sink) hmax
    cases hs.symm.trans hmax'
    exact ⟨rfl, hsr.symm⟩

/-- Two prints on one line, and spread over three lines with a comment between them. -/
theorem layout_does_not_matter_across_lines :
    let source := "print 7; print 6 / 0;"
    let source' := "print 7; /* a\n*/ print\n6/0;"
    let ts : List Token := [⟨.keyword .printWord, 1⟩, ⟨.integer 7, 1⟩, ⟨.symbol .semicolon, 1⟩,
      ⟨.keyword .printWord, 1⟩, ⟨.integer 6, 1⟩, ⟨.symbol (.binary (.arith .div)), 1⟩,
      ⟨.integer 0, 1⟩, ⟨.symbol .semicolon, 1⟩]
    let ts' : List Token := [⟨.keyword .printWord, 1⟩, ⟨.integer 7, 1⟩, ⟨.symbol .semicolon, 1⟩,
      ⟨.keyword .printWord, 2⟩, ⟨.integer 6, 3⟩, ⟨.symbol (.binary (.arith .div)), 3⟩,
      ⟨.integer 0, 3⟩, ⟨.symbol .semicolon, 3⟩]
    scan source = .ok ts ∧ scan source' = .ok ts' ∧ ts.map Token.kind = ts'.map Token.kind ∧
      ∃ m m', run 0 source {} = some (.error (.running (.raised .divisionByZero 1)), m) ∧
        run 0 source' {} = some (.error (.running (.raised .divisionByZero 3)), m') ∧ m = m' := by
  intro source source' ts ts'
  have hscan : scan source = .ok ts := by decide +kernel
  have hscan' : scan source' = .ok ts' := by decide +kernel
  have hkinds : ts.map Token.kind = ts'.map Token.kind := by decide
  obtain ⟨m, hrun⟩ :
      ∃ m, run 0 source {} = some (.error (.running (.raised .divisionByZero 1)), m) := by
    have hparse : Program.parse source = .ok [.print (.num 7 1) 1,
        .print (.binary (.num 6 1) (.arith .div) (.num 0 1) 1) 1] := by
      rw [Program.parse, hscan]
      cbv
    rw [run, hparse]
    exact ⟨_, rfl⟩
  obtain ⟨m', hrun'⟩ :
      ∃ m, run 0 source' {} = some (.error (.running (.raised .divisionByZero 3)), m) := by
    have hparse : Program.parse source' = .ok [.print (.num 7 1) 1,
        .print (.binary (.num 6 3) (.arith .div) (.num 0 3) 3) 2] := by
      rw [Program.parse, hscan']
      cbv
    rw [run, hparse]
    exact ⟨_, rfl⟩
  have hsame := (layout_does_not_matter hscan hscan' hkinds).2 {}
  exact ⟨hscan, hscan', hkinds, m, m', hrun, hrun', (hsame.2 0 0 _ _ m m' hrun hrun').1⟩

end Imp32
