import Imp32.Proofs.LayoutIndependence
import Imp32.Proofs.Separation

/-!
# Programs one after another

Two source texts with a line end between them are a program if both are, and it is the statements of
the first and then those of the second, on lines that come after the first (`programs_concatenate`).
Running it is running one and then the other. Only a comment that the first text leaves open stands
in the way.
-/

namespace Imp32

/-! ## The tokens of two texts -/

/-- The tokens of two texts, one on the lines after the other. -/
theorem scan_append {a b : String} {ts us : List Token} (ha : scan a = .ok ts)
    (hb : scan b = .ok us) (hclosed : ¬ EndsInComment a.toList) :
    scan (a ++ "\n" ++ b) =
      .ok (ts ++ us.map (Token.mapLine (· + (1 + a.toList.count '\n')))) := by
  have hnone (text : List Char) (_ : text <:+ a.toList) (_ : text ≠ []) :
      ¬ Lexeme (text ++ ['\n']) := by
    intro hlexeme
    exact hlexeme.lineEnd_not_mem (by simp)
  -- a line comment may be open, since the line end closes it
  have hcut : Scanner.At a.toList (['\n'] ++ b.toList) ts :=
    Scanner.at_of_scan ha hclosed (fun _ => rfl) hnone b.toList
  have hat : Scanner.At (a ++ "\n").toList b.toList ts := by
    rw [String.toList_append]
    exact hcut.gap (.lineEnd b.toList)
  have hcount : (a ++ "\n").toList.count '\n' = 1 + a.toList.count '\n' := by
    rw [String.toList_append, List.count_append, Nat.add_comm]
    rfl
  rw [scan_append_of_at hat, scanAfter_of_ok hb, hcount]

/-! ## Lines of trees -/

namespace Expr

/-- On other lines, the same tokens are the same expression on other lines. -/
theorem Derives.mapLines {rule : Rule} {ts : List Token} {e : Expr} (h : Derives rule ts e)
    (f : Nat → Nat) : Derives rule (ts.map (Token.mapLine f)) (e.mapLines f) := by
  induction h with
  | operand _ ih => exact .operand ih
  | single _ ih => exact .single ih
  | primary _ ih => exact .primary ih
  | assign _ ht hop _ ihl ihr =>
    rw [List.map_append, List.map_cons]
    exact .assign ihl ht hop ihr
  | chain _ ht hop _ ihl ihr =>
    rw [List.map_append, List.map_cons]
    exact .chain ihl ht hop ihr
  | unary ht hop _ ih => exact .unary ht hop ih
  | literal ht => exact .literal ht
  | name ht => exact .name ht
  | parens ht _ hu ih =>
    rw [List.map_append]
    exact .parens ht ih hu

theorem DerivesParens.mapLines {ts : List Token} {e : Expr} (h : DerivesParens ts e)
    (f : Nat → Nat) : DerivesParens (ts.map (Token.mapLine f)) (e.mapLines f) := by
  obtain ⟨ht, h, hu⟩ := h
  rw [List.map_append]
  exact .mk ht (h.mapLines f) hu

theorem DerivesList.mapLines {ts : List Token} {es : List Expr} (h : DerivesList ts es)
    (f : Nat → Nat) :
    DerivesList (ts.map (Token.mapLine f)) (es.map (Expr.mapLines f)) := by
  induction h with
  | last h => exact .last (h.mapLines f)
  | cons h ht _ ih =>
    rw [List.map_append, List.map_cons]
    exact .cons (h.mapLines f) ht ih

end Expr

namespace Stmt

mutual

/-- On other lines, the same tokens are the same statement on other lines. -/
theorem Derives.mapLines {nearest : Bool} {ts : List Token} {s : Stmt} (h : Derives nearest ts s)
    (f : Nat → Nat) : Derives nearest (ts.map (Token.mapLine f)) (s.mapLines f) := by
  match h with
  | .empty ht => exact .empty ht
  | .block ht h hu =>
    rw [List.map_append]
    exact .block ht (DerivesAll.mapLinesAll h f) hu
  | .ifThen ht hc h =>
    rw [List.map_append]
    exact .ifThen ht (hc.mapLines f) (Derives.mapLines h f)
  | .ifElse ht hc h hn hu helse =>
    rw [List.map_append, List.map_append]
    refine .ifElse ht (hc.mapLines f) (Derives.mapLines h f) ?_ hu (Derives.mapLines helse f)
    rwa [endsOpen_mapLines]
  | .whileDo ht hc h =>
    rw [List.map_append]
    exact .whileDo ht (hc.mapLines f) (Derives.mapLines h f)
  | .doWhile ht h hu hc hv =>
    rw [List.map_append, List.map_append]
    exact .doWhile ht (Derives.mapLines h f) hu (hc.mapLines f) hv
  | .forDo ht hu hi hc hv hs hw h =>
    rw [List.map_append, List.map_append, List.map_append]
    exact .forDo ht hu (Derives.mapLines hi f) (hc.mapLines f) hv (hs.mapLines f) hw
      (Derives.mapLines h f)
  | .exprs h hu =>
    rw [List.map_append]
    exact .exprs (h.mapLines f) hu
  | .print ht h hu =>
    rw [List.map_append]
    exact .print ht (h.mapLines f) hu

theorem DerivesAll.mapLinesAll {nearest : Bool} {ts : List Token} {ss : List Stmt}
    (h : DerivesAll nearest ts ss) (f : Nat → Nat) :
    DerivesAll nearest (ts.map (Token.mapLine f)) (Stmt.mapLinesAll f ss) := by
  match h with
  | .nil => exact .nil
  | .cons h hs =>
    rw [List.map_append]
    exact .cons (Derives.mapLines h f) (DerivesAll.mapLinesAll hs f)

end

theorem DerivesAll.append {nearest : Bool} {ts us : List Token} {ss ss' : List Stmt}
    (h : DerivesAll nearest ts ss) (h' : DerivesAll nearest us ss') :
    DerivesAll nearest (ts ++ us) (ss ++ ss') := by
  match h with
  | .nil => exact h'
  | .cons h hs =>
    rw [List.append_assoc]
    exact .cons h (DerivesAll.append hs h')

/-! ## Running -/

theorem execAll_append (budget : Nat) (ss ss' : List Stmt) :
    execAll budget (ss ++ ss') = (execAll budget ss >>= fun _ => execAll budget ss') := by
  induction ss with
  | nil => rw [execAll, pure_bind, List.nil_append]
  | cons s ss ih => simp only [List.cons_append, execAll, ih, bind_assoc]

end Stmt

namespace Program

theorem parse_append {a b : String} {p q : Program} (ha : parse a = .ok p) (hb : parse b = .ok q)
    (hclosed : ¬ EndsInComment a.toList) :
    parse (a ++ "\n" ++ b) = .ok (p ++ q.mapLines (· + (1 + a.toList.count '\n'))) := by
  obtain ⟨ts, hts, hp⟩ := parse_eq_ok_iff.mp ha
  obtain ⟨us, hus, hq⟩ := parse_eq_ok_iff.mp hb
  have hq' := Stmt.DerivesAll.mapLinesAll hq (· + (1 + a.toList.count '\n'))
  rw [Stmt.mapLinesAll_eq_map] at hq'
  exact parse_eq_ok_iff.mpr ⟨_, scan_append hts hus hclosed, Stmt.DerivesAll.append hp hq'⟩

/-- Two source texts, one after the other on lines of its own, are the program of the statements of
both, those of the second on later lines; and its run is the run of the first program, and if that
ends well, the run of the second one from where the first has led. -/
theorem programs_concatenate {a b : String} {p q : Program} (ha : parse a = .ok p)
    (hb : parse b = .ok q) (hclosed : ¬ EndsInComment a.toList) :
    parse (a ++ "\n" ++ b) = .ok (p ++ q.mapLines (· + (1 + a.toList.count '\n'))) ∧
    ∀ budget sink, run budget (a ++ "\n" ++ b) sink =
      match p.exec budget { sink } with
      | none => none
      | some (.error fault, m) => some (.error (.running fault), m)
      | some (.ok (), m) =>
        ((q.mapLines (· + (1 + a.toList.count '\n'))).exec budget m).map fun r =>
          (r.1.mapError .running, r.2) := by
  have hparse := parse_append ha hb hclosed
  refine ⟨hparse, fun budget sink => ?_⟩
  rw [run_of_parse_eq_ok hparse, exec_eq, Stmt.execAll_append, ← exec_eq, ← exec_eq]
  change Option.map _ ((exec budget p { sink }).bind _) = _
  rcases exec budget p { sink } with _ | ⟨_ | _, m⟩
  · rfl
  · rfl
  · rfl

/-- The first text ends in an open branch and a comment on its line; what follows is not its
alternative, and is run in the environment that it leaves. -/
theorem programs_concatenate_after_line_comment :
    let a := "x = 1; if (x) print x; // else"
    let b := "print x;\nprint y;"
    parse (a ++ "\n" ++ b) = .ok [.exprs [.binary (.var "x" 1) .assign (.num 1 1) 1] 1,
      .ifThen (.var "x" 1) (.print (.var "x" 1) 1) 1, .print (.var "x" 2) 2,
      .print (.var "y" 3) 3] ∧
    (run 1 (a ++ "\n" ++ b) {}).map (fun r => (r.1, r.2.sink.written)) =
      some (.error (.running (.raised (.undefinedVariable "y") 3)), "1\n1\n") := by
  intro a b
  have ha : parse a = .ok [.exprs [.binary (.var "x" 1) .assign (.num 1 1) 1] 1,
      .ifThen (.var "x" 1) (.print (.var "x" 1) 1) 1] := by
    have hscan : scan a = .ok [⟨.identifier "x", 1⟩, ⟨.symbol (.binary .assign), 1⟩,
        ⟨.integer 1, 1⟩, ⟨.symbol .semicolon, 1⟩, ⟨.keyword .ifWord, 1⟩, ⟨.symbol .leftParen, 1⟩,
        ⟨.identifier "x", 1⟩, ⟨.symbol .rightParen, 1⟩, ⟨.keyword .printWord, 1⟩,
        ⟨.identifier "x", 1⟩, ⟨.symbol .semicolon, 1⟩] := by decide +kernel
    rw [parse, hscan]
    cbv
  have hb : parse b = .ok [.print (.var "x" 1) 1, .print (.var "y" 2) 2] := by
    have hscan : scan b = .ok [⟨.keyword .printWord, 1⟩, ⟨.identifier "x", 1⟩,
        ⟨.symbol .semicolon, 1⟩, ⟨.keyword .printWord, 2⟩, ⟨.identifier "y", 2⟩,
        ⟨.symbol .semicolon, 2⟩] := by decide +kernel
    rw [parse, hscan]
    cbv
  have hclosed : ¬ EndsInComment a.toList := by
    intro hopen
    obtain ⟨starred, hpending⟩ := hopen.pending
    have hline : (Scanner.feed {} a.toList).map Scanner.pending = .ok .lineComment := by
      decide +kernel
    cases hline.symm.trans hpending
  have hcount : a.toList.count '\n' = 0 := by decide +kernel
  obtain ⟨hparse, hrun⟩ := programs_concatenate ha hb hclosed
  rw [hcount] at hparse hrun
  refine ⟨hparse, ?_⟩
  rw [hrun]
  decide +kernel

end Program

end Imp32
