import Imp32.Proofs.Lookahead
import Imp32.Proofs.PrintedFixpoint

/-!
# Statements that an `else` becomes a part of

`Stmt.endsOpen` is said of a tree, and the parser sees only tokens. The main statement is that they
agree: after the tokens of a printed statement, an `else` is left over if the statement does not end
in an open `if`, and is taken if it does (`Stmt.an_else_is_taken_where_open`). What is taken becomes
the alternative of the innermost open `if` (`Stmt.withElse`). More than one `else` can be taken in
this way, as there may be an open `if` around the one that got its alternative.
-/

namespace Imp32

open Piece Reading

namespace Stmt

/-! ## After the head of a branch or loop -/

theorem reading_parse_if {cs : List Token} {t : Token} {condition : Expr}
    (ht : t.kind = .keyword .ifWord) (hc : Expr.DerivesParens cs condition) (rest : List Token) :
    reading parse (t :: (cs ++ rest)) = (do
      let thenBranch ← reading parse
      ifNext (fun k => if k = .keyword .elseWord then
          some fun _ => do return .ifElse condition thenBranch (← reading parse) t.line
        else none) (pure (.ifThen condition thenBranch t.line)) : Reading Stmt) rest := by
  have hgiven := congrFun (given_reading_parse t) (cs ++ rest)
  simp only [ht, reading_parseIf] at hgiven
  have hparens := reading_eq_ok_iff.mpr (hc.parse t.line rest)
  exact hgiven.trans (bind_of_ok hparens _)

theorem reading_parse_while {cs : List Token} {t : Token} {condition : Expr}
    (ht : t.kind = .keyword .whileWord) (hc : Expr.DerivesParens cs condition)
    (rest : List Token) :
    reading parse (t :: (cs ++ rest)) = (do
      return .whileDo condition (← reading parse) t.line : Reading Stmt) rest := by
  have hgiven := congrFun (given_reading_parse t) (cs ++ rest)
  simp only [ht, reading_parseWhile] at hgiven
  have hparens := reading_eq_ok_iff.mpr (hc.parse t.line rest)
  exact hgiven.trans (bind_of_ok hparens _)

theorem reading_parse_for {is cs ss : List Token} {t u v w : Token} {condition step : Expr}
    {init : Stmt} (ht : t.kind = .keyword .forWord) (hu : u.kind = .symbol .leftParen)
    (hi : Derives true is init) (hc : Expr.Derives .assignment cs condition)
    (hv : v.kind = .symbol .semicolon) (hs : Expr.Derives .assignment ss step)
    (hw : w.kind = .symbol .rightParen) (rest : List Token) :
    reading parse (t :: u :: (is ++ (cs ++ v :: (ss ++ w :: rest)))) = (do
      return .forDo init condition step (← reading parse) t.line : Reading Stmt) rest := by
  have hgiven := congrFun (given_reading_parse t) (u :: (is ++ (cs ++ v :: (ss ++ w :: rest))))
  simp only [ht, reading_parseFor] at hgiven
  have hcond : NotNext Token.Kind.IsBinary (v :: (ss ++ w :: rest)) := by
    simp [Token.Kind.IsBinary, hv]
  have hstep : NotNext Token.Kind.IsBinary (w :: rest) := by simp [Token.Kind.IsBinary, hw]
  have hinit := notNext_else_of_derives hc (v :: (ss ++ w :: rest))
  rw [bind_of_ok ((reading_expect_cons ..).trans (if_pos hu)),
    bind_of_ok (reading_eq_ok_iff.mpr (hi.parse _ fun _ => hinit)),
    bind_of_ok (reading_eq_ok_iff.mpr (hc.parse hcond)),
    bind_of_ok ((reading_expect_cons ..).trans (if_pos hv)),
    bind_of_ok (reading_eq_ok_iff.mpr (hs.parse hstep)),
    bind_of_ok ((reading_expectCloseParen_cons ..).trans (if_pos hw))] at hgiven
  exact hgiven

/-- After the statement and an `else`, an error in what should be the alternative is an error of the
whole. -/
theorem Derives.fails_after_else {ts us rest : List Token} {s : Stmt} {u : Token} {e : SyntaxError}
    (h : Derives true ts s) (hopen : s.endsOpen = true) (hu : u.kind = .keyword .elseWord)
    (hfail : reading Stmt.parse us = (.error e, rest)) :
    reading Stmt.parse (ts ++ u :: us) = (.error e, rest) := by
  cases h with
  | @ifThen cs ts t condition thenBranch ht hc h =>
    rw [List.cons_append, List.cons_append, List.append_assoc, reading_parse_if ht hc]
    by_cases hinner : thenBranch.endsOpen = true
    · have ih := Derives.fails_after_else h hinner hu hfail
      exact bind_eq_error_iff.mpr (.inl ih)
    · -- the branch stops before the `else`, which is then taken for the `if` itself
      have hbranch := reading_eq_ok_iff.mpr (h.parse (u :: us) fun ho => absurd ho hinner)
      rw [bind_of_ok hbranch]
      simp only [ifNext, hu, if_true]
      exact bind_eq_error_iff.mpr (.inl hfail)
  | @ifElse cs ts vs t v condition thenBranch elseBranch ht hc h hn hv helse =>
    have ih := Derives.fails_after_else helse hopen hu hfail
    have hclosed : thenBranch.endsOpen = false := hn rfl
    have hbranch := reading_eq_ok_iff.mpr
      (h.parse (v :: (vs ++ u :: us)) fun ho => absurd ho (by simp [hclosed]))
    have hts : t :: cs ++ ts ++ v :: vs ++ u :: us = t :: (cs ++ (ts ++ v :: (vs ++ u :: us))) := by
      simp
    rw [hts, reading_parse_if ht hc, bind_of_ok hbranch]
    simp only [ifNext, hv, if_true]
    exact bind_eq_error_iff.mpr (.inl ih)
  | @whileDo cs ts t condition body ht hc h =>
    have ih := Derives.fails_after_else h hopen hu hfail
    rw [List.cons_append, List.cons_append, List.append_assoc, reading_parse_while ht hc]
    exact bind_eq_error_iff.mpr (.inl ih)
  | @forDo is cs ss ts t v w x condition step init body ht hv hi hc hw hs hx h =>
    have ih := Derives.fails_after_else h hopen hu hfail
    have hts : t :: v :: is ++ cs ++ w :: ss ++ x :: ts ++ u :: us =
        t :: v :: (is ++ (cs ++ w :: (ss ++ x :: (ts ++ u :: us)))) := by simp
    rw [hts, reading_parse_for ht hv hi hc hw hs hx]
    exact bind_eq_error_iff.mpr (.inl ih)
  | empty _ => simp [endsOpen] at hopen
  | block _ _ _ => simp [endsOpen] at hopen
  | doWhile _ _ _ _ _ => simp [endsOpen] at hopen
  | exprs _ _ => simp [endsOpen] at hopen
  | print _ _ _ => simp [endsOpen] at hopen

/-! ## What becomes of an `else` -/

/-- Before the tokens `us`, the `else` is taken by the statement `s` that stands before it. -/
structure TakesElse (used : List Token) (s : Stmt) (u : Token) (us : List Token) : Prop where
  /-- The `else` is not left over, neither after a success nor after a failure. -/
  taken : (parse (used ++ u :: us)).rest <:+ us
  /-- A failure in the alternative is one of the whole. -/
  fails : ∀ e rest, parse us = .fail e rest → parse (used ++ u :: us) = .fail e rest
  /-- The alternative goes to the innermost open `if`. -/
  gives : ∀ elseBranch rest, (parse us).Yields elseBranch rest →
    NotNext (· = .keyword .elseWord) rest →
    (parse (used ++ u :: us)).Yields (s.withElse elseBranch) rest
  /-- The tree is that of the statement, with one alternative or more. -/
  part : ∀ s' rest, (parse (used ++ u :: us)).Yields s' rest →
    ∃ elseBranch others, s' = (elseBranch :: others).foldl withElse s

/-- An `else` is left over by the tokens of a statement that does not end in an open `if`. -/
theorem Derives.leaves_else {ts : List Token} {s : Stmt} (h : Derives true ts s)
    (hclosed : s.endsOpen = false) (rest : List Token) : (Stmt.parse (ts ++ rest)).Yields s rest := by
  refine h.parse rest fun hopen => ?_
  rw [hclosed] at hopen
  cases hopen

/-- One alternative after another is taken, up to one that fails or where no `if` is left open. -/
theorem Derives.outcome_after_else {ts : List Token} {s : Stmt} {u : Token} (h : Derives true ts s)
    (hopen : s.endsOpen = true) (hu : u.kind = .keyword .elseWord) (us : List Token) :
    (∃ e rest, reading Stmt.parse (ts ++ u :: us) = (.error e, rest) ∧ rest <:+ us) ∨
      ∃ elseBranch others rest, rest <:+ us ∧
        (Stmt.parse (ts ++ u :: us)).Yields ((elseBranch :: others).foldl Stmt.withElse s) rest := by
  rcases hus : reading Stmt.parse us with ⟨e | b, rest⟩
  · have hsuffix : (reading Stmt.parse us).2 <:+ us := by
      have hrest := Nonterminal.stmt.rest_suffix us
      rwa [Parsed.rest_eq_outcome] at hrest
    rw [hus] at hsuffix
    exact .inl ⟨e, rest, h.fails_after_else hopen hu hus, hsuffix⟩
  · obtain ⟨used, hused, hb, -⟩ := parse_accounts (reading_eq_ok_iff.mp hus)
    have hd := h.withElse hopen hu hb
    have hts : ts ++ u :: us = ts ++ u :: ([] ++ used) ++ rest := by simp [hused]
    have hrest : rest <:+ us := ⟨used, hused.symm⟩
    rw [hts]
    by_cases hagain : (s.withElse b).endsOpen = true ∧
        ∃ v vs, rest = v :: vs ∧ v.kind = .keyword .elseWord
    · -- an `if` around the one that got its alternative takes the next `else`
      obtain ⟨hopen', v, vs, hvs, hv⟩ := hagain
      have hshorter : vs.length < us.length := by
        have hlt := length_lt_of_reading hus
        rw [hvs, List.length_cons] at hlt
        omega
      have hsuffix : vs <:+ us := (List.suffix_cons v vs).trans (hvs ▸ hrest)
      rw [hvs]
      rcases Derives.outcome_after_else hd hopen' hv vs with
        ⟨e, left, herror, hleft⟩ | ⟨b', others, left, hleft, hyields⟩
      · exact .inl ⟨e, left, herror, hleft.trans hsuffix⟩
      · exact .inr ⟨b, b' :: others, left, hleft.trans hsuffix, hyields⟩
    · refine .inr ⟨b, [], rest, hrest, hd.parse rest fun hopen' => ?_⟩
      intro v hv hk
      obtain ⟨vs, hvs⟩ := List.head?_eq_some_iff.mp hv
      exact hagain ⟨hopen', v, vs, hvs, hk⟩
termination_by us.length

theorem Derives.takesElse {ts : List Token} {s : Stmt} {u : Token} (h : Derives true ts s)
    (hopen : s.endsOpen = true) (hu : u.kind = .keyword .elseWord) (us : List Token) :
    TakesElse ts s u us where
  taken := by
    rw [Parsed.rest_eq_outcome]
    change (reading Stmt.parse (ts ++ u :: us)).2 <:+ us
    rcases h.outcome_after_else hopen hu us with ⟨e, rest, herror, hrest⟩ | ⟨b, bs, rest, hrest, hyields⟩
    · rw [herror]
      exact hrest
    · rw [reading_eq_ok_iff.mpr hyields]
      exact hrest
  fails := by
    intro e rest hfail
    exact reading_eq_error_iff.mp (h.fails_after_else hopen hu (reading_eq_error_iff.mpr hfail))
  gives := by
    intro b rest hb hnext
    obtain ⟨used, rfl, hd, -⟩ := parse_accounts hb
    have hts : ts ++ u :: (used ++ rest) = ts ++ u :: used ++ rest := by simp
    rw [hts]
    exact (h.withElse hopen hu hd).parse rest fun _ => hnext
  part := by
    intro s' rest hs'
    have hok := reading_eq_ok_iff.mpr hs'
    rcases h.outcome_after_else hopen hu us with ⟨e, left, herror, -⟩ | ⟨b, bs, left, -, hyields⟩
    · cases herror.symm.trans hok
    · cases (reading_eq_ok_iff.mpr hyields).symm.trans hok
      exact ⟨b, bs, rfl⟩

/-! ## Printed statements -/

/-- Every `else` after the tokens is taken, whatever follows it. -/
def CapturesElse (used : List Token) : Prop :=
  ∀ u us, u.kind = .keyword .elseWord → (parse (used ++ u :: us)).rest <:+ us

/-- A branch with an alternative, where the layout of what stands before its `else` is given. -/
def layoutAround (depth : Nat) (condition : Expr) (pieces : List Piece) (elseBranch : Stmt) :
    List Piece :=
  .word .ifWord :: .space :: condition.layoutParens ++ .space :: pieces ++
    .space :: .word .elseWord :: .space :: elseBranch.layout depth

theorem layout_ifElse (condition : Expr) (s elseBranch : Stmt) (line depth : Nat) :
    (ifElse condition s elseBranch line).layout depth =
      layoutAround depth condition
        (if s.endsOpen then (block [s] line).layout depth else s.layout depth) elseBranch := by
  simp [layout, layoutLines, layoutAround]

theorem Derives.capturesElse_iff {ts : List Token} {s : Stmt} (h : Derives true ts s) :
    CapturesElse ts ↔ s.endsOpen = true := by
  constructor
  · intro hcaptures
    by_contra hopen
    have hclosed : s.endsOpen = false := by simpa using hopen
    have hsuffix := hcaptures ⟨.keyword .elseWord, 0⟩ [] rfl
    obtain ⟨hlt, hparse⟩ := h.leaves_else hclosed [⟨.keyword .elseWord, 0⟩]
    rw [hparse] at hsuffix
    exact absurd hsuffix.length_le (by simp [Parsed.rest])
  · intro hopen u us hu
    exact (h.takesElse hopen hu us).taken

theorem render_eq_of_eraseLines {s s' : Stmt} (hliteral : ∀ n ∈ s.exprNodes, n.Literal)
    (h : s'.eraseLines = s.normalize.eraseLines) : s'.render = s.render := by
  have hlayout := congrArg (layout 0) h
  rw [eraseLines, eraseLines, layout_mapLines, layout_mapLines, layout_normalize hliteral] at hlayout
  rw [render, render, hlayout]

/-- The tokens of a printed statement are parsed to a statement of the same text. If the statement
does not end in an open `if`, this is so before an `else` too, which is left over with all that
follows; and if it does, the `else` is taken. A branch is printed in braces exactly if the `else`
after it would be taken by it. -/
theorem an_else_is_taken_where_open {s : Stmt} (hnamed : ∀ n ∈ s.exprNodes, n.Named)
    (hliteral : ∀ line, .num Int32.minValue line ∉ s.exprNodes) :
    ∃ used s', scan s.render = .ok used ∧ (parse used).Yields s' [] ∧ s'.render = s.render ∧
      (∀ u us, u.kind = .keyword .elseWord →
        (s.endsOpen = false → (parse (used ++ u :: us)).Yields s' (u :: us)) ∧
        (s.endsOpen = true → TakesElse used s' u us)) ∧
      ∀ condition elseBranch line depth,
        (CapturesElse used → (ifElse condition s elseBranch line).layout depth =
          layoutAround depth condition ((block [s] line).layout depth) elseBranch) ∧
        (¬ CapturesElse used → (ifElse condition s elseBranch line).layout depth =
          layoutAround depth condition (s.layout depth) elseBranch) := by
  have hliteral' : ∀ n ∈ s.exprNodes, n.Literal := Expr.forall_literal_iff.mpr hliteral
  obtain ⟨used, hscan, hkinds⟩ := Piece.scan_render (scannable_layout hnamed 0)
  have hsame : used.map Token.kind = (tokens (s.layout 0)).map Token.kind := by
    rw [hkinds, map_kind_tokens]
  obtain ⟨s', hd, hs'⟩ := (derives_layout hliteral' 0).relabel hsame
  rw [eraseLines_eraseLines] at hs'
  have hends : s'.endsOpen = s.endsOpen := by
    rw [endsOpen_eq_of_eraseLines hs', endsOpen_normalize]
  have hparse : (parse used).Yields s' [] := by
    have hparse := hd.parse [] fun _ => notNext_nil _
    rwa [List.append_nil] at hparse
  refine ⟨used, s', hscan, hparse, render_eq_of_eraseLines hliteral' hs', ?_, ?_⟩
  · intro u us hu
    rw [← hends]
    exact ⟨fun hclosed => hd.leaves_else hclosed (u :: us), fun hopen => hd.takesElse hopen hu us⟩
  · intro condition elseBranch line depth
    rw [layout_ifElse, hd.capturesElse_iff, hends]
    refine ⟨fun hopen => ?_, fun hclosed => ?_⟩
    · rw [if_pos hopen]
    · rw [if_neg hclosed]

/-- Open branches inside of one another: where they are put in braces or stand before the `while` of
a loop, an `else` after them is left over; as the body of a loop they take it, and so the loop is
put in braces itself. -/
theorem an_else_is_taken_where_open_nested :
    let x : Expr := .var "x" 1
    let branch : Stmt := .ifThen x (.whileDo x (.ifThen x (.empty 1) 1) 1) 1
    let closed : Stmt := .ifElse x branch (.doWhile branch x 1) 1
    let loop : Stmt := .forDo branch x x branch 1
    let u : Token := ⟨.keyword .elseWord, 1⟩
    (∃ used s', scan closed.render = .ok used ∧ s'.render = closed.render ∧
      ∀ us, (parse (used ++ u :: us)).Yields s' (u :: us)) ∧
    ∃ used s', scan loop.render = .ok used ∧ s'.render = loop.render ∧
      (∀ us, TakesElse used s' u us) ∧
      (ifElse x loop (.empty 1) 1).layout 0 =
        layoutAround 0 x ((block [loop] 1).layout 0) (.empty 1) := by
  intro x branch closed loop u
  have hclosed : ∀ n ∈ closed.exprNodes, n.Named := by
    simp [closed, branch, x, exprNodes, Expr.nodes, Expr.Named]
    decide
  have hloop : ∀ n ∈ loop.exprNodes, n.Named := by
    simp [loop, branch, x, exprNodes, Expr.nodes, Expr.Named]
    decide
  obtain ⟨used, s', hscan, -, hrender, helse, -⟩ := an_else_is_taken_where_open hclosed
    (by simp [closed, branch, x, exprNodes, Expr.nodes])
  obtain ⟨used', s'', hscan', -, hrender', helse', hbraces⟩ := an_else_is_taken_where_open hloop
    (by simp [loop, branch, x, exprNodes, Expr.nodes])
  have htakes (us : List Token) (v : Token) (hv : v.kind = .keyword .elseWord) :
      TakesElse used' s'' v us := (helse' v us hv).2 rfl
  refine ⟨⟨used, s', hscan, hrender, fun us => (helse u us rfl).1 rfl⟩, used', s'', hscan',
    hrender', fun us => htakes us u rfl, ?_⟩
  exact (hbraces x (.empty 1) 1 0).1 fun v us hv => (htakes us v hv).taken

end Stmt

end Imp32
