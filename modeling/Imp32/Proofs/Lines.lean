import Imp32.Proofs.Grammar

/-!
# Lines

Changing the lines of a tree. Trees that are equal up to lines are those with equal `eraseLines`.

The grammar looks at the kinds of tokens only. So if a tree is derived from some tokens, then from
any tokens of the same kinds a tree is derived that is equal to it up to lines.
-/

namespace Imp32

namespace Expr

/-- Changes every line of an expression. -/
def mapLines (f : Nat → Nat) : Expr → Expr
  | .num value line => .num value (f line)
  | .var name line => .var name (f line)
  | .unary op operand line => .unary op (operand.mapLines f) (f line)
  | .binary left op right line => .binary (left.mapLines f) op (right.mapLines f) (f line)

/-- The expression with line zero everywhere. -/
def eraseLines (e : Expr) : Expr := e.mapLines fun _ => 0

theorem mapLines_mapLines (f g : Nat → Nat) (e : Expr) :
    (e.mapLines f).mapLines g = e.mapLines (g ∘ f) := by
  induction e with
  | num value line => rfl
  | var name line => rfl
  | unary op operand line ih => simp only [mapLines, ih, Function.comp_apply]
  | binary left op right line ihl ihr => simp only [mapLines, ihl, ihr, Function.comp_apply]

end Expr

namespace Stmt

mutual

/-- Changes every line of a statement. -/
def mapLines (f : Nat → Nat) : Stmt → Stmt
  | .empty line => .empty (f line)
  | .block body line => .block (mapLinesAll f body) (f line)
  | .ifThen condition thenBranch line =>
    .ifThen (condition.mapLines f) (thenBranch.mapLines f) (f line)
  | .ifElse condition thenBranch elseBranch line =>
    .ifElse (condition.mapLines f) (thenBranch.mapLines f) (elseBranch.mapLines f) (f line)
  | .whileDo condition body line => .whileDo (condition.mapLines f) (body.mapLines f) (f line)
  | .doWhile body condition line => .doWhile (body.mapLines f) (condition.mapLines f) (f line)
  | .forDo init condition step body line =>
    .forDo (init.mapLines f) (condition.mapLines f) (step.mapLines f) (body.mapLines f) (f line)
  | .exprs list line => .exprs (list.map (Expr.mapLines f)) (f line)
  | .print value line => .print (value.mapLines f) (f line)

/-- Changes every line of some statements. -/
def mapLinesAll (f : Nat → Nat) : List Stmt → List Stmt
  | [] => []
  | s :: ss => s.mapLines f :: mapLinesAll f ss

end

/-- The statement with line zero everywhere. -/
def eraseLines (s : Stmt) : Stmt := s.mapLines fun _ => 0

theorem mapLinesAll_eq_map (f : Nat → Nat) (ss : List Stmt) :
    mapLinesAll f ss = ss.map (mapLines f) := by
  induction ss with
  | nil => rfl
  | cons s ss ih => rw [mapLinesAll, ih, List.map_cons]

mutual

theorem mapLines_mapLines (f g : Nat → Nat) (s : Stmt) :
    (s.mapLines f).mapLines g = s.mapLines (g ∘ f) := by
  match s with
  | .empty _ => rfl
  | .block body _ => simp only [mapLines, mapLinesAll_mapLinesAll f g body, Function.comp_apply]
  | .ifThen condition thenBranch _ =>
    simp only [mapLines, Expr.mapLines_mapLines, mapLines_mapLines f g thenBranch,
      Function.comp_apply]
  | .ifElse condition thenBranch elseBranch _ =>
    simp only [mapLines, Expr.mapLines_mapLines, mapLines_mapLines f g thenBranch,
      mapLines_mapLines f g elseBranch, Function.comp_apply]
  | .whileDo condition body _ =>
    simp only [mapLines, Expr.mapLines_mapLines, mapLines_mapLines f g body, Function.comp_apply]
  | .doWhile body condition _ =>
    simp only [mapLines, Expr.mapLines_mapLines, mapLines_mapLines f g body, Function.comp_apply]
  | .forDo init condition step body _ =>
    simp only [mapLines, Expr.mapLines_mapLines, mapLines_mapLines f g init,
      mapLines_mapLines f g body, Function.comp_apply]
  | .exprs list _ =>
    simp only [mapLines, List.map_map, Function.comp_def, Expr.mapLines_mapLines]
  | .print value _ => simp only [mapLines, Expr.mapLines_mapLines, Function.comp_apply]

theorem mapLinesAll_mapLinesAll (f g : Nat → Nat) (ss : List Stmt) :
    mapLinesAll g (mapLinesAll f ss) = mapLinesAll (g ∘ f) ss := by
  match ss with
  | [] => rfl
  | s :: ss =>
    simp only [mapLinesAll, mapLines_mapLines f g s, mapLinesAll_mapLinesAll f g ss]

end

@[simp] theorem endsOpen_mapLines (f : Nat → Nat) (s : Stmt) :
    (s.mapLines f).endsOpen = s.endsOpen := by
  fun_induction endsOpen s <;> simp_all [mapLines, endsOpen]

@[simp] theorem eraseLines_eraseLines (s : Stmt) : s.eraseLines.eraseLines = s.eraseLines :=
  s.mapLines_mapLines _ _

theorem endsOpen_eq_of_eraseLines {s s' : Stmt} (h : s.eraseLines = s'.eraseLines) :
    s.endsOpen = s'.endsOpen := by
  have h' := congrArg endsOpen h
  simpa only [eraseLines, endsOpen_mapLines] using h'

end Stmt

namespace Program

/-- Changes every line of a program. -/
def mapLines (f : Nat → Nat) (p : Program) : Program := p.map (Stmt.mapLines f)

/-- The program with line zero everywhere. -/
def eraseLines (p : Program) : Program := p.map Stmt.eraseLines

@[simp] theorem eraseLines_eraseLines (p : Program) : p.eraseLines.eraseLines = p.eraseLines := by
  rw [eraseLines, eraseLines, List.map_map]
  exact List.map_congr_left fun s _ => s.eraseLines_eraseLines

end Program

/-! ## Tokens of the same kinds -/

namespace Expr

/-- An expression is derived from all tokens of the same kinds, up to lines. -/
theorem Derives.relabel {rule : Rule} {ts : List Token} {e : Expr} (h : Derives rule ts e) :
    ∀ us : List Token, us.map Token.kind = ts.map Token.kind →
      ∃ e', Derives rule us e' ∧ e'.eraseLines = e.eraseLines := by
  induction h with
  | operand _ ih =>
    intro us hus
    obtain ⟨e', hd, he⟩ := ih us hus
    exact ⟨e', .operand hd, he⟩
  | single _ ih =>
    intro us hus
    obtain ⟨e', hd, he⟩ := ih us hus
    exact ⟨e', .single hd, he⟩
  | primary _ ih =>
    intro us hus
    obtain ⟨e', hd, he⟩ := ih us hus
    exact ⟨e', .primary hd, he⟩
  | assign _ ht hop _ ihleft ihright =>
    intro us hus
    simp only [List.map_append, List.map_cons, List.map_eq_append_iff, List.map_eq_cons_iff] at hus
    obtain ⟨ts', _, rfl, hts, t', us', rfl, ht', hus⟩ := hus
    obtain ⟨left', hdl, hl⟩ := ihleft ts' hts
    obtain ⟨right', hdr, hr⟩ := ihright us' hus
    refine ⟨_, .assign hdl (ht'.trans ht) hop hdr, ?_⟩
    simp only [eraseLines, mapLines] at hl hr ⊢
    rw [hl, hr]
  | chain _ ht hop _ ihleft ihright =>
    intro us hus
    simp only [List.map_append, List.map_cons, List.map_eq_append_iff, List.map_eq_cons_iff] at hus
    obtain ⟨ts', _, rfl, hts, t', us', rfl, ht', hus⟩ := hus
    obtain ⟨left', hdl, hl⟩ := ihleft ts' hts
    obtain ⟨right', hdr, hr⟩ := ihright us' hus
    refine ⟨_, .chain hdl (ht'.trans ht) hop hdr, ?_⟩
    simp only [eraseLines, mapLines] at hl hr ⊢
    rw [hl, hr]
  | unary ht hop _ ih =>
    intro us hus
    simp only [List.map_cons, List.map_eq_cons_iff] at hus
    obtain ⟨t', us', rfl, ht', hus⟩ := hus
    obtain ⟨e', hd, he⟩ := ih us' hus
    refine ⟨_, .unary (ht'.trans ht) hop hd, ?_⟩
    simp only [eraseLines, mapLines] at he ⊢
    rw [he]
  | literal ht =>
    intro us hus
    simp only [List.map_cons, List.map_nil, List.map_eq_cons_iff, List.map_eq_nil_iff] at hus
    obtain ⟨t', _, rfl, ht', rfl⟩ := hus
    exact ⟨_, .literal (ht'.trans ht), rfl⟩
  | name ht =>
    intro us hus
    simp only [List.map_cons, List.map_nil, List.map_eq_cons_iff, List.map_eq_nil_iff] at hus
    obtain ⟨t', _, rfl, ht', rfl⟩ := hus
    exact ⟨_, .name (ht'.trans ht), rfl⟩
  | parens ht _ hu ih =>
    intro us hus
    simp only [List.cons_append, List.map_append, List.map_cons, List.map_nil,
      List.map_eq_append_iff, List.map_eq_cons_iff, List.map_eq_nil_iff] at hus
    obtain ⟨t', _, rfl, ht', us', _, rfl, hus, u', _, rfl, hu', rfl⟩ := hus
    obtain ⟨e', hd, he⟩ := ih us' hus
    exact ⟨e', .parens (ht'.trans ht) hd (hu'.trans hu), he⟩

theorem DerivesParens.relabel {ts us : List Token} {e : Expr} (h : DerivesParens ts e)
    (hus : us.map Token.kind = ts.map Token.kind) :
    ∃ e', DerivesParens us e' ∧ e'.eraseLines = e.eraseLines := by
  obtain ⟨ht, h, hu⟩ := h
  simp only [List.cons_append, List.map_append, List.map_cons, List.map_nil,
    List.map_eq_append_iff, List.map_eq_cons_iff, List.map_eq_nil_iff] at hus
  obtain ⟨t', _, rfl, ht', us', _, rfl, hus, u', _, rfl, hu', rfl⟩ := hus
  obtain ⟨e', hd, he⟩ := h.relabel us' hus
  exact ⟨e', .mk (ht'.trans ht) hd (hu'.trans hu), he⟩

theorem DerivesList.relabel {ts : List Token} {es : List Expr} (h : DerivesList ts es) :
    ∀ us : List Token, us.map Token.kind = ts.map Token.kind →
      ∃ es', DerivesList us es' ∧ es'.map eraseLines = es.map eraseLines := by
  induction h with
  | last h =>
    intro us hus
    obtain ⟨e', hd, he⟩ := h.relabel us hus
    exact ⟨[e'], .last hd, by simp [he]⟩
  | cons h ht _ ih =>
    intro us hus
    simp only [List.map_append, List.map_cons, List.map_eq_append_iff, List.map_eq_cons_iff] at hus
    obtain ⟨ts', _, rfl, hts, t', us', rfl, ht', hus⟩ := hus
    obtain ⟨e', hd, he⟩ := h.relabel ts' hts
    obtain ⟨es', hds, hes⟩ := ih us' hus
    exact ⟨e' :: es', .cons hd (ht'.trans ht) hds, by simp [he, hes]⟩

end Expr

namespace Stmt

mutual

/-- A statement is derived from all tokens of the same kinds, up to lines. -/
theorem Derives.relabel {nearest : Bool} {ts us : List Token} {s : Stmt}
    (h : Derives nearest ts s) (hus : us.map Token.kind = ts.map Token.kind) :
    ∃ s', Derives nearest us s' ∧ s'.eraseLines = s.eraseLines := by
  match h with
  | .empty ht =>
    simp only [List.map_cons, List.map_nil, List.map_eq_cons_iff, List.map_eq_nil_iff] at hus
    obtain ⟨t', _, rfl, ht', rfl⟩ := hus
    exact ⟨_, .empty (ht'.trans ht), rfl⟩
  | .block ht h hu =>
    simp only [List.cons_append, List.map_append, List.map_cons, List.map_nil,
      List.map_eq_append_iff, List.map_eq_cons_iff, List.map_eq_nil_iff] at hus
    obtain ⟨t', _, rfl, ht', us', _, rfl, hus, u', _, rfl, hu', rfl⟩ := hus
    obtain ⟨body', hd, hbody⟩ := DerivesAll.relabel h hus
    refine ⟨_, .block (ht'.trans ht) hd (hu'.trans hu), ?_⟩
    simp only [eraseLines, mapLines, hbody]
  | .ifThen ht hc h =>
    simp only [List.cons_append, List.map_append, List.map_cons, List.map_eq_append_iff,
      List.map_eq_cons_iff] at hus
    obtain ⟨t', _, rfl, ht', cs', us', rfl, hcs, hus⟩ := hus
    obtain ⟨c', hdc, hc'⟩ := hc.relabel hcs
    obtain ⟨s', hd, hs'⟩ := Derives.relabel h hus
    refine ⟨_, .ifThen (ht'.trans ht) hdc hd, ?_⟩
    simp only [eraseLines, Expr.eraseLines, mapLines] at hc' hs' ⊢
    rw [hc', hs']
  | .ifElse ht hc h hn hu helse =>
    simp only [List.cons_append, List.append_assoc, List.map_append, List.map_cons,
      List.map_eq_append_iff, List.map_eq_cons_iff] at hus
    obtain ⟨t', _, rfl, ht', cs', _, rfl, hcs, ts', _, rfl, hts, u', us', rfl, hu', hus⟩ := hus
    obtain ⟨c', hdc, hc'⟩ := hc.relabel hcs
    obtain ⟨s', hd, hs'⟩ := Derives.relabel h hts
    obtain ⟨e', hde, he'⟩ := Derives.relabel helse hus
    have hn' : nearest = true → s'.endsOpen = false := fun hnear => by
      rw [endsOpen_eq_of_eraseLines hs', hn hnear]
    have hif := Derives.ifElse (ht'.trans ht) hdc hd hn' (hu'.trans hu) hde
    refine ⟨_, by simpa using hif, ?_⟩
    simp only [eraseLines, Expr.eraseLines, mapLines] at hc' hs' he' ⊢
    rw [hc', hs', he']
  | .whileDo ht hc h =>
    simp only [List.cons_append, List.map_append, List.map_cons, List.map_eq_append_iff,
      List.map_eq_cons_iff] at hus
    obtain ⟨t', _, rfl, ht', cs', us', rfl, hcs, hus⟩ := hus
    obtain ⟨c', hdc, hc'⟩ := hc.relabel hcs
    obtain ⟨s', hd, hs'⟩ := Derives.relabel h hus
    refine ⟨_, .whileDo (ht'.trans ht) hdc hd, ?_⟩
    simp only [eraseLines, Expr.eraseLines, mapLines] at hc' hs' ⊢
    rw [hc', hs']
  | .doWhile ht h hu hc hv =>
    simp only [List.cons_append, List.append_assoc, List.map_append, List.map_cons, List.map_nil,
      List.map_eq_append_iff, List.map_eq_cons_iff, List.map_eq_nil_iff] at hus
    obtain ⟨t', _, rfl, ht', ts', _, rfl, hts, u', _, rfl, hu', cs', _, rfl, hcs, v', _, rfl, hv',
      rfl⟩ := hus
    obtain ⟨s', hd, hs'⟩ := Derives.relabel h hts
    obtain ⟨c', hdc, hc'⟩ := hc.relabel hcs
    have hdo := Derives.doWhile (ht'.trans ht) hd (hu'.trans hu) hdc (hv'.trans hv)
    refine ⟨_, by simpa using hdo, ?_⟩
    simp only [eraseLines, Expr.eraseLines, mapLines] at hc' hs' ⊢
    rw [hc', hs']
  | .forDo ht hu hi hc hv hs hw h =>
    simp only [List.cons_append, List.append_assoc, List.map_append, List.map_cons,
      List.map_eq_append_iff, List.map_eq_cons_iff] at hus
    obtain ⟨t', _, rfl, ht', u', _, rfl, hu', is', _, rfl, his, cs', _, rfl, hcs, v', _, rfl, hv',
      ss', _, rfl, hss, w', us', rfl, hw', hus⟩ := hus
    obtain ⟨i', hdi, hi'⟩ := Derives.relabel hi his
    obtain ⟨c', hdc, hc'⟩ := hc.relabel cs' hcs
    obtain ⟨st', hds, hst'⟩ := hs.relabel ss' hss
    obtain ⟨b', hd, hb'⟩ := Derives.relabel h hus
    have hfor := Derives.forDo (ht'.trans ht) (hu'.trans hu) hdi hdc (hv'.trans hv) hds
      (hw'.trans hw) hd
    refine ⟨_, by simpa using hfor, ?_⟩
    simp only [eraseLines, Expr.eraseLines, mapLines] at hi' hc' hst' hb' ⊢
    rw [hi', hc', hst', hb']
  | .exprs h hu =>
    simp only [List.map_append, List.map_cons, List.map_nil, List.map_eq_append_iff,
      List.map_eq_cons_iff, List.map_eq_nil_iff] at hus
    obtain ⟨_, _, rfl, ⟨t', ts', rfl, ht', hts⟩, u', _, rfl, hu', rfl⟩ := hus
    obtain ⟨list', hd, hlist⟩ := h.relabel (t' :: ts') (by simp [ht', hts])
    refine ⟨_, .exprs hd (hu'.trans hu), ?_⟩
    simp only [eraseLines, mapLines]
    exact congrArg (Stmt.exprs · 0) hlist
  | .print ht h hu =>
    simp only [List.cons_append, List.map_append, List.map_cons, List.map_nil,
      List.map_eq_append_iff, List.map_eq_cons_iff, List.map_eq_nil_iff] at hus
    obtain ⟨t', _, rfl, ht', us', _, rfl, hus, u', _, rfl, hu', rfl⟩ := hus
    obtain ⟨e', hd, he⟩ := h.relabel us' hus
    refine ⟨_, .print (ht'.trans ht) hd (hu'.trans hu), ?_⟩
    simp only [eraseLines, Expr.eraseLines, mapLines] at he ⊢
    rw [he]

theorem DerivesAll.relabel {nearest : Bool} {ts us : List Token} {ss : List Stmt}
    (h : DerivesAll nearest ts ss) (hus : us.map Token.kind = ts.map Token.kind) :
    ∃ ss', DerivesAll nearest us ss' ∧
      mapLinesAll (fun _ => 0) ss' = mapLinesAll (fun _ => 0) ss := by
  match h with
  | .nil =>
    simp only [List.map_nil, List.map_eq_nil_iff] at hus
    subst hus
    exact ⟨_, .nil, rfl⟩
  | .cons h hs =>
    simp only [List.map_append, List.map_eq_append_iff] at hus
    obtain ⟨ts', us', rfl, hts, hus⟩ := hus
    obtain ⟨s', hd, hs'⟩ := Derives.relabel h hts
    obtain ⟨ss', hds, hss'⟩ := DerivesAll.relabel hs hus
    refine ⟨_, .cons hd hds, ?_⟩
    simp only [eraseLines] at hs'
    simp only [mapLinesAll, hs', hss']

end

end Stmt

/-- A program is derived from all tokens of the same kinds, up to lines. -/
theorem Program.Derives.relabel {nearest : Bool} {ts us : List Token} {p : Program}
    (h : Program.Derives nearest ts p) (hus : us.map Token.kind = ts.map Token.kind) :
    ∃ p' : Program, Program.Derives nearest us p' ∧ p'.eraseLines = p.eraseLines := by
  obtain ⟨p', hd, hp'⟩ := Stmt.DerivesAll.relabel h hus
  simp only [Stmt.mapLinesAll_eq_map] at hp'
  exact ⟨p', hd, hp'⟩

end Imp32
