import Imp32.Proofs.Reparse

/-!
# Printing and parsing

Every tree that is parsed from a text is canonical: it has no negative literal, no name that a token
cannot hold, no empty list of expressions and no `else` that its text would give to another `if`.
The text of a canonical tree is parsed to that tree, up to lines.
-/

namespace Imp32

/-! ## Canonical trees -/

/-- If the node is a literal it is not negative, and if it is a variable a token can hold its name.
-/
def Expr.Canonical : Expr → Prop
  | .num value _ => 0 ≤ value.toInt
  | .var name _ => isName name = true
  | .unary _ _ _ | .binary _ _ _ _ => True

theorem Expr.Canonical.named {e : Expr} (h : e.Canonical) : e.Named := by
  cases e
  case var => exact h
  all_goals trivial

/-- Only the least value has no literal, and it is negative. -/
theorem Expr.Canonical.literal {e : Expr} (h : e.Canonical) : e.Literal := by
  cases e
  case num => exact Int.lt_of_lt_of_le (by decide) h
  all_goals trivial

/-- If the node is a list of expressions it is not empty, and if it is a branch with an alternative,
the statement before the `else` cannot take it. -/
def Stmt.Canonical : Stmt → Prop
  | .exprs list _ => list ≠ []
  | .ifElse _ thenBranch _ _ => thenBranch.endsOpen = false
  | .empty _ | .block _ _ | .ifThen _ _ _ | .whileDo _ _ _ | .doWhile _ _ _ | .forDo _ _ _ _ _
  | .print _ _ => True

/-- All nodes of the program are canonical. -/
structure Program.Canonical (p : Program) : Prop where
  /-- The expression nodes. -/
  exprs : ∀ n ∈ p.exprNodes, n.Canonical
  /-- The statement nodes. -/
  stmts : ∀ n ∈ p.nodes, n.Canonical

/-! ## Parsed trees are canonical -/

namespace Expr

/-- If the tokens can stand in a text, the expression that is derived from them is canonical. -/
theorem Derives.canonical {rule : Rule} {ts : List Token} {e : Expr} (h : Derives rule ts e)
    (hts : ∀ t ∈ ts, t.kind.Lexable) : ∀ n ∈ e.nodes, n.Canonical := by
  induction h with
  | operand _ ih => exact ih hts
  | single _ ih => exact ih hts
  | primary _ ih => exact ih hts
  | assign _ _ _ _ ihl ihr =>
    simp only [List.mem_append, List.mem_cons, or_imp, forall_and] at hts
    simp only [nodes, List.mem_cons, List.mem_append, or_imp, forall_and, forall_eq]
    exact ⟨trivial, ihl hts.1, ihr hts.2.2⟩
  | chain _ _ _ _ ihl ihr =>
    simp only [List.mem_append, List.mem_cons, or_imp, forall_and] at hts
    simp only [nodes, List.mem_cons, List.mem_append, or_imp, forall_and, forall_eq]
    exact ⟨trivial, ihl hts.1, ihr hts.2.2⟩
  | unary _ _ _ ih =>
    simp only [List.mem_cons, or_imp, forall_and] at hts
    simp only [nodes, List.mem_cons, or_imp, forall_and, forall_eq]
    exact ⟨trivial, ih hts.2⟩
  | literal ht =>
    have hlex := hts _ List.mem_cons_self
    rw [ht] at hlex
    simp only [nodes, List.mem_singleton, forall_eq]
    exact hlex.1
  | name ht =>
    have hlex := hts _ List.mem_cons_self
    rw [ht] at hlex
    simp only [nodes, List.mem_singleton, forall_eq]
    exact hlex
  | parens _ _ _ ih =>
    simp only [List.mem_append, List.mem_cons, or_imp, forall_and] at hts
    exact ih hts.1.2

theorem DerivesParens.canonical {ts : List Token} {e : Expr} (h : DerivesParens ts e)
    (hts : ∀ t ∈ ts, t.kind.Lexable) : ∀ n ∈ e.nodes, n.Canonical := by
  obtain ⟨_, h, _⟩ := h
  simp only [List.mem_append, List.mem_cons, or_imp, forall_and] at hts
  exact h.canonical hts.1.2

/-- A list that is derived has an expression in it. -/
theorem DerivesList.canonical {ts : List Token} {es : List Expr} (h : DerivesList ts es)
    (hts : ∀ t ∈ ts, t.kind.Lexable) : es ≠ [] ∧ ∀ n ∈ es.flatMap nodes, n.Canonical := by
  induction h with
  | last h =>
    simp only [List.flatMap_cons, List.flatMap_nil, List.append_nil]
    exact ⟨by simp, h.canonical hts⟩
  | cons h _ _ ih =>
    simp only [List.mem_append, List.mem_cons, or_imp, forall_and] at hts
    simp only [List.flatMap_cons, List.mem_append, or_imp, forall_and]
    exact ⟨by simp, h.canonical hts.1, (ih hts.2.2).2⟩

end Expr

namespace Stmt

mutual

/-- The restriction to the nearest `if` is what keeps the statement before an `else` from taking it.
-/
theorem Derives.canonical {ts : List Token} {s : Stmt} (h : Derives true ts s)
    (hts : ∀ t ∈ ts, t.kind.Lexable) :
    (∀ n ∈ s.exprNodes, n.Canonical) ∧ ∀ n ∈ s.nodes, n.Canonical := by
  match h with
  | .empty _ => simp [exprNodes, nodes, Canonical]
  | .block _ h _ =>
    simp only [List.mem_append, List.mem_cons, or_imp, forall_and] at hts
    obtain ⟨hes, hss⟩ := DerivesAll.canonical h hts.1.2
    simp only [exprNodes, nodes, List.mem_cons, or_imp, forall_and, forall_eq]
    exact ⟨hes, trivial, hss⟩
  | .ifThen _ hc h =>
    simp only [List.mem_append, List.mem_cons, or_imp, forall_and] at hts
    obtain ⟨hes, hss⟩ := Derives.canonical h hts.2
    simp only [exprNodes, nodes, List.mem_append, List.mem_cons, or_imp, forall_and, forall_eq]
    exact ⟨⟨hc.canonical hts.1.2, hes⟩, trivial, hss⟩
  | .ifElse _ hc h hn _ helse =>
    simp only [List.mem_append, List.mem_cons, or_imp, forall_and] at hts
    obtain ⟨hes, hss⟩ := Derives.canonical h hts.1.2
    obtain ⟨hes', hss'⟩ := Derives.canonical helse hts.2.2
    simp only [exprNodes, nodes, List.mem_append, List.mem_cons, or_imp, forall_and, forall_eq]
    exact ⟨⟨⟨hc.canonical hts.1.1.2, hes⟩, hes'⟩, hn rfl, hss, hss'⟩
  | .whileDo _ hc h =>
    simp only [List.mem_append, List.mem_cons, or_imp, forall_and] at hts
    obtain ⟨hes, hss⟩ := Derives.canonical h hts.2
    simp only [exprNodes, nodes, List.mem_append, List.mem_cons, or_imp, forall_and, forall_eq]
    exact ⟨⟨hc.canonical hts.1.2, hes⟩, trivial, hss⟩
  | .doWhile _ h _ hc _ =>
    simp only [List.mem_append, List.mem_cons, or_imp, forall_and] at hts
    obtain ⟨hes, hss⟩ := Derives.canonical h hts.1.1.2
    simp only [exprNodes, nodes, List.mem_append, List.mem_cons, or_imp, forall_and, forall_eq]
    exact ⟨⟨hes, hc.canonical hts.1.2.2⟩, trivial, hss⟩
  | .forDo _ _ hi hc _ hs _ h =>
    simp only [List.mem_append, List.mem_cons, or_imp, forall_and] at hts
    obtain ⟨hes, hss⟩ := Derives.canonical hi hts.1.1.1.2.2
    obtain ⟨hes', hss'⟩ := Derives.canonical h hts.2.2
    simp only [exprNodes, nodes, List.mem_append, List.mem_cons, or_imp, forall_and, forall_eq]
    exact ⟨⟨⟨⟨hes, hc.canonical hts.1.1.2⟩, hs.canonical hts.1.2.2⟩, hes'⟩, trivial, hss, hss'⟩
  | .exprs h _ =>
    rw [List.forall_mem_append] at hts
    obtain ⟨hne, hes⟩ := h.canonical hts.1
    simp only [nodes, List.mem_singleton, forall_eq]
    exact ⟨hes, hne⟩
  | .print _ h _ =>
    simp only [List.mem_append, List.mem_cons, or_imp, forall_and] at hts
    simp only [nodes, List.mem_singleton, forall_eq]
    exact ⟨h.canonical hts.1.2, trivial⟩

theorem DerivesAll.canonical {ts : List Token} {ss : List Stmt} (h : DerivesAll true ts ss)
    (hts : ∀ t ∈ ts, t.kind.Lexable) :
    (∀ n ∈ exprNodesAll ss, n.Canonical) ∧ ∀ n ∈ nodesAll ss, n.Canonical := by
  match h with
  | .nil => simp [exprNodesAll, nodesAll]
  | .cons h hs =>
    rw [List.forall_mem_append] at hts
    obtain ⟨hes, hss⟩ := Derives.canonical h hts.1
    obtain ⟨hes', hss'⟩ := DerivesAll.canonical hs hts.2
    simp only [exprNodesAll, nodesAll, List.forall_mem_append]
    exact ⟨⟨hes, hes'⟩, hss, hss'⟩

end

end Stmt

/-! ## Canonical trees are normal -/

/-- Without negative literals there is nothing to be rewritten in an expression. -/
theorem Expr.normalize_eq_self {e : Expr} (h : ∀ n ∈ e.nodes, n.Canonical) : e.normalize = e := by
  induction e with
  | num value line =>
    have hvalue : 0 ≤ value.toInt := h _ List.mem_cons_self
    rw [normalize, if_neg (Int.not_lt.mpr hvalue)]
  | var name line => rfl
  | unary op operand line ih => rw [normalize, ih fun n hn => h n (List.mem_cons_of_mem _ hn)]
  | binary left op right line ihl ihr =>
    simp only [nodes, List.mem_cons, List.mem_append, or_imp, forall_and] at h
    rw [normalize, ihl h.2.1, ihr h.2.2]

theorem Expr.map_normalize_eq_self {es : List Expr} (h : ∀ n ∈ es.flatMap nodes, n.Canonical) :
    es.map normalize = es := by
  induction es with
  | nil => rfl
  | cons e es ih =>
    rw [List.flatMap_cons, List.forall_mem_append] at h
    rw [List.map_cons, normalize_eq_self h.1, ih h.2]

namespace Stmt

mutual

/-- A canonical statement needs no braces around a branch and has no empty list, so it is its own
normal form. -/
theorem normalize_eq_self {s : Stmt} (hes : ∀ n ∈ s.exprNodes, n.Canonical)
    (hss : ∀ n ∈ s.nodes, n.Canonical) : s.normalize = s := by
  match s with
  | .empty _ => rfl
  | .block body _ =>
    simp only [nodes, List.mem_cons, or_imp, forall_and] at hss
    rw [normalize, normalizeAll_eq_self hes hss.2]
  | .ifThen condition thenBranch _ =>
    simp only [exprNodes, nodes, List.mem_append, List.mem_cons, or_imp, forall_and] at hes hss
    rw [normalize, Expr.normalize_eq_self hes.1, normalize_eq_self hes.2 hss.2]
  | .ifElse condition thenBranch elseBranch line =>
    simp only [exprNodes, nodes, List.mem_append, List.mem_cons, or_imp, forall_and, forall_eq]
      at hes hss
    have hclosed : ¬ thenBranch.endsOpen = true := by
      rw [hss.1]
      simp
    rw [normalize, if_neg hclosed, Expr.normalize_eq_self hes.1.1,
      normalize_eq_self hes.1.2 hss.2.1, normalize_eq_self hes.2 hss.2.2]
  | .whileDo condition body _ =>
    simp only [exprNodes, nodes, List.mem_append, List.mem_cons, or_imp, forall_and] at hes hss
    rw [normalize, Expr.normalize_eq_self hes.1, normalize_eq_self hes.2 hss.2]
  | .doWhile body condition _ =>
    simp only [exprNodes, nodes, List.mem_append, List.mem_cons, or_imp, forall_and] at hes hss
    rw [normalize, Expr.normalize_eq_self hes.2, normalize_eq_self hes.1 hss.2]
  | .forDo init condition step body _ =>
    simp only [exprNodes, nodes, List.mem_append, List.mem_cons, or_imp, forall_and] at hes hss
    rw [normalize, normalize_eq_self hes.1.1.1 hss.2.1, Expr.normalize_eq_self hes.1.1.2,
      Expr.normalize_eq_self hes.1.2, normalize_eq_self hes.2 hss.2.2]
  | .exprs [] line => exact absurd rfl (hss (.exprs [] line) (by simp [nodes]))
  | .exprs (e :: es) _ => rw [normalize, Expr.map_normalize_eq_self hes]; rfl
  | .print value _ => rw [normalize, Expr.normalize_eq_self hes]

theorem normalizeAll_eq_self {ss : List Stmt} (hes : ∀ n ∈ exprNodesAll ss, n.Canonical)
    (hss : ∀ n ∈ nodesAll ss, n.Canonical) : normalizeAll ss = ss := by
  match ss with
  | [] => rfl
  | s :: ss =>
    simp only [exprNodesAll, nodesAll, List.forall_mem_append] at hes hss
    rw [normalizeAll, normalize_eq_self hes.1 hss.1, normalizeAll_eq_self hes.2 hss.2]

end

end Stmt

namespace Program

theorem Canonical.normalize_eq_self {p : Program} (h : p.Canonical) : p.normalize = p := by
  have hes := h.exprs
  have hss := h.stmts
  rw [exprNodes, ← Stmt.exprNodesAll_eq_flatMap] at hes
  rw [nodes, ← Stmt.nodesAll_eq_flatMap] at hss
  rw [normalize, ← Stmt.normalizeAll_eq_map, Stmt.normalizeAll_eq_self hes hss]

/-- The first half of the round trip, for the tokens of a text. -/
theorem Derives.canonical {ts : List Token} {p : Program} (h : Program.Derives true ts p)
    (hts : ∀ t ∈ ts, t.kind.Lexable) : p.Canonical := by
  obtain ⟨hes, hss⟩ := Stmt.DerivesAll.canonical h hts
  rw [Stmt.exprNodesAll_eq_flatMap] at hes
  rw [Stmt.nodesAll_eq_flatMap] at hss
  exact ⟨hes, hss⟩

/-- Every program that is parsed from a text is canonical; and the text of a canonical program is
parsed to that program, up to lines. -/
theorem printing_inverts_parsing :
    (∀ source p, parse source = .ok p → p.Canonical) ∧
      ∀ p : Program, p.Canonical →
        ∃ p', parse p.render = .ok p' ∧ p'.eraseLines = p.eraseLines := by
  constructor
  · intro source p h
    obtain ⟨ts, hscan, hd⟩ := parse_eq_ok_iff.mp h
    exact hd.canonical (lexable_of_scan hscan)
  · intro p h
    obtain ⟨p', hparse, hp'⟩ := parse_render (fun n hn => (h.exprs n hn).named)
      fun n hn => (h.exprs n hn).literal
    exact ⟨p', hparse, by rw [hp', h.normalize_eq_self]⟩

/-- A sign after a sign, and a branch in braces that would otherwise take the `else`. -/
theorem printing_inverts_parsing_nested :
    let p : Program :=
      [.ifElse (.unary .negate (.unary .negate (.binary (.var "x" 1) (.logic .or) (.num 1 1) 1) 1) 1)
        (.block [.ifThen (.var "y" 1) (.print (.num 2 1) 1) 1] 1)
        (.exprs [.binary (.var "x" 2) .assign (.num 3 2) 2, .var "x" 2] 2) 1]
    p.Canonical ∧ ∃ p', parse p.render = .ok p' ∧ p'.Canonical ∧ p'.eraseLines = p.eraseLines := by
  intro p
  have hp : p.Canonical := by
    refine ⟨?_, ?_⟩
    · simp [p, exprNodes, Stmt.exprNodes, Stmt.exprNodesAll, Expr.nodes, Expr.Canonical]
      decide
    · simp [p, nodes, Stmt.nodes, Stmt.nodesAll, Stmt.Canonical, Stmt.endsOpen]
  obtain ⟨p', hparse, hlines⟩ := printing_inverts_parsing.2 p hp
  exact ⟨hp, p', hparse, printing_inverts_parsing.1 _ _ hparse, hlines⟩

end Program

end Imp32
