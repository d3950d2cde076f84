import Imp32.Proofs.OversizedLiterals

/-!
# Printing what was parsed from a printed program

A program that was built by hand need not be the one that its text stands for. But both have the
same text: the changes that `normalize` makes cannot be seen in print, and neither can lines. So
printing a program, parsing the text and printing again gives the text once more, if it is parsed at
all; and that fails for one reason only, the digits of the least word (`printing_is_a_fixpoint`).
-/

namespace Imp32

/-! ## Expressions -/

namespace Expr

@[simp] theorem startsSigned_normalize (e : Expr) :
    e.normalize.startsSigned = e.startsSigned := by
  cases e with
  | num value line =>
    rw [normalize]
    split
    · rename_i hneg
      simp [startsSigned, hneg]
    · rfl
  | _ => rfl

/-- A negative literal is printed as the negation that it stands for. -/
theorem layout_normalize {e : Expr} (h : ∀ n ∈ e.nodes, n.Literal) :
    e.normalize.layout = e.layout := by
  induction e with
  | num value line =>
    have hvalue : -0x80000000 < value.toInt := h _ List.mem_cons_self
    have hneg := Value.toInt_neg_of_lt hvalue
    rw [normalize]
    split
    · rename_i hlt
      have hpos : ¬ (-value).toInt < 0 := by omega
      simp only [layout, startsSigned, Value.layout, hneg, UnaryOp.symbol] at hpos ⊢
      rw [if_neg (by simpa using hpos), if_neg hpos, if_pos hlt]
    · rfl
  | var name line => rfl
  | unary op operand line ih =>
    have hoperand := ih fun n hn => h n (List.mem_cons_of_mem _ hn)
    simp only [normalize, layout, startsSigned_normalize, hoperand]
  | binary left op right line ihl ihr =>
    simp only [nodes, List.mem_cons, List.mem_append, or_imp, forall_and] at h
    simp only [normalize, layout, ihl h.2.1, ihr h.2.2]

@[simp] theorem startsSigned_mapLines (f : Nat → Nat) (e : Expr) :
    (e.mapLines f).startsSigned = e.startsSigned := by
  cases e <;> rfl

@[simp] theorem layout_mapLines (f : Nat → Nat) (e : Expr) : (e.mapLines f).layout = e.layout := by
  induction e with
  | num value line => rfl
  | var name line => rfl
  | unary op operand line ih => simp only [mapLines, layout, startsSigned_mapLines, ih]
  | binary left op right line ihl ihr => simp only [mapLines, layout, ihl, ihr]

theorem layoutList_cons_cons (e e' : Expr) (es : List Expr) :
    layoutList (e :: e' :: es) =
      e.layout ++ .sym .comma :: .space :: layoutList (e' :: es) := by
  rw [layoutList]
  simp

theorem layoutList_map {f : Expr → Expr} {es : List Expr} (h : ∀ e ∈ es, (f e).layout = e.layout) :
    layoutList (es.map f) = layoutList es := by
  induction es with
  | nil => rfl
  | cons e es ih =>
    rw [List.forall_mem_cons] at h
    cases es with
    | nil => exact h.1
    | cons e' es =>
      have hrest := ih h.2
      rw [List.map_cons] at hrest
      rw [List.map_cons, List.map_cons, layoutList_cons_cons, layoutList_cons_cons, h.1, hrest]

/-- The least word is the one literal that cannot be parsed as it is printed. -/
theorem forall_literal_iff {ns : List Expr} :
    (∀ n ∈ ns, n.Literal) ↔ ∀ line, .num Int32.minValue line ∉ ns := by
  constructor
  · intro h line hmem
    have hlt : -0x80000000 < Int32.minValue.toInt := h _ hmem
    exact absurd hlt (by decide)
  · intro h n hn
    cases n with
    | num value line =>
      have hne : value ≠ Int32.minValue := fun heq => h line (heq ▸ hn)
      have hle := value.le_toInt
      have htoInt : value.toInt ≠ -0x80000000 := fun heq => hne (Int32.toInt_inj.mp heq)
      change -0x80000000 < value.toInt
      omega
    | var name line => trivial
    | unary op operand line => trivial
    | binary left op right line => trivial

end Expr

/-! ## Statements -/

namespace Stmt

mutual

/-- Braces that keep an `else` where it belongs are printed as those of the block they make. -/
theorem layout_normalize {s : Stmt} (h : ∀ n ∈ s.exprNodes, n.Literal) (depth : Nat) :
    s.normalize.layout depth = s.layout depth := by
  match s with
  | .empty _ => rfl
  | .block body _ => rw [normalize, layout, layout, layoutLines_normalizeAll h]
  | .ifThen condition thenBranch _ =>
    simp only [exprNodes, List.forall_mem_append] at h
    simp only [normalize, layout, Expr.layoutParens, Expr.layout_normalize h.1,
      layout_normalize h.2 depth]
  | .ifElse condition thenBranch elseBranch line =>
    simp only [exprNodes, List.forall_mem_append] at h
    have hcondition : condition.normalize.layoutParens = condition.layoutParens := by
      rw [Expr.layoutParens, Expr.layoutParens, Expr.layout_normalize h.1.1]
    rw [normalize, layout, layout, hcondition, layout_normalize h.2 depth]
    by_cases hopen : thenBranch.endsOpen = true
    · have hblock : (block [thenBranch.normalize] line).endsOpen = false := rfl
      simp [hopen, hblock, layout, layoutLines, layout_normalize h.1.2 (depth + 1)]
    · simp only [if_neg hopen, endsOpen_normalize, layout_normalize h.1.2 depth]
  | .whileDo condition body _ =>
    simp only [exprNodes, List.forall_mem_append] at h
    simp only [normalize, layout, Expr.layoutParens, Expr.layout_normalize h.1,
      layout_normalize h.2 depth]
  | .doWhile body condition _ =>
    simp only [exprNodes, List.forall_mem_append] at h
    simp only [normalize, layout, Expr.layoutParens, Expr.layout_normalize h.2,
      layout_normalize h.1 depth]
  | .forDo init condition step body _ =>
    simp only [exprNodes, List.forall_mem_append] at h
    simp only [normalize, layout, layout_normalize h.1.1.1 depth, Expr.layout_normalize h.1.1.2,
      Expr.layout_normalize h.1.2, layout_normalize h.2 depth]
  | .exprs [] _ => rfl
  | .exprs (e :: es) _ =>
    have hlist : Expr.layoutList ((e :: es).map Expr.normalize) = Expr.layoutList (e :: es) := by
      refine Expr.layoutList_map fun e' he' => Expr.layout_normalize fun n hn => h n ?_
      exact List.mem_flatMap.mpr ⟨e', he', hn⟩
    exact congrArg (· ++ [Piece.sym .semicolon]) hlist
  | .print value _ => rw [normalize, layout, layout, Expr.layout_normalize h]

theorem layoutLines_normalizeAll {ss : List Stmt} (h : ∀ n ∈ exprNodesAll ss, n.Literal)
    (depth : Nat) : layoutLines depth (normalizeAll ss) = layoutLines depth ss := by
  match ss with
  | [] => rfl
  | s :: ss =>
    simp only [exprNodesAll, List.forall_mem_append] at h
    rw [normalizeAll, layoutLines, layoutLines, layout_normalize h.1 depth,
      layoutLines_normalizeAll h.2 depth]

end

mutual

@[simp] theorem layout_mapLines (f : Nat → Nat) (s : Stmt) (depth : Nat) :
    (s.mapLines f).layout depth = s.layout depth := by
  match s with
  | .empty _ => rfl
  | .block body _ => rw [mapLines, layout, layout, layoutLines_mapLinesAll f body]
  | .ifThen condition thenBranch _ =>
    simp only [mapLines, layout, Expr.layoutParens, Expr.layout_mapLines,
      layout_mapLines f thenBranch depth]
  | .ifElse condition thenBranch elseBranch _ =>
    simp only [mapLines, layout, Expr.layoutParens, Expr.layout_mapLines, endsOpen_mapLines,
      layout_mapLines f thenBranch depth, layout_mapLines f thenBranch (depth + 1),
      layout_mapLines f elseBranch depth]
  | .whileDo condition body _ =>
    simp only [mapLines, layout, Expr.layoutParens, Expr.layout_mapLines,
      layout_mapLines f body depth]
  | .doWhile body condition _ =>
    simp only [mapLines, layout, Expr.layoutParens, Expr.layout_mapLines,
      layout_mapLines f body depth]
  | .forDo init condition step body _ =>
    simp only [mapLines, layout, Expr.layout_mapLines, layout_mapLines f init depth,
      layout_mapLines f body depth]
  | .exprs list _ =>
    rw [mapLines, layout, layout, Expr.layoutList_map fun e _ => e.layout_mapLines f]
  | .print value _ => rw [mapLines, layout, layout, Expr.layout_mapLines]

theorem layoutLines_mapLinesAll (f : Nat → Nat) (ss : List Stmt) (depth : Nat) :
    layoutLines depth (mapLinesAll f ss) = layoutLines depth ss := by
  match ss with
  | [] => rfl
  | s :: ss =>
    rw [mapLinesAll, layoutLines, layoutLines, layout_mapLines f s depth,
      layoutLines_mapLinesAll f ss depth]

end

end Stmt

/-! ## Programs -/

namespace Program

theorem map_render_eraseLines (p : Program) : p.eraseLines.map Stmt.render = p.map Stmt.render := by
  rw [eraseLines, List.map_map]
  refine List.map_congr_left fun s _ => ?_
  rw [Function.comp_apply, Stmt.render, Stmt.eraseLines, Stmt.layout_mapLines, Stmt.render]

theorem map_render_normalize {p : Program} (h : ∀ n ∈ p.exprNodes, n.Literal) :
    p.normalize.map Stmt.render = p.map Stmt.render := by
  rw [normalize, List.map_map]
  refine List.map_congr_left fun s hs => ?_
  have hliteral : ∀ n ∈ s.exprNodes, n.Literal := fun n hn =>
    h n (List.mem_flatMap.mpr ⟨s, hs, hn⟩)
  rw [Function.comp_apply, Stmt.render, Stmt.layout_normalize hliteral, Stmt.render]

theorem literal_iff {p : Program} :
    (∀ n ∈ p.exprNodes, n.Literal) ↔ ∀ line, .num Int32.minValue line ∉ p.exprNodes :=
  Expr.forall_literal_iff

/-- The text of a program is parsed exactly if no literal is the least word, and otherwise has a
literal that is too large. What it is parsed to has as many statements as the program, and they are
printed as its statements are. -/
theorem printing_is_a_fixpoint {p : Program} (hnamed : ∀ n ∈ p.exprNodes, n.Named) :
    ((∃ p', parse p.render = .ok p') ↔ ∀ line, .num Int32.minValue line ∉ p.exprNodes) ∧
    ((∃ line, .num Int32.minValue line ∈ p.exprNodes) →
      ∃ line, parse p.render = .error ⟨.literalTooLarge, line⟩) ∧
    ∀ p', parse p.render = .ok p' →
      p'.length = p.length ∧ p'.map Stmt.render = p.map Stmt.render := by
  have hiff : (∃ p', parse p.render = .ok p') ↔
      ∀ line, .num Int32.minValue line ∉ p.exprNodes := by
    rw [← literal_iff]
    constructor
    · rintro ⟨p', hparse⟩
      exact literal_of_parse_render hnamed hparse
    · intro hliteral
      obtain ⟨p', hparse, -⟩ := parse_render hnamed hliteral
      exact ⟨p', hparse⟩
  refine ⟨hiff, ?_, fun p' hparse => ?_⟩
  · rintro ⟨line, hmem⟩
    refine (parse_render_cases hnamed).resolve_left fun hparse => ?_
    exact hiff.mp hparse line hmem
  · have hliteral := literal_of_parse_render hnamed hparse
    have hrender : p'.map Stmt.render = p.map Stmt.render := by
      rw [← map_render_eraseLines, eraseLines_of_parse_render hnamed hparse, map_render_eraseLines,
        map_render_normalize hliteral]
    have hlength := congrArg List.length hrender
    rw [List.length_map, List.length_map] at hlength
    exact ⟨hlength, hrender⟩

/-- Signs upon signs, a branch that is put in braces and an empty list of expressions; and the least
word inside a block, a loop, and an operation. -/
theorem printing_is_a_fixpoint_hand_built :
    let p : Program := [.ifElse (.unary .negate (.num (-3) 1) 1)
      (.ifThen (.var "x" 1) (.exprs [] 1) 1)
      (.print (.binary (.num (-4) 1) (.arith .sub)
        (.unary .complement (.unary .negate (.num (-5) 1) 1) 1) 1) 1) 1]
    let q : Program := [.block [.whileDo (.num 0 1) (.print (.binary (.num 1 1) (.arith .add)
      (.unary .complement (.num Int32.minValue 1) 1) 1) 1) 1] 1]
    (∃ p', parse p.render = .ok p' ∧ p'.map Stmt.render = p.map Stmt.render) ∧
      ∃ line, parse q.render = .error ⟨.literalTooLarge, line⟩ := by
  intro p q
  have hp : ∀ n ∈ p.exprNodes, n.Named := by
    simp [p, exprNodes, Stmt.exprNodes, Expr.nodes, Expr.Named]
    decide
  have hq : ∀ n ∈ q.exprNodes, n.Named := by
    simp [q, exprNodes, Stmt.exprNodes, Stmt.exprNodesAll, Expr.nodes, Expr.Named]
  have hleast : ∀ line, .num Int32.minValue line ∉ p.exprNodes := by
    intro line
    simp [p, exprNodes, Stmt.exprNodes, Expr.nodes]
  obtain ⟨p', hparse⟩ := (printing_is_a_fixpoint hp).1.mpr hleast
  refine ⟨⟨p', hparse, ((printing_is_a_fixpoint hp).2.2 p' hparse).2⟩, ?_⟩
  refine (printing_is_a_fixpoint hq).2.1 ⟨1, ?_⟩
  simp [q, exprNodes, Stmt.exprNodes, Stmt.exprNodesAll, Expr.nodes]

end Program

end Imp32
