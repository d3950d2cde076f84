import Imp32.Proofs.Normal

/-!
# Parsing a printed program

What a text is parsed to, and which printed programs are parsed back. The text of a program whose
names tokens can hold is always scanned; it is parsed exactly if no literal is the least word, whose
digits are out of range, and then to the normal form of the program, up to lines.
-/

namespace Imp32

open Piece

/-! ## Digits in range -/

/-- If the token is an integer, it is the value of a literal. -/
def Token.Kind.InRange : Token.Kind → Prop
  | .integer n => n < 0x80000000
  | .identifier _ | .keyword _ | .symbol _ | .trivia _ => True

namespace Expr

theorem Derives.inRange {rule : Rule} {ts : List Token} {e : Expr} (h : Derives rule ts e) :
    ∀ t ∈ ts, t.kind.InRange := by
  induction h with
  | operand _ ih => exact ih
  | single _ ih => exact ih
  | primary _ ih => exact ih
  | assign _ ht _ _ ihl ihr =>
    simp only [List.forall_mem_append, List.forall_mem_cons, ht]
    exact ⟨ihl, trivial, ihr⟩
  | chain _ ht _ _ ihl ihr =>
    simp only [List.forall_mem_append, List.forall_mem_cons, ht]
    exact ⟨ihl, trivial, ihr⟩
  | unary ht _ _ ih =>
    simp only [List.forall_mem_cons, ht]
    exact ⟨trivial, ih⟩
  | @literal t v ht =>
    simp only [List.mem_singleton, forall_eq, ht]
    exact v.toInt_lt
  | name ht =>
    simp only [List.mem_singleton, forall_eq, ht]
    trivial
  | parens ht _ hu ih =>
    simp only [List.forall_mem_append, List.forall_mem_cons, ht, hu]
    exact ⟨⟨trivial, ih⟩, trivial, by simp⟩

theorem DerivesParens.inRange {ts : List Token} {e : Expr} (h : DerivesParens ts e) :
    ∀ t ∈ ts, t.kind.InRange := by
  obtain ⟨ht, h, hu⟩ := h
  exact (Derives.parens ht h hu).inRange

theorem DerivesList.inRange {ts : List Token} {es : List Expr} (h : DerivesList ts es) :
    ∀ t ∈ ts, t.kind.InRange := by
  induction h with
  | last h => exact h.inRange
  | cons h ht _ ih =>
    simp only [List.forall_mem_append, List.forall_mem_cons, ht]
    exact ⟨h.inRange, trivial, ih⟩

end Expr

namespace Stmt

mutual

theorem Derives.inRange {nearest : Bool} {ts : List Token} {s : Stmt} (h : Derives nearest ts s) :
    ∀ t ∈ ts, t.kind.InRange := by
  match h with
  | .empty ht =>
    simp only [List.mem_singleton, forall_eq, ht]
    trivial
  | .block ht h hu =>
    simp only [List.forall_mem_append, List.forall_mem_cons, ht, hu]
    exact ⟨⟨trivial, DerivesAll.inRange h⟩, trivial, by simp⟩
  | .ifThen ht hc h =>
    simp only [List.forall_mem_append, List.forall_mem_cons, ht]
    exact ⟨⟨trivial, hc.inRange⟩, Derives.inRange h⟩
  | .ifElse ht hc h _ hu helse =>
    simp only [List.forall_mem_append, List.forall_mem_cons, ht, hu]
    exact ⟨⟨⟨trivial, hc.inRange⟩, Derives.inRange h⟩, trivial, Derives.inRange helse⟩
  | .whileDo ht hc h =>
    simp only [List.forall_mem_append, List.forall_mem_cons, ht]
    exact ⟨⟨trivial, hc.inRange⟩, Derives.inRange h⟩
  | .doWhile ht h hu hc hv =>
    simp only [List.forall_mem_append, List.forall_mem_cons, ht, hu, hv]
    exact ⟨⟨⟨trivial, Derives.inRange h⟩, trivial, hc.inRange⟩, trivial, by simp⟩
  | .forDo ht hu hi hc hv hs hw h =>
    simp only [List.forall_mem_append, List.forall_mem_cons, ht, hu, hv, hw]
    exact ⟨⟨⟨⟨trivial, trivial, Derives.inRange hi⟩, hc.inRange⟩, trivial, hs.inRange⟩, trivial,
      Derives.inRange h⟩
  | .exprs h hu =>
    have hlist := h.inRange
    simp only [List.forall_mem_append, List.forall_mem_cons, hu] at hlist ⊢
    exact ⟨hlist, trivial, by simp⟩
  | .print ht h hu =>
    simp only [List.forall_mem_append, List.forall_mem_cons, ht, hu]
    exact ⟨⟨trivial, h.inRange⟩, trivial, by simp⟩

theorem DerivesAll.inRange {nearest : Bool} {ts : List Token} {ss : List Stmt}
    (h : DerivesAll nearest ts ss) : ∀ t ∈ ts, t.kind.InRange := by
  match h with
  | .nil => simp
  | .cons h hs => exact List.forall_mem_append.mpr ⟨Derives.inRange h, DerivesAll.inRange hs⟩

end

end Stmt

/-! ## Literals whose digits are in range -/

namespace Expr

theorem literal_of_inRange {e : Expr} (h : ∀ t ∈ tokens e.layout, t.kind.InRange) :
    ∀ n ∈ e.nodes, n.Literal := by
  induction e with
  | num value line =>
    simp only [nodes, List.mem_singleton, forall_eq]
    simp only [layout, Value.layout] at h
    split at h
    · have hdigits : -value.toInt < 0x80000000 := h ⟨.integer (-value.toInt), 0⟩ (by simp)
      change -0x80000000 < value.toInt
      omega
    · change -0x80000000 < value.toInt
      omega
  | var name line =>
    simp only [nodes, List.mem_singleton, forall_eq]
    trivial
  | unary op operand line ih =>
    refine List.forall_mem_cons.mpr ⟨trivial, ih ?_⟩
    unfold layout at h
    split at h
    · simp only [List.cons_append, tokens_token_cons, tokens_append, List.forall_mem_cons,
        List.forall_mem_append] at h
      exact h.2.2.1
    · exact (List.forall_mem_cons.mp h).2
  | binary left op right line ihl ihr =>
    simp only [layout, List.cons_append, tokens_token_cons, tokens_space_cons, tokens_append,
      List.forall_mem_cons, List.forall_mem_append] at h
    obtain ⟨-, ⟨hleft, -, hright⟩, -⟩ := h
    exact List.forall_mem_cons.mpr ⟨trivial, List.forall_mem_append.mpr ⟨ihl hleft, ihr hright⟩⟩

theorem literal_of_inRange_parens {e : Expr} (h : ∀ t ∈ tokens e.layoutParens, t.kind.InRange) :
    ∀ n ∈ e.nodes, n.Literal := by
  simp only [layoutParens, List.cons_append, tokens_token_cons, tokens_append,
    List.forall_mem_cons, List.forall_mem_append] at h
  exact literal_of_inRange h.2.1

theorem literal_of_inRange_list {es : List Expr}
    (h : ∀ t ∈ tokens (layoutList es), t.kind.InRange) :
    ∀ n ∈ es.flatMap nodes, n.Literal := by
  induction es with
  | nil => simp
  | cons e es ih =>
    rw [List.flatMap_cons, List.forall_mem_append]
    cases es with
    | nil => exact ⟨literal_of_inRange h, by simp⟩
    | cons e' es =>
      rw [layoutList, tokens_append, List.forall_mem_append] at h
      · exact ⟨literal_of_inRange h.1, ih (List.forall_mem_cons.mp h.2).2⟩
      · simp

end Expr

namespace Stmt

mutual

theorem literal_of_inRange {s : Stmt} {depth : Nat}
    (h : ∀ t ∈ tokens (s.layout depth), t.kind.InRange) : ∀ n ∈ s.exprNodes, n.Literal := by
  match s with
  | .empty _ => simp [exprNodes]
  | .block body _ =>
    simp only [layout, List.cons_append, tokens_append, tokens_token_cons, tokens_newline_cons,
      List.forall_mem_cons, List.forall_mem_append] at h
    exact literal_of_inRange_lines h.2.1
  | .ifThen condition thenBranch _ =>
    simp only [layout, List.cons_append, tokens_append, tokens_token_cons, tokens_space_cons,
      List.forall_mem_cons, List.forall_mem_append] at h
    exact List.forall_mem_append.mpr
      ⟨Expr.literal_of_inRange_parens h.2.1, literal_of_inRange h.2.2⟩
  | .ifElse condition thenBranch elseBranch _ =>
    simp only [layout, List.cons_append, tokens_append, tokens_token_cons, tokens_space_cons,
      List.forall_mem_cons, List.forall_mem_append] at h
    obtain ⟨-, ⟨hcond, hthen⟩, -, helse⟩ := h
    have hbranch : ∀ n ∈ thenBranch.exprNodes, n.Literal := by
      split at hthen
      · simp only [tokens_append, tokens_token_cons, tokens_newline_cons,
          List.forall_mem_cons, List.forall_mem_append] at hthen
        exact literal_of_inRange hthen.2.1
      · exact literal_of_inRange hthen
    simp only [exprNodes, List.forall_mem_append]
    exact ⟨⟨Expr.literal_of_inRange_parens hcond, hbranch⟩, literal_of_inRange helse⟩
  | .whileDo condition body _ =>
    simp only [layout, List.cons_append, tokens_append, tokens_token_cons, tokens_space_cons,
      List.forall_mem_cons, List.forall_mem_append] at h
    exact List.forall_mem_append.mpr
      ⟨Expr.literal_of_inRange_parens h.2.1, literal_of_inRange h.2.2⟩
  | .doWhile body condition _ =>
    simp only [layout, List.cons_append, tokens_append, tokens_token_cons, tokens_space_cons,
      List.forall_mem_cons, List.forall_mem_append] at h
    obtain ⟨-, ⟨hbody, -, hcond⟩, -⟩ := h
    exact List.forall_mem_append.mpr
      ⟨literal_of_inRange hbody, Expr.literal_of_inRange_parens hcond⟩
  | .forDo init condition step body _ =>
    simp only [layout, List.cons_append, tokens_append, tokens_token_cons, tokens_space_cons,
      List.forall_mem_cons, List.forall_mem_append] at h
    obtain ⟨-, -, ⟨⟨hinit, hcond⟩, -, hstep⟩, -, hbody⟩ := h
    simp only [exprNodes, List.forall_mem_append]
    exact ⟨⟨⟨literal_of_inRange hinit, Expr.literal_of_inRange hcond⟩,
      Expr.literal_of_inRange hstep⟩, literal_of_inRange hbody⟩
  | .exprs list _ =>
    rw [layout, tokens_append, List.forall_mem_append] at h
    exact Expr.literal_of_inRange_list h.1
  | .print value _ =>
    simp only [layout, List.cons_append, tokens_append, tokens_token_cons, tokens_space_cons,
      List.forall_mem_cons, List.forall_mem_append] at h
    exact Expr.literal_of_inRange h.2.1

theorem literal_of_inRange_lines {ss : List Stmt} {depth : Nat}
    (h : ∀ t ∈ tokens (layoutLines depth ss), t.kind.InRange) :
    ∀ n ∈ exprNodesAll ss, n.Literal := by
  match ss with
  | [] => simp [exprNodesAll]
  | s :: ss =>
    rw [layoutLines, List.cons_append, tokens_newline_cons, tokens_append,
      List.forall_mem_append] at h
    exact List.forall_mem_append.mpr ⟨literal_of_inRange h.1, literal_of_inRange_lines h.2⟩

end

end Stmt

namespace Program

theorem literal_of_inRange {p : Program} (h : ∀ t ∈ tokens p.layout, t.kind.InRange) :
    ∀ n ∈ p.exprNodes, n.Literal := by
  cases p with
  | nil => simp [exprNodes]
  | cons s ss =>
    rw [layout, tokens_append, List.forall_mem_append] at h
    have hlines := Stmt.literal_of_inRange_lines h.2
    rw [Stmt.exprNodesAll_eq_flatMap] at hlines
    exact List.forall_mem_append.mpr ⟨Stmt.literal_of_inRange h.1, hlines⟩

/-! ## Parsing a text -/

/-- A text is parsed to the program that the grammar derives from its tokens. -/
theorem parse_eq_ok_iff {source : String} {p : Program} :
    parse source = .ok p ↔ ∃ ts, scan source = .ok ts ∧ Program.Derives true ts p := by
  unfold parse
  cases scan source with
  | error e => simp
  | ok ts =>
    simp only [Except.ok.injEq, exists_eq_left']
    constructor
    · intro h
      split at h
      · rename_i p' rest hlt hp
        cases h
        exact parseAll_sound (yields_parseTokens.mp ⟨hlt, hp⟩)
      · cases h
    · intro h
      obtain ⟨hlt, hp⟩ := yields_parseTokens_iff.mpr h
      rw [hp]

/-- The text of a program is parsed to its normal form, up to lines, if no literal is the least
word. -/
theorem parse_render {p : Program} (hnamed : ∀ n ∈ p.exprNodes, n.Named)
    (hliteral : ∀ n ∈ p.exprNodes, n.Literal) :
    ∃ p', parse p.render = .ok p' ∧ p'.eraseLines = p.normalize.eraseLines := by
  obtain ⟨ts, hscan, hkinds⟩ := scan_render hnamed
  have hsame : ts.map Token.kind = (tokens p.layout).map Token.kind := by
    rw [hkinds, map_kind_tokens]
  obtain ⟨p', hd, hp'⟩ := (derives_layout hliteral).relabel hsame
  refine ⟨p', parse_eq_ok_iff.mpr ⟨ts, hscan, hd⟩, ?_⟩
  rw [hp', eraseLines_eraseLines]

/-- If the text of a program is parsed, then no literal is the least word. -/
theorem literal_of_parse_render {p p' : Program} (hnamed : ∀ n ∈ p.exprNodes, n.Named)
    (h : parse p.render = .ok p') : ∀ n ∈ p.exprNodes, n.Literal := by
  obtain ⟨ts, hscan, hkinds⟩ := scan_render hnamed
  obtain ⟨us, hscan', hd⟩ := parse_eq_ok_iff.mp h
  cases hscan.symm.trans hscan'
  refine literal_of_inRange fun t ht => ?_
  have hmem : t.kind ∈ ts.map Token.kind := by
    rw [hkinds, ← map_kind_tokens]
    exact List.mem_map_of_mem ht
  obtain ⟨u, hu, hut⟩ := List.mem_map.mp hmem
  rw [← hut]
  exact Stmt.DerivesAll.inRange hd u hu

/-- If the text of a program is parsed, then to its normal form, up to lines. -/
theorem eraseLines_of_parse_render {p p' : Program} (hnamed : ∀ n ∈ p.exprNodes, n.Named)
    (h : parse p.render = .ok p') : p'.eraseLines = p.normalize.eraseLines := by
  obtain ⟨q, hq, hlines⟩ := parse_render hnamed (literal_of_parse_render hnamed h)
  cases hq.symm.trans h
  exact hlines

end Program

end Imp32
