import Imp32.Proofs.Completeness
import Imp32.Proofs.Lines
import Imp32.Proofs.PrintedTokens

/-!
# Normal trees

A tree that was built by hand may differ from the one that its text stands for: the text of a
negative literal is that of a negation, the text of an empty list of expressions is that of an empty
statement, and a branch that would take the `else` of the `if` around it is printed in braces.
`normalize` makes these three changes. The main statement is that the tokens of a printed tree
derive its normal form.
-/

namespace Imp32

/-! ## Normal forms -/

/-- The expression that the text of an expression stands for, up to lines. -/
def Expr.normalize : Expr → Expr
  | .num value line =>
    if value.toInt < 0 then .unary .negate (.num (-value) line) line else .num value line
  | .var name line => .var name line
  | .unary op operand line => .unary op operand.normalize line
  | .binary left op right line => .binary left.normalize op right.normalize line

namespace Stmt

mutual

/-- The statement that the text of a statement stands for, up to lines. -/
def normalize : Stmt → Stmt
  | .empty line => .empty line
  | .block body line => .block (normalizeAll body) line
  | .ifThen condition thenBranch line => .ifThen condition.normalize thenBranch.normalize line
  | .ifElse condition thenBranch elseBranch line =>
    .ifElse condition.normalize
      (if thenBranch.endsOpen then .block [thenBranch.normalize] line else thenBranch.normalize)
      elseBranch.normalize line
  | .whileDo condition body line => .whileDo condition.normalize body.normalize line
  | .doWhile body condition line => .doWhile body.normalize condition.normalize line
  | .forDo init condition step body line =>
    .forDo init.normalize condition.normalize step.normalize body.normalize line
  | .exprs list line => if list.isEmpty then .empty line else .exprs (list.map Expr.normalize) line
  | .print value line => .print value.normalize line

/-- The statements that the texts of some statements stand for, up to lines. -/
def normalizeAll : List Stmt → List Stmt
  | [] => []
  | s :: ss => s.normalize :: normalizeAll ss

end

theorem normalizeAll_eq_map (ss : List Stmt) : normalizeAll ss = ss.map normalize := by
  induction ss with
  | nil => rfl
  | cons s ss ih => rw [normalizeAll, ih, List.map_cons]

@[simp] theorem endsOpen_normalize (s : Stmt) : s.normalize.endsOpen = s.endsOpen := by
  match s with
  | .ifElse _ _ elseBranch _ => exact endsOpen_normalize elseBranch
  | .whileDo _ body _ => exact endsOpen_normalize body
  | .forDo _ _ _ body _ => exact endsOpen_normalize body
  | .exprs list _ =>
    rw [normalize]
    split <;> rfl
  | .empty _ | .block _ _ | .ifThen _ _ _ | .doWhile _ _ _ | .print _ _ => rfl

end Stmt

/-- The program that the text of a program stands for, up to lines. -/
def Program.normalize (p : Program) : Program := p.map Stmt.normalize

/-! ## The tokens of a layout -/

namespace Piece

/-- The tokens of a layout, all with line zero. -/
def tokens (pieces : List Piece) : List Token := (kinds pieces).map fun k => ⟨k, 0⟩

@[simp] theorem tokens_nil : tokens [] = [] := rfl

@[simp] theorem tokens_token_cons (k : Token.Kind) (pieces : List Piece) :
    tokens (.token k :: pieces) = ⟨k, 0⟩ :: tokens pieces :=
  rfl

@[simp] theorem tokens_space_cons (pieces : List Piece) :
    tokens (.space :: pieces) = tokens pieces :=
  rfl

@[simp] theorem tokens_newline_cons (depth : Nat) (pieces : List Piece) :
    tokens (.newline depth :: pieces) = tokens pieces :=
  rfl

@[simp] theorem tokens_append (xs ys : List Piece) :
    tokens (xs ++ ys) = tokens xs ++ tokens ys := by
  simp [tokens, kinds]

theorem map_kind_tokens (pieces : List Piece) : (tokens pieces).map Token.kind = kinds pieces := by
  simp [tokens, Function.comp_def]

theorem line_of_mem_tokens {t : Token} {pieces : List Piece} (h : t ∈ tokens pieces) :
    t.line = 0 := by
  obtain ⟨k, -, rfl⟩ := List.mem_map.mp h
  rfl

end Piece

open Piece

/-! ## Expressions -/

/-- If the node is a literal, its digits without the sign are one too. -/
def Expr.Literal : Expr → Prop
  | .num value _ => -0x80000000 < value.toInt
  | .var _ _ | .unary _ _ _ | .binary _ _ _ _ => True

theorem Value.toInt_neg_of_lt {v : Value} (h : -0x80000000 < v.toInt) : (-v).toInt = -v.toInt := by
  have hhigh := v.toInt_lt
  rw [Int32.toInt_neg, Int.bmod_eq_of_le] <;> omega

theorem UnaryOp.symbol_mem_symbols (op : UnaryOp) : op.symbol ∈ op.symbols := by
  cases op <;> decide

namespace Expr

/-- Operands that need no level can stand on both sides of every operator. -/
theorem Derives.between {ts us : List Token} {t : Token} {left right : Expr} {op : BinaryOp}
    (hl : Derives .unary ts left) (ht : t.kind = .symbol (.binary op))
    (hr : Derives .unary us right) :
    Derives .assignment (ts ++ t :: us) (.binary left op right t.line) := by
  cases hop : op.assigns with
  | true => exact .assign (hl.toLevel _) ht hop hr.widen
  | false =>
    have hsome : op.level?.isSome = true := by rw [op.isSome_level?, hop, Bool.not_false]
    obtain ⟨level, hlevel⟩ := Option.isSome_iff_exists.mp hsome
    have hmem : op ∈ level.operators := by
      rw [Level.mem_operators_iff, BinaryOp.height?, hlevel, Option.map_some]
    exact (Derives.chain (hl.toLevel level) ht hmem (hr.toOperand level)).toAssignment

/-- The tokens of a printed expression derive its normal form. -/
theorem derives_layout {e : Expr} (h : ∀ n ∈ e.nodes, n.Literal) :
    Derives .unary (tokens e.layout) e.normalize.eraseLines := by
  induction e with
  | num value line =>
    have hvalue : -0x80000000 < value.toInt := h _ List.mem_cons_self
    simp only [layout, Value.layout, normalize]
    split
    · have ht : Token.Kind.integer (-value.toInt) = .integer (-value).toInt := by
        rw [Value.toInt_neg_of_lt hvalue]
      exact .unary rfl (UnaryOp.symbol_mem_symbols .negate) (.primary (.literal ht))
    · exact .primary (.literal rfl)
  | var name line => exact .primary (.name rfl)
  | unary op operand line ih =>
    have hd := ih fun n hn => h n (List.mem_cons_of_mem _ hn)
    have hop := op.symbol_mem_symbols
    unfold layout
    split
    · simp only [List.cons_append, tokens_token_cons, tokens_append, tokens_nil]
      exact .unary rfl hop (.primary (.parens rfl hd.widen rfl))
    · exact .unary rfl hop hd
  | binary left op right line ihl ihr =>
    simp only [nodes, List.mem_cons, List.mem_append, or_imp, forall_and] at h
    have hinner := (ihl h.2.1).between (t := ⟨.symbol (.binary op), 0⟩) rfl (ihr h.2.2)
    have hts : tokens (binary left op right line).layout =
        ⟨.symbol .leftParen, 0⟩ ::
          (tokens left.layout ++ ⟨.symbol (.binary op), 0⟩ :: tokens right.layout) ++
          [⟨.symbol .rightParen, 0⟩] := by
      simp [layout]
    rw [hts]
    exact .primary (.parens rfl hinner rfl)

theorem derives_layoutParens {e : Expr} (h : ∀ n ∈ e.nodes, n.Literal) :
    DerivesParens (tokens e.layoutParens) e.normalize.eraseLines := by
  have hd := (derives_layout h).widen
  simp only [layoutParens, tokens_append, List.cons_append, tokens_token_cons, tokens_nil]
  exact .mk rfl hd rfl

theorem derives_layoutList {e : Expr} {es : List Expr}
    (h : ∀ n ∈ (e :: es).flatMap nodes, n.Literal) :
    DerivesList (tokens (layoutList (e :: es)))
      ((e :: es).map fun e => e.normalize.eraseLines) := by
  induction es generalizing e with
  | nil =>
    simp only [List.flatMap_cons, List.flatMap_nil, List.append_nil] at h
    exact .last (derives_layout h).widen
  | cons e' es ih =>
    rw [List.flatMap_cons] at h
    simp only [List.mem_append, or_imp, forall_and] at h
    have hd := (derives_layout h.1).widen
    have hts : tokens (layoutList (e :: e' :: es)) =
        tokens e.layout ++ ⟨.symbol .comma, 0⟩ :: tokens (layoutList (e' :: es)) := by
      simp [layoutList]
    rw [hts]
    exact .cons hd rfl (ih h.2)

end Expr

/-! ## Statements and programs -/

namespace Stmt

mutual

/-- The tokens of a printed statement derive its normal form. -/
theorem derives_layout {s : Stmt} (h : ∀ n ∈ s.exprNodes, n.Literal) (depth : Nat) :
    Derives true (tokens (s.layout depth)) s.normalize.eraseLines := by
  match s with
  | .empty _ => exact .empty rfl
  | .block body _ =>
    have hd := derives_layoutLines h (depth + 1)
    simp only [layout, List.cons_append, tokens_append, tokens_token_cons, tokens_newline_cons,
      tokens_nil]
    exact .block rfl hd rfl
  | .ifThen condition thenBranch _ =>
    simp only [exprNodes, List.mem_append, or_imp, forall_and] at h
    simp only [layout, List.cons_append, tokens_append, tokens_token_cons, tokens_space_cons]
    exact .ifThen rfl (Expr.derives_layoutParens h.1) (derives_layout h.2 depth)
  | .ifElse condition thenBranch elseBranch line =>
    simp only [exprNodes, List.mem_append, or_imp, forall_and] at h
    have hc := Expr.derives_layoutParens h.1.1
    have helse := derives_layout h.2 depth
    simp only [layout, List.cons_append, List.append_assoc, tokens_append, tokens_token_cons,
      tokens_space_cons]
    rw [normalize]
    by_cases hopen : thenBranch.endsOpen = true
    · -- the braces make a block of the branch, and a block ends in no `if`
      have hbody := DerivesAll.cons (derives_layout h.1.2 (depth + 1)) .nil
      have hblock := Derives.block (t := ⟨.symbol .leftBrace, 0⟩) (u := ⟨.symbol .rightBrace, 0⟩)
        rfl hbody rfl
      have hif := Derives.ifElse (t := ⟨.keyword .ifWord, 0⟩) (u := ⟨.keyword .elseWord, 0⟩)
        rfl hc hblock (fun _ => rfl) rfl helse
      rw [if_pos hopen, if_pos hopen]
      simp only [List.cons_append, List.append_assoc, List.nil_append, List.append_nil] at hif
      simp only [List.cons_append, List.append_assoc, List.nil_append, tokens_append,
        tokens_token_cons, tokens_newline_cons, tokens_nil]
      exact hif
    · have hclosed : thenBranch.normalize.eraseLines.endsOpen = false := by
        simpa [eraseLines] using hopen
      have hif := Derives.ifElse (t := ⟨.keyword .ifWord, 0⟩) (u := ⟨.keyword .elseWord, 0⟩)
        rfl hc (derives_layout h.1.2 depth) (fun _ => hclosed) rfl helse
      rw [if_neg hopen, if_neg hopen]
      simp only [List.cons_append, List.append_assoc] at hif
      exact hif
  | .whileDo condition body _ =>
    simp only [exprNodes, List.mem_append, or_imp, forall_and] at h
    simp only [layout, List.cons_append, tokens_append, tokens_token_cons, tokens_space_cons]
    exact .whileDo rfl (Expr.derives_layoutParens h.1) (derives_layout h.2 depth)
  | .doWhile body condition _ =>
    simp only [exprNodes, List.mem_append, or_imp, forall_and] at h
    simp only [layout, List.cons_append, tokens_append, tokens_token_cons, tokens_space_cons,
      tokens_nil]
    exact .doWhile rfl (derives_layout h.1 depth) rfl (Expr.derives_layoutParens h.2) rfl
  | .forDo init condition step body _ =>
    simp only [exprNodes, List.mem_append, or_imp, forall_and] at h
    have hc := (Expr.derives_layout h.1.1.2).widen
    have hs := (Expr.derives_layout h.1.2).widen
    simp only [layout, List.cons_append, tokens_append, tokens_token_cons, tokens_space_cons]
    exact .forDo rfl rfl (derives_layout h.1.1.1 depth) hc rfl hs rfl (derives_layout h.2 depth)
  | .exprs [] _ => exact .empty rfl
  | .exprs (e :: es) line =>
    have hd := Expr.derives_layoutList h
    obtain ⟨t, ts, hts, -⟩ := hd.first
    have ht : t.line = 0 := line_of_mem_tokens (hts ▸ List.mem_cons_self)
    have hnormal : (exprs (e :: es) line).normalize.eraseLines =
        .exprs ((e :: es).map fun e => e.normalize.eraseLines) t.line := by
      simp [normalize, eraseLines, mapLines, Expr.eraseLines, ht]
    rw [hts] at hd
    rw [hnormal, layout, tokens_append, hts]
    exact .exprs hd rfl
  | .print value _ =>
    have hd := (Expr.derives_layout h).widen
    simp only [layout, List.cons_append, tokens_append, tokens_token_cons, tokens_space_cons,
      tokens_nil]
    exact .print rfl hd rfl

theorem derives_layoutLines {ss : List Stmt} (h : ∀ n ∈ exprNodesAll ss, n.Literal) (depth : Nat) :
    DerivesAll true (tokens (layoutLines depth ss))
      (mapLinesAll (fun _ => 0) (normalizeAll ss)) := by
  match ss with
  | [] => exact .nil
  | s :: ss =>
    simp only [exprNodesAll, List.mem_append, or_imp, forall_and] at h
    simp only [layoutLines, List.cons_append, tokens_append, tokens_newline_cons]
    exact .cons (derives_layout h.1 depth) (derives_layoutLines h.2 depth)

end

end Stmt

/-- The tokens of a printed program derive its normal form. -/
theorem Program.derives_layout {p : Program} (h : ∀ n ∈ p.exprNodes, n.Literal) :
    Program.Derives true (tokens p.layout) p.normalize.eraseLines := by
  cases p with
  | nil => exact .nil
  | cons s ss =>
    simp only [exprNodes, List.flatMap_cons, List.mem_append, or_imp, forall_and,
      ← Stmt.exprNodesAll_eq_flatMap] at h
    have hss := Stmt.derives_layoutLines h.2 0
    rw [Stmt.mapLinesAll_eq_map, Stmt.normalizeAll_eq_map] at hss
    rw [layout, tokens_append]
    exact .cons (Stmt.derives_layout h.1 0) hss

end Imp32
