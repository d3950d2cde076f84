import Mathlib.Data.List.Chain
import Imp32.Layout
import Imp32.Proofs.Nodes
import Imp32.Proofs.Scanning

/-!
# The tokens of a printed tree

Scanning the text of a layout gives back the tokens of the layout, as long as no piece of it runs
into the next one (`Piece.Apart`). The layout of a tree is such a layout: around all but the unary
operators stand gaps or brackets, which run into nothing, and a unary operator stands before a
digit, a letter or a parenthesis.
-/

namespace Imp32

/-! ## Pieces that stay apart -/

/-- The characters that can follow an operator as a part of it or of a comment. -/
def operatorTail : List Char := ['+', '-', '&', '|', '=', '/', '*']

theorem Pending.extend?_symbol {c : Char} (h : c ∉ operatorTail) (sym : Symbol) :
    (Pending.symbol sym).extend? c = none := by
  simp only [operatorTail, List.mem_cons, List.not_mem_nil, or_false, not_or] at h
  obtain ⟨hplus, hminus, hand, hor, heq, hslash, hstar⟩ := h
  have hsym : sym.extend? c = none := by
    unfold Symbol.extend?
    split <;> first | rfl | contradiction
  simp [extend?, hsym, hslash, hstar]

/-- No character that ends words and operators continues the spelling of a token. -/
theorem Pending.extend?_ofKind {c : Char} (hword : isWordPart c = false) (h : c ∉ operatorTail)
    (k : Token.Kind) : (Pending.ofKind k).extend? c = none := by
  cases k with
  | integer n =>
    have hdigit : ¬ c.isDigit = true := fun hc => by simp [isWordPart_of_isDigit hc] at hword
    simp [ofKind, extend?, hdigit]
  | identifier name => simp [ofKind, extend?, hword]
  | keyword k => simp [ofKind, extend?, hword]
  | symbol sym => exact extend?_symbol h sym
  | trivia part => rfl

namespace Piece

/-- What is pending after a piece. -/
def pending : Piece → Pending
  | .token kind => .ofKind kind
  | .space | .newline _ => .nothing

/-- The second piece does not begin with a character that would continue the first. -/
def Apart (q r : Piece) : Prop := ∀ c ∈ r.text.toList.head?, q.pending.extend? c = none

/-- Gaps and brackets: pieces that neither continue others nor are continued. -/
def separates : Piece → Bool
  | .space | .newline _ => true
  | .token (.symbol .leftParen) | .token (.symbol .rightParen) => true
  | .token (.symbol .leftBrace) | .token (.symbol .rightBrace) => true
  | .token (.symbol .semicolon) | .token (.symbol .comma) => true
  | .token _ => false

theorem apart_of_separates_left {q : Piece} (h : q.separates = true) (r : Piece) : Apart q r := by
  intro c _
  unfold separates at h
  split at h
  case h_9 => cases h
  all_goals simp [pending, Pending.ofKind, Pending.extend?, Symbol.extend?]

theorem apart_of_separates_right {r : Piece} (h : r.separates = true) (q : Piece) : Apart q r := by
  have hend : ∀ c ∈ r.text.toList.head?, isWordPart c = false ∧ c ∉ operatorTail := by
    intro c hc
    unfold separates at h
    split at h
    case h_2 =>
      obtain rfl : '\n' = c := by simpa [text] using hc
      decide
    case h_9 => cases h
    all_goals
      obtain rfl := Option.some.inj hc
      decide
  intro c hc
  obtain ⟨hword, htail⟩ := hend c hc
  cases q with
  | token k => exact Pending.extend?_ofKind hword htail k
  | space => rfl
  | newline depth => rfl

/-- A piece that can be scanned: a gap or a lexable token. -/
def Lexable : Piece → Prop
  | .token kind => kind.Lexable
  | .space | .newline _ => True

theorem lexable_of_separates {q : Piece} (h : q.separates = true) : q.Lexable := by
  unfold separates at h
  split at h
  case h_9 => cases h
  all_goals trivial

/-- The pieces can be scanned, each apart from the next. -/
def Scannable (pieces : List Piece) : Prop :=
  pieces.IsChain Apart ∧ ∀ q ∈ pieces, q.Lexable

@[simp] theorem scannable_nil : Scannable [] := ⟨.nil, by simp⟩

@[simp] theorem scannable_singleton {q : Piece} : Scannable [q] ↔ q.Lexable := by
  simp [Scannable]

/-- A piece that separates may stand before all others. -/
theorem scannable_cons {q : Piece} (hq : q.separates = true) {pieces : List Piece} :
    Scannable (q :: pieces) ↔ Scannable pieces := by
  have hapart := apart_of_separates_left hq
  have hlex := lexable_of_separates hq
  simp [Scannable, List.isChain_cons, hapart, hlex]

/-- A piece that separates may stand between all others. -/
theorem scannable_append_cons {q : Piece} (hq : q.separates = true)
    (before after : List Piece) :
    Scannable (before ++ q :: after) ↔ Scannable before ∧ Scannable after := by
  have hleft := apart_of_separates_left hq
  have hright := apart_of_separates_right hq
  have hlex := lexable_of_separates hq
  simp only [Scannable, List.isChain_append, List.isChain_cons, List.mem_append, List.mem_cons,
    List.head?_cons, Option.mem_some_iff]
  constructor
  · rintro ⟨⟨hbefore, ⟨-, hafter⟩, -⟩, hall⟩
    exact ⟨⟨hbefore, fun r hr => hall r (.inl hr)⟩, hafter, fun r hr => hall r (.inr (.inr hr))⟩
  · rintro ⟨⟨hbefore, hlexb⟩, hafter, hlexa⟩
    refine ⟨⟨hbefore, ⟨fun r _ => hleft r, hafter⟩, ?_⟩, ?_⟩
    · rintro r - _ rfl
      exact hright r
    · rintro r (hr | rfl | hr)
      · exact hlexb r hr
      · exact hlex
      · exact hlexa r hr

/-- Any piece may stand before one that separates. -/
theorem scannable_cons_cons {q r : Piece} (hr : r.separates = true) {pieces : List Piece} :
    Scannable (q :: r :: pieces) ↔ q.Lexable ∧ Scannable pieces := by
  rw [← scannable_singleton]
  exact scannable_append_cons hr [q] pieces

end Piece

/-! ## Scanning pieces -/

theorem Piece.render_append (xs ys : List Piece) : render (xs ++ ys) = render xs ++ render ys := by
  simp [render]

theorem Piece.render_cons (q : Piece) (pieces : List Piece) :
    render (q :: pieces) = q.text ++ render pieces := by
  simp [render]

namespace Scanner

/-- Reading a piece that stays apart from what is pending adds its token, if it is one. -/
theorem feed_piece {s : Scanner} {q r : Piece} {ts : List Token} (hs : s.pending = q.pending)
    (hfinish : s.finish = .ok ts) (hapart : q.Apart r) (hr : r.Lexable) :
    ∃ s' ts', s.feed r.text.toList = .ok s' ∧ s'.pending = r.pending ∧ s'.finish = .ok ts' ∧
      ts'.map Token.kind = ts.map Token.kind ++ Piece.kinds [r] := by
  obtain ⟨kind, hkind, rfl⟩ := finish_eq_ok_iff.mp hfinish
  simp only [Piece.Apart, ← hs] at hapart
  have hgap : ∀ line, finish ⟨s.doneWith kind, line, .nothing⟩ = .ok (s.doneWith kind).reverse :=
    fun line => finish_eq_ok_iff.mpr ⟨none, rfl, rfl⟩
  cases r with
  | token k =>
    refine ⟨_, _, feed_spelling hr hkind hapart, rfl,
      finish_eq_ok_iff.mpr ⟨some k, Pending.kind?_ofKind hr _, rfl⟩, ?_⟩
    simp [doneWith, Piece.kinds]
  | space =>
    have hblank : ∀ c ∈ [' '], (c == '\n' || isBlank c) = true := by simp [isBlank]
    obtain ⟨line, hfeed⟩ := feed_gap hblank hkind (hapart ' ' rfl)
    exact ⟨_, _, hfeed, rfl, hgap line, by simp [Piece.kinds]⟩
  | newline depth =>
    have htext : (Piece.newline depth).text.toList = '\n' :: List.replicate (4 * depth) ' ' :=
      String.toList_ofList
    rw [htext] at hapart ⊢
    have hblank : ∀ c ∈ '\n' :: List.replicate (4 * depth) ' ',
        (c == '\n' || isBlank c) = true := by
      intro c hc
      rcases List.mem_cons.mp hc with rfl | hc
      · rfl
      · rw [List.eq_of_mem_replicate hc]
        rfl
    obtain ⟨line, hfeed⟩ := feed_gap hblank hkind (hapart '\n' rfl)
    exact ⟨_, _, hfeed, rfl, hgap line, by simp [Piece.kinds]⟩

theorem feed_pieces {pieces : List Piece} {s : Scanner} {q : Piece} {ts : List Token}
    (hs : s.pending = q.pending) (hfinish : s.finish = .ok ts)
    (hchain : (q :: pieces).IsChain Piece.Apart) (hlex : ∀ r ∈ pieces, r.Lexable) :
    ∃ s' ts', s.feed (Piece.render pieces).toList = .ok s' ∧ s'.finish = .ok ts' ∧
      ts'.map Token.kind = ts.map Token.kind ++ Piece.kinds pieces := by
  -- The pending token of the scanner is always that of the piece before, `q`.
  induction pieces generalizing s q ts with
  | nil => exact ⟨s, ts, by simp [Piece.render, feed_nil], hfinish, by simp [Piece.kinds]⟩
  | cons r pieces ih =>
    rw [List.isChain_cons_cons] at hchain
    obtain ⟨hapart, hchain⟩ := hchain
    obtain ⟨hr, hlex⟩ := List.forall_mem_cons.mp hlex
    obtain ⟨mid, us, hfeed, hmid, hus, hkinds⟩ := feed_piece hs hfinish hapart hr
    obtain ⟨s', ts', hfeed', hts', hkinds'⟩ := ih hmid hus hchain hlex
    refine ⟨s', ts', ?_, hts', ?_⟩
    · rw [Piece.render_cons, String.toList_append]
      exact feed_append_eq_ok_iff.mpr ⟨mid, hfeed, hfeed'⟩
    · rw [hkinds', hkinds, List.append_assoc]
      exact congrArg (_ ++ ·) (List.filterMap_append (l := [r])).symm

end Scanner

/-- Scanning the text of a layout gives back its tokens. -/
theorem Piece.scan_render {pieces : List Piece} (h : Piece.Scannable pieces) :
    ∃ ts, scan (Piece.render pieces) = .ok ts ∧ ts.map Token.kind = Piece.kinds pieces := by
  have hchain : (Piece.space :: pieces).IsChain Piece.Apart :=
    ((Piece.scannable_cons rfl).mpr h).1
  obtain ⟨s, ts, hfeed, hts, hkinds⟩ :=
    Scanner.feed_pieces (s := {}) rfl rfl hchain h.2
  exact ⟨ts, scan_eq_ok_iff.mpr ⟨s, hfeed, hts⟩, hkinds⟩

/-! ## The layout of a tree -/

/-- If the node is a variable, a token can hold its name. -/
def Expr.Named : Expr → Prop
  | .var name _ => isName name = true
  | .num _ _ | .unary _ _ _ | .binary _ _ _ _ => True

theorem Value.natAbs_lexable (v : Value) : (Token.Kind.integer v.toInt.natAbs).Lexable := by
  have hlow := v.le_toInt
  have hhigh := v.toInt_lt
  refine ⟨Int.natCast_nonneg _, ?_⟩
  omega

namespace Piece

/-- No character of a word continues an operator. -/
theorem apart_symbol (sym : Symbol) {r : Piece}
    (h : ∀ c ∈ r.text.toList.head?, isWordPart c = true) : Apart (.sym sym) r := by
  intro c hc
  refine Pending.extend?_symbol (fun hmem => ?_) sym
  have hword := h c hc
  simp only [operatorTail, List.mem_cons, List.not_mem_nil, or_false] at hmem
  rcases hmem with rfl | rfl | rfl | rfl | rfl | rfl | rfl <;> exact absurd hword (by decide)

theorem apart_integer (sym : Symbol) {n : Int} (h : 0 ≤ n) :
    Apart (.sym sym) (.token (.integer n)) := by
  obtain ⟨m, rfl⟩ := Int.eq_ofNat_of_zero_le h
  refine apart_symbol sym fun c hc => isWordPart_of_isDigit ?_
  have hmem : c ∈ Nat.toDigits 10 m := by
    rw [← Nat.toList_repr]
    exact List.mem_of_mem_head? hc
  exact Nat.isDigit_of_mem_toDigits (by decide) (by decide) hmem

theorem apart_identifier (sym : Symbol) {name : String} (h : isName name = true) :
    Apart (.sym sym) (.token (.identifier name)) :=
  apart_symbol sym fun _ hc => isWordPart_of_isName h (List.mem_of_mem_head? hc)

theorem scannable_symbol_cons {sym : Symbol} {q : Piece} {pieces : List Piece}
    (h : Apart (.sym sym) q) (hs : Scannable (q :: pieces)) :
    Scannable (.sym sym :: q :: pieces) :=
  ⟨hs.1.cons_cons h, List.forall_mem_cons.mpr ⟨trivial, hs.2⟩⟩

end Piece

open Piece

theorem Value.scannable_layout (v : Value) : Scannable v.layout := by
  have hlex := v.natAbs_lexable
  unfold layout
  split
  · rename_i hneg
    rw [Int.ofNat_natAbs_of_nonpos (Int.le_of_lt hneg)] at hlex
    exact scannable_symbol_cons (apart_integer _ (by omega)) (scannable_singleton.mpr hlex)
  · rename_i hpos
    rw [Int.natAbs_of_nonneg (Int.not_lt.mp hpos)] at hlex
    exact scannable_singleton.mpr hlex

namespace Expr

theorem scannable_layout {e : Expr} (h : ∀ n ∈ e.nodes, n.Named) : Scannable e.layout := by
  induction e with
  | num value line => exact value.scannable_layout
  | var name line => exact scannable_singleton.mpr (h _ List.mem_cons_self)
  | unary op operand line ih =>
    have hs := ih fun n hn => h n (List.mem_cons_of_mem _ hn)
    unfold layout
    split
    · rw [List.cons_append, List.cons_append, scannable_cons_cons rfl, scannable_append_cons rfl]
      exact ⟨trivial, hs, scannable_nil⟩
    · rename_i hsigned
      cases operand with
      | num value line =>
        have hpos : ¬ value.toInt < 0 := by simpa [startsSigned] using hsigned
        simp only [layout, Value.layout, if_neg hpos] at hs ⊢
        exact scannable_symbol_cons (apart_integer _ (Int.not_lt.mp hpos)) hs
      | var name line =>
        have hname : isName name = true := h (.var name line) (by simp [nodes])
        exact scannable_symbol_cons (apart_identifier _ hname) hs
      | unary op' operand line => exact absurd rfl hsigned
      | binary left op' right line =>
        exact scannable_symbol_cons (apart_of_separates_right rfl _) hs
  | binary left op right line ihl ihr =>
    simp only [nodes, List.mem_cons, List.mem_append, or_imp, forall_and] at h
    simp only [layout, List.cons_append, List.append_assoc]
    rw [scannable_cons rfl, scannable_append_cons rfl, scannable_cons_cons rfl,
      scannable_append_cons rfl]
    exact ⟨ihl h.2.1, trivial, ihr h.2.2, scannable_nil⟩

theorem scannable_layoutList {es : List Expr} (h : ∀ n ∈ es.flatMap nodes, n.Named) :
    Scannable (layoutList es) := by
  induction es with
  | nil => exact scannable_nil
  | cons e es ih =>
    simp only [List.flatMap_cons, List.mem_append, or_imp, forall_and] at h
    cases es with
    | nil => exact scannable_layout h.1
    | cons e' es =>
      rw [layoutList, scannable_append_cons rfl, scannable_cons rfl]
      · exact ⟨scannable_layout h.1, ih h.2⟩
      · simp

end Expr

namespace Stmt

/-- A keyword, a condition and more. -/
theorem scannable_head {k : Keyword} {condition : Expr} {pieces : List Piece} :
    Scannable (.word k :: .space :: (condition.layoutParens ++ .space :: pieces)) ↔
      Scannable condition.layout ∧ Scannable pieces := by
  simp only [Expr.layoutParens, List.cons_append, List.append_assoc, List.nil_append]
  rw [scannable_cons_cons rfl, scannable_cons rfl, scannable_append_cons rfl, scannable_cons rfl]
  exact and_iff_right trivial

theorem scannable_append_layoutLines {pieces : List Piece} {depth : Nat} {ss : List Stmt} :
    Scannable (pieces ++ layoutLines depth ss) ↔
      Scannable pieces ∧ Scannable (layoutLines depth ss) := by
  cases ss with
  | nil => simp [layoutLines]
  | cons s ss => rw [layoutLines, List.cons_append, scannable_append_cons rfl, scannable_cons rfl]

mutual

theorem scannable_layout {s : Stmt} (h : ∀ n ∈ s.exprNodes, n.Named) (depth : Nat) :
    Scannable (s.layout depth) := by
  match s with
  | .empty _ => exact scannable_singleton.mpr trivial
  | .block body _ =>
    rw [layout, List.cons_append, scannable_cons rfl, scannable_append_cons rfl]
    exact ⟨scannable_layoutLines h (depth + 1), scannable_singleton.mpr trivial⟩
  | .ifThen condition thenBranch _ =>
    simp only [exprNodes, List.mem_append, or_imp, forall_and] at h
    rw [layout, List.cons_append, List.cons_append, scannable_head]
    exact ⟨Expr.scannable_layout h.1, scannable_layout h.2 depth⟩
  | .ifElse condition thenBranch elseBranch _ =>
    simp only [exprNodes, List.mem_append, or_imp, forall_and] at h
    simp only [layout, List.cons_append, List.append_assoc]
    rw [scannable_head, scannable_append_cons rfl, scannable_cons_cons rfl]
    refine ⟨Expr.scannable_layout h.1.1, ?_, trivial, scannable_layout h.2 depth⟩
    split
    · rw [scannable_cons rfl, scannable_cons rfl, scannable_append_cons rfl, scannable_singleton]
      exact ⟨scannable_layout h.1.2 (depth + 1), trivial⟩
    · exact scannable_layout h.1.2 depth
  | .whileDo condition body _ =>
    simp only [exprNodes, List.mem_append, or_imp, forall_and] at h
    rw [layout, List.cons_append, List.cons_append, scannable_head]
    exact ⟨Expr.scannable_layout h.1, scannable_layout h.2 depth⟩
  | .doWhile body condition _ =>
    simp only [exprNodes, List.mem_append, or_imp, forall_and] at h
    simp only [layout, Expr.layoutParens, List.cons_append, List.append_assoc, List.nil_append]
    rw [scannable_cons_cons rfl, scannable_append_cons rfl, scannable_cons_cons rfl,
      scannable_cons rfl, scannable_append_cons rfl, scannable_singleton]
    exact ⟨trivial, scannable_layout h.1 depth, trivial, Expr.scannable_layout h.2, trivial⟩
  | .forDo init condition step body _ =>
    simp only [exprNodes, List.mem_append, or_imp, forall_and] at h
    simp only [layout, List.cons_append, List.append_assoc]
    rw [scannable_cons_cons rfl, scannable_cons rfl, scannable_append_cons rfl,
      scannable_append_cons rfl, scannable_cons rfl, scannable_append_cons rfl, scannable_cons rfl]
    exact ⟨trivial, scannable_layout h.1.1.1 depth, Expr.scannable_layout h.1.1.2,
      Expr.scannable_layout h.1.2, scannable_layout h.2 depth⟩
  | .exprs list _ =>
    rw [layout, scannable_append_cons rfl]
    exact ⟨Expr.scannable_layoutList h, scannable_nil⟩
  | .print value _ =>
    rw [layout, List.cons_append, List.cons_append, scannable_cons_cons rfl,
      scannable_append_cons rfl]
    exact ⟨trivial, Expr.scannable_layout h, scannable_nil⟩

theorem scannable_layoutLines {ss : List Stmt} (h : ∀ n ∈ exprNodesAll ss, n.Named)
    (depth : Nat) : Scannable (layoutLines depth ss) := by
  match ss with
  | [] => exact scannable_nil
  | s :: ss =>
    simp only [exprNodesAll, List.mem_append, or_imp, forall_and] at h
    rw [layoutLines, List.cons_append, scannable_cons rfl, scannable_append_layoutLines]
    exact ⟨scannable_layout h.1 depth, scannable_layoutLines h.2 depth⟩

end

end Stmt

/-! ## The layout of a program -/

namespace Program

/-- The layout of a program: its statements on lines of their own. -/
def layout : Program → List Piece
  | [] => []
  | s :: ss => s.layout 0 ++ Stmt.layoutLines 0 ss

theorem render_eq (p : Program) : p.render = Piece.render p.layout := by
  cases p with
  | nil => rfl
  | cons s ss =>
    rw [layout, Piece.render_append]
    induction ss generalizing s with
    | nil => simp [Program.render, Stmt.render, Stmt.layoutLines, Piece.render]
    | cons s' ss ih =>
      have hnewline : (Piece.newline 0).text = "\n" := rfl
      simp only [Program.render, List.map_cons, String.intercalate_cons_cons] at ih ⊢
      rw [ih s', Stmt.layoutLines, List.cons_append, Piece.render_cons, Piece.render_append,
        hnewline, String.append_assoc]
      rfl

theorem scannable_layout {p : Program} (h : ∀ n ∈ p.exprNodes, n.Named) : Scannable p.layout := by
  cases p with
  | nil => exact scannable_nil
  | cons s ss =>
    simp only [exprNodes, List.flatMap_cons, List.mem_append, or_imp, forall_and,
      ← Stmt.exprNodesAll_eq_flatMap] at h
    rw [layout, Stmt.scannable_append_layoutLines]
    exact ⟨Stmt.scannable_layout h.1 0, Stmt.scannable_layoutLines h.2 0⟩

/-- Scanning a printed program gives the tokens of its layout. -/
theorem scan_render {p : Program} (h : ∀ n ∈ p.exprNodes, n.Named) :
    ∃ ts, scan p.render = .ok ts ∧ ts.map Token.kind = Piece.kinds p.layout := by
  rw [render_eq]
  exact Piece.scan_render (scannable_layout h)

end Program

end Imp32
