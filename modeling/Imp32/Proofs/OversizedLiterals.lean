import Imp32.Proofs.LayoutIndependence
import Imp32.Proofs.Precedence

/-!
# Literals that are too large

On the tokens of a printed tree, a parser takes all of them, or it comes to a literal that is too
large for a word: nothing else goes wrong, however deep in the tree the literal stands
(`Program.parse_render_cases`). Each parser is put together from actions of which this is known, so
it is shown once for each way of putting them together (`Reading.Reaches`), and then by induction on
the tree.
-/

namespace Imp32

open Piece Token.Kind

namespace Reading

variable {α β : Type}

/-- The action ends well and leaves the tokens `rest`, or else fails for a literal that is too
large. -/
def Reaches (x : Reading α) (ts rest : List Token) : Prop :=
  (∃ v, x ts = (.ok v, rest)) ∨ ∃ line left, x ts = (.error ⟨.literalTooLarge, line⟩, left)

theorem reaches_pure (a : α) (ts : List Token) : Reaches (pure a) ts ts := .inl ⟨a, rfl⟩

theorem Reaches.of_eq {x y : Reading α} {ts us rest : List Token} (heq : x ts = y us)
    (h : y.Reaches us rest) : x.Reaches ts rest := by
  unfold Reaches
  rw [heq]
  exact h

theorem Reaches.bind {x : Reading α} {f : α → Reading β} {ts mid rest : List Token}
    (hx : x.Reaches ts mid) (hf : ∀ v, (f v).Reaches mid rest) : (x >>= f).Reaches ts rest := by
  unfold Reaches
  rw [bind_apply]
  rcases hx with ⟨v, hv⟩ | ⟨line, left, herror⟩
  · rw [hv]
    exact hf v
  · rw [herror]
    exact .inr ⟨line, left, rfl⟩

theorem reaches_ifNext {next : Token.Kind → Option (Nat → Reading α)} {x : Nat → Reading α}
    {t : Token} {us rest : List Token} (other : Reading α) (hnext : next t.kind = some x)
    (h : (x t.line).Reaches us rest) : (ifNext next other).Reaches (t :: us) rest := by
  refine .of_eq ?_ h
  rw [ifNext, hnext]

theorem reaches_ifNext_other {next : Token.Kind → Option (Nat → Reading α)} {other : Reading α}
    {ts rest : List Token} (hnext : ∀ t ∈ ts.head?, next t.kind = none)
    (h : other.Reaches ts rest) : (ifNext next other).Reaches ts rest :=
  .of_eq (ifNext_other hnext) h

theorem reaches_expect {wanted : Token.Kind} {t : Token} (ht : t.kind = wanted) (line : Nat)
    (us : List Token) : (reading (expect wanted line)).Reaches (t :: us) us := by
  refine .inl ⟨(), ?_⟩
  rw [reading_expect_cons, if_pos ht]

theorem reaches_expectCloseParen {t : Token} (ht : t.kind = .symbol .rightParen) (line : Nat)
    (us : List Token) : (reading (expectCloseParen line)).Reaches (t :: us) us := by
  refine .inl ⟨(), ?_⟩
  rw [reading_expectCloseParen_cons, if_pos ht]

end Reading

open Reading

/-! ## Expressions -/

namespace Expr

theorem reaches_literal (n : Int) (line : Nat) (us : List Token) :
    (literal n line).Reaches us us := by
  unfold literal
  cases Value.ofLiteral? n with
  | some v => exact reaches_pure _ us
  | none => exact .inr ⟨line, us, rfl⟩

/-- A chain goes on up to where none of its operators follows. -/
theorem reaches_readingChain {k : Nat} {ts : List Token} (left : Expr)
    (hnext : NotNext (Joins (k + 1)) ts) : (readingChain k left).Reaches ts ts :=
  .inl ⟨left, readingChain_of_notNext hnext left⟩

/-- What stands at a height also stands at a greater one. -/
theorem reaches_parseOperand {j k : Nat} {ts rest : List Token} (hjk : j ≤ k)
    (h : (reading (parseOperand j)).Reaches ts rest) (hrest : NotNext (JoinsUpTo k) rest) :
    (reading (parseOperand k)).Reaches ts rest := by
  rcases h with ⟨e, he⟩ | ⟨line, left, herror⟩
  · refine .inl ⟨e, reading_parseOperand_of_le hjk he fun _ _ i hi t ht hjoins => ?_⟩
    exact hrest t ht ⟨i, hi.2, hjoins⟩
  · exact .inr ⟨line, left, reading_parseOperand_of_le hjk herror nofun⟩

theorem reaches_parseOperand_of_unary {ts rest : List Token} (k : Nat)
    (h : (reading parseUnary).Reaches ts rest) (hrest : NotNext (JoinsUpTo k) rest) :
    (reading (parseOperand k)).Reaches ts rest := by
  rw [← reading_parseOperand_zero] at h
  exact reaches_parseOperand (Nat.zero_le k) h hrest

theorem reaches_parse_of_operand {ts rest : List Token}
    (h : (reading (parseOperand 9)).Reaches ts rest) (hrest : NotNext IsBinary rest) :
    (reading parse).Reaches ts rest := by
  rcases h with ⟨e, he⟩ | ⟨line, left, herror⟩
  · refine .inl ⟨e, reading_parse_of_operand he fun _ _ t ht hassigns => ?_⟩
    exact hrest t ht hassigns.isBinary
  · exact .inr ⟨line, left, reading_parse_of_operand herror nofun⟩

theorem reaches_parse {ts rest : List Token} (h : (reading parseUnary).Reaches ts rest)
    (hrest : NotNext IsBinary rest) : (reading parse).Reaches ts rest :=
  reaches_parse_of_operand
    (reaches_parseOperand_of_unary 9 h fun t ht hjoins => hrest t ht hjoins.isBinary) hrest

theorem reaches_enclosed {ts rest : List Token} {u : Token} (hu : u.kind = .symbol .rightParen)
    (h : (reading parse).Reaches ts (u :: rest)) (line : Nat) : (enclosed line).Reaches ts rest :=
  h.bind fun e => (reaches_expectCloseParen hu line rest).bind fun _ => reaches_pure e rest

theorem reaches_parens {ts rest : List Token} {t u : Token} (ht : t.kind = .symbol .leftParen)
    (hu : u.kind = .symbol .rightParen) (h : (reading parse).Reaches ts (u :: rest)) :
    (reading parseUnary).Reaches (t :: ts) rest := by
  have hprimary : (reading parsePrimary).given t = enclosed t.line := by
    rw [given_reading_parsePrimary, ht]
  rw [reading_parseUnary]
  refine reaches_ifNext_other (fun t' ht' => ?_) ?_
  · cases ht'
    rw [ht]
    rfl
  · exact .of_eq (congrFun hprimary ts) (reaches_enclosed hu h t.line)

/-- Two operands with an operator between them, whichever it is. -/
theorem reaches_between {ts us rest : List Token} {t : Token} {op : BinaryOp}
    (ht : t.kind = .symbol (.binary op))
    (hleft : (reading parseUnary).Reaches (ts ++ t :: us) (t :: us))
    (hright : (reading parseUnary).Reaches us rest) (hrest : NotNext IsBinary rest) :
    (reading parse).Reaches (ts ++ t :: us) rest := by
  have hop : t.kind.binaryOp? = some op := by rw [ht]; rfl
  have hbelow (k : Nat) : NotNext (JoinsUpTo k) rest := fun u hu hjoins =>
    hrest u hu hjoins.isBinary
  cases hassigns : op.assigns with
  | true =>
    have hnone : NotNext (JoinsUpTo 9) (t :: us) := by
      rw [notNext_cons, ht]
      exact not_joinsUpTo_of_assigns hassigns 9
    rw [reading_parse]
    refine (reaches_parseOperand_of_unary 9 hleft hnone).bind fun left => ?_
    refine reaches_ifNext _ (by rw [hop, Option.filter_some, if_pos hassigns]; rfl) ?_
    exact (reaches_parse hright hrest).bind fun right => reaches_pure _ rest
  | false =>
    obtain ⟨level, hheight⟩ := op.exists_height?_of_not_assigns hassigns
    obtain ⟨k, hk⟩ := level.height_pos
    rw [hk] at hheight
    have hnone : NotNext (JoinsUpTo k) (t :: us) := by
      rw [notNext_cons, ht]
      exact not_joinsUpTo_of_height? hheight
    have hle : k + 1 ≤ 9 := hk ▸ level.height_le_nine
    refine reaches_parse_of_operand (reaches_parseOperand hle ?_ (hbelow 9)) hrest
    rw [reading_parseOperand_succ]
    refine (reaches_parseOperand_of_unary k hleft hnone).bind fun left => ?_
    rw [readingChain_eq]
    refine reaches_ifNext _ (by rw [hop, Option.filter_some, if_pos (by simp [hheight])]; rfl) ?_
    refine (reaches_parseOperand_of_unary k hright (hbelow k)).bind fun right => ?_
    exact reaches_readingChain _ fun u hu hjoins => hbelow (k + 1) u hu ⟨_, Nat.le_refl _, hjoins⟩

/-- The tokens of a printed expression are taken, unless a literal is too large. -/
theorem reaches_layout (e : Expr) (rest : List Token) :
    (reading parseUnary).Reaches (tokens e.layout ++ rest) rest := by
  induction e generalizing rest with
  | num value line =>
    have hliteral (n : Int) : (reading parseUnary).Reaches (⟨.integer n, 0⟩ :: rest) rest := by
      rw [reading_parseUnary]
      refine reaches_ifNext_other (fun t ht => ?_) ?_
      · cases ht
        rfl
      · exact .of_eq (congrFun (given_reading_parsePrimary _) rest) (reaches_literal n 0 rest)
    simp only [layout, Value.layout]
    split
    · rw [reading_parseUnary]
      exact reaches_ifNext _ rfl ((hliteral _).bind fun operand => reaches_pure _ rest)
    · exact hliteral _
  | var name line =>
    rw [reading_parseUnary]
    refine reaches_ifNext_other (fun t ht => ?_) ?_
    · cases ht
      rfl
    · exact .of_eq (congrFun (given_reading_parsePrimary _) rest) (reaches_pure _ rest)
  | unary op operand line ih =>
    have hop : (Token.Kind.symbol op.symbol).unaryOp? = some op :=
      UnaryOp.mem_symbols_iff.mp op.symbol_mem_symbols
    have hoperand (us : List Token) (h : (reading parseUnary).Reaches us rest) :
        (reading parseUnary).Reaches (⟨.symbol op.symbol, 0⟩ :: us) rest := by
      rw [reading_parseUnary]
      refine reaches_ifNext _ (by rw [hop]; rfl) ?_
      exact h.bind fun operand => reaches_pure _ rest
    unfold layout
    split
    · simp only [List.cons_append, List.append_assoc, tokens_token_cons, tokens_append, tokens_nil,
        List.nil_append]
      exact hoperand _ (reaches_parens rfl rfl (reaches_parse (ih _) (by simp [IsBinary])))
    · exact hoperand _ (ih rest)
  | binary left op right line ihl ihr =>
    have hts : tokens (binary left op right line).layout ++ rest =
        ⟨.symbol .leftParen, 0⟩ :: (tokens left.layout ++ ⟨.symbol (.binary op), 0⟩ ::
          (tokens right.layout ++ ⟨.symbol .rightParen, 0⟩ :: rest)) := by
      simp [layout]
    rw [hts]
    refine reaches_parens rfl rfl (u := ⟨.symbol .rightParen, 0⟩) ?_
    exact reaches_between rfl (ihl _) (ihr _) (by simp [IsBinary])

theorem reaches_parse_layout (e : Expr) {rest : List Token} (hrest : NotNext IsBinary rest) :
    (reading parse).Reaches (tokens e.layout ++ rest) rest :=
  reaches_parse (e.reaches_layout rest) hrest

theorem reaches_layoutParens (e : Expr) (line : Nat) (rest : List Token) :
    (reading (parseParens line)).Reaches (tokens e.layoutParens ++ rest) rest := by
  simp only [layoutParens, List.cons_append, List.append_assoc, tokens_token_cons, tokens_append,
    tokens_nil, List.nil_append]
  rw [reading_parseParens]
  refine (reaches_expect rfl line _).bind fun _ => ?_
  exact reaches_enclosed rfl (e.reaches_parse_layout (by simp [IsBinary])) line

theorem reaches_layoutList (e : Expr) (es : List Expr) {rest : List Token}
    (hrest : NotNext (fun k => IsBinary k ∨ k = .symbol .comma) rest) :
    (reading parseList).Reaches (tokens (layoutList (e :: es)) ++ rest) rest := by
  induction es generalizing e with
  | nil =>
    rw [reading_parseList]
    refine (e.reaches_parse_layout fun t ht hk => hrest t ht (.inl hk)).bind fun v => ?_
    refine reaches_ifNext_other (fun t ht => if_neg fun hk => ?_) (reaches_pure _ rest)
    exact hrest t ht (.inr hk)
  | cons e' es ih =>
    have hts : tokens (layoutList (e :: e' :: es)) ++ rest =
        tokens e.layout ++ ⟨.symbol .comma, 0⟩ :: (tokens (layoutList (e' :: es)) ++ rest) := by
      simp [layoutList]
    rw [hts, reading_parseList]
    refine (e.reaches_parse_layout (by simp [IsBinary])).bind fun v => ?_
    exact reaches_ifNext _ (if_pos rfl) ((ih e').bind fun vs => reaches_pure _ rest)

theorem first_layout (e : Expr) :
    ∃ t us, tokens e.layout = t :: us ∧ t.kind.startsExpr = true := by
  cases e with
  | num value line =>
    simp only [layout, Value.layout]
    split
    · exact ⟨_, _, rfl, rfl⟩
    · exact ⟨_, _, rfl, rfl⟩
  | var name line => exact ⟨_, _, rfl, rfl⟩
  | unary op operand line =>
    have hop : (Token.Kind.symbol op.symbol).startsExpr = true :=
      UnaryOp.startsExpr_of_mem_symbols op.symbol_mem_symbols
    unfold layout
    split
    · exact ⟨_, _, rfl, hop⟩
    · exact ⟨_, _, rfl, hop⟩
  | binary left op right line => exact ⟨_, _, rfl, rfl⟩

theorem first_layoutList (e : Expr) (es : List Expr) :
    ∃ t us, tokens (layoutList (e :: es)) = t :: us ∧ t.kind.startsExpr = true := by
  obtain ⟨t, us, hts, ht⟩ := e.first_layout
  cases es with
  | nil => exact ⟨t, us, hts, ht⟩
  | cons e' es =>
    refine ⟨t, us ++ ⟨.symbol .comma, 0⟩ :: tokens (layoutList (e' :: es)), ?_, ht⟩
    simp [layoutList, hts]

end Expr

/-! ## Statements and programs -/

namespace Stmt

/-- Every printed statement has a first token, which neither closes a block nor begins an
alternative. -/
theorem first_layout (s : Stmt) (depth : Nat) :
    ∃ t us, tokens (s.layout depth) = t :: us ∧ t.kind ≠ .symbol .rightBrace ∧
      t.kind ≠ .keyword .elseWord := by
  cases s with
  | exprs list line =>
    cases list with
    | nil => exact ⟨_, _, rfl, by simp, by simp⟩
    | cons e es =>
      obtain ⟨t, us, hts, ht⟩ := Expr.first_layoutList e es
      refine ⟨t, us ++ [⟨.symbol .semicolon, 0⟩], by simp [layout, hts], ?_, ?_⟩
      · intro hk
        rw [hk] at ht
        cases ht
      · intro hk
        rw [hk] at ht
        cases ht
  | _ => exact ⟨_, _, rfl, by simp, by simp⟩

theorem notNext_else_layoutLines (ss : List Stmt) (depth : Nat) {rest : List Token}
    (hrest : NotNext (· = .keyword .elseWord) rest) :
    NotNext (· = .keyword .elseWord) (tokens (layoutLines depth ss) ++ rest) := by
  cases ss with
  | nil => exact hrest
  | cons s ss =>
    obtain ⟨t, us, hts, -, ht⟩ := s.first_layout depth
    simp only [layoutLines, List.cons_append, tokens_newline_cons, tokens_append, hts]
    exact notNext_cons.mpr ht

theorem reading_parse_of_startsExpr {t : Token} (ht : t.kind.startsExpr = true)
    (us : List Token) : reading parse (t :: us) = reading (parseExprs t.line) (t :: us) := by
  have hgiven : (reading parse).given t = (reading (parseExprs t.line)).given t := by
    rw [given_reading_parse]
    split
    case h_8 => rfl
    all_goals
      rename_i hk
      rw [hk] at ht
      cases ht
  exact congrFun hgiven us

/-- Unless a brace is next, the action takes a statement and goes on in the same way. -/
def Repeats (x : Reading (List Stmt)) : Prop :=
  ∀ (t : Token) (us : List Token), t.kind ≠ .symbol .rightBrace →
    x (t :: us) = (do
      let s ← reading parse
      return s :: (← x) : Reading (List Stmt)) (t :: us)

theorem repeats_parseBody (line : Nat) : Repeats (reading (parseBody line)) := fun _ us ht =>
  reading_parseBody_cons ht us

theorem Repeats.reaches {x : Reading (List Stmt)} (hx : Repeats x) {s : Stmt} {depth : Nat}
    {mid rest : List Token} (hs : (reading parse).Reaches (tokens (s.layout depth) ++ mid) mid)
    (hmid : x.Reaches mid rest) : x.Reaches (tokens (s.layout depth) ++ mid) rest := by
  obtain ⟨t, us, hts, ht, -⟩ := s.first_layout depth
  rw [hts] at hs ⊢
  refine .of_eq (hx t (us ++ mid) ht) ?_
  exact hs.bind fun v => hmid.bind fun vs => reaches_pure _ rest

theorem reaches_parseBody_brace {t : Token} (ht : t.kind = .symbol .rightBrace) (line : Nat)
    (rest : List Token) : (reading (parseBody line)).Reaches (t :: rest) rest :=
  .inl ⟨[], reading_parseBody_brace ht rest⟩

theorem reaches_block {ts rest : List Token} (h : (reading (parseBody 0)).Reaches ts rest) :
    (reading parse).Reaches (⟨.symbol .leftBrace, 0⟩ :: ts) rest := by
  refine .of_eq (congrFun (given_reading_parse _) ts) ?_
  dsimp only
  rw [reading_parseBlock]
  exact h.bind fun body => reaches_pure _ rest

mutual

/-- The tokens of a printed statement are taken, unless a literal is too large. -/
theorem reaches_layout (s : Stmt) (depth : Nat) {rest : List Token}
    (hopen : s.endsOpen = true → NotNext (· = .keyword .elseWord) rest) :
    (reading parse).Reaches (tokens (s.layout depth) ++ rest) rest := by
  match s with
  | .empty _ => exact .of_eq (congrFun (given_reading_parse _) rest) (reaches_pure _ rest)
  | .block body _ =>
    simp only [layout, List.cons_append, List.append_assoc, tokens_append, tokens_token_cons,
      tokens_newline_cons, tokens_nil, List.nil_append]
    refine reaches_block (reaches_layoutLines (repeats_parseBody 0) body (depth + 1) ?_ ?_)
    · exact reaches_parseBody_brace rfl 0 rest
    · simp
  | .ifThen condition thenBranch _ =>
    simp only [layout, List.cons_append, List.append_assoc, tokens_append, tokens_token_cons,
      tokens_space_cons]
    refine .of_eq (congrFun (given_reading_parse _) _) ?_
    dsimp only
    rw [reading_parseIf]
    refine (condition.reaches_layoutParens 0 _).bind fun c => ?_
    refine (reaches_layout thenBranch depth fun _ => hopen rfl).bind fun t => ?_
    exact reaches_ifNext_other (fun u hu => if_neg (hopen rfl u hu)) (reaches_pure _ rest)
  | .ifElse condition thenBranch elseBranch _ =>
    have hbranch (us : List Token) :
        (reading parse).Reaches (tokens (if thenBranch.endsOpen = true then
          .sym .leftBrace :: .newline (depth + 1) :: thenBranch.layout (depth + 1) ++
            [.newline depth, .sym .rightBrace]
          else thenBranch.layout depth) ++ us) us := by
      by_cases hends : thenBranch.endsOpen = true
      · rw [if_pos hends]
        simp only [List.cons_append, List.append_assoc, tokens_append, tokens_token_cons,
          tokens_newline_cons, tokens_nil, List.nil_append]
        have hbody : (reading parse).Reaches
            (tokens (thenBranch.layout (depth + 1)) ++ ⟨.symbol .rightBrace, 0⟩ :: us)
            (⟨.symbol .rightBrace, 0⟩ :: us) :=
          reaches_layout thenBranch (depth + 1) (by simp)
        exact reaches_block ((repeats_parseBody 0).reaches hbody (reaches_parseBody_brace rfl 0 us))
      · rw [if_neg hends]
        exact reaches_layout thenBranch depth fun h => absurd h hends
    simp only [layout, List.cons_append, List.append_assoc, tokens_append, tokens_token_cons,
      tokens_space_cons]
    refine .of_eq (congrFun (given_reading_parse _) _) ?_
    dsimp only
    rw [reading_parseIf]
    refine (condition.reaches_layoutParens 0 _).bind fun c => ?_
    refine (hbranch _).bind fun t => ?_
    refine reaches_ifNext _ (if_pos rfl) ?_
    exact (reaches_layout elseBranch depth hopen).bind fun e => reaches_pure _ rest
  | .whileDo condition body _ =>
    simp only [layout, List.cons_append, List.append_assoc, tokens_append, tokens_token_cons,
      tokens_space_cons]
    refine .of_eq (congrFun (given_reading_parse _) _) ?_
    dsimp only
    rw [reading_parseWhile]
    refine (condition.reaches_layoutParens 0 _).bind fun c => ?_
    exact (reaches_layout body depth hopen).bind fun b => reaches_pure _ rest
  | .doWhile body condition _ =>
    simp only [layout, List.cons_append, List.append_assoc, tokens_append, tokens_token_cons,
      tokens_space_cons, tokens_nil, List.nil_append]
    refine .of_eq (congrFun (given_reading_parse _) _) ?_
    dsimp only
    rw [reading_parseDo]
    refine (reaches_layout body depth (by simp)).bind fun b => ?_
    refine (reaches_expect rfl 0 _).bind fun _ => ?_
    refine (condition.reaches_layoutParens 0 _).bind fun c => ?_
    exact (reaches_expect rfl 0 rest).bind fun _ => reaches_pure _ rest
  | .forDo init condition step body _ =>
    have hnext (us : List Token) :
        NotNext (· = .keyword .elseWord) (tokens condition.layout ++ us) := by
      obtain ⟨t, ts, hts, ht⟩ := condition.first_layout
      rw [hts, List.cons_append, notNext_cons]
      intro hk
      rw [hk] at ht
      cases ht
    simp only [layout, List.cons_append, List.append_assoc, tokens_append, tokens_token_cons,
      tokens_space_cons]
    refine .of_eq (congrFun (given_reading_parse _) _) ?_
    dsimp only
    rw [reading_parseFor]
    refine (reaches_expect rfl 0 _).bind fun _ => ?_
    refine (reaches_layout init depth fun _ => hnext _).bind fun i => ?_
    refine (condition.reaches_parse_layout (by simp [IsBinary])).bind fun c => ?_
    refine (reaches_expect rfl 0 _).bind fun _ => ?_
    refine (step.reaches_parse_layout (by simp [IsBinary])).bind fun st => ?_
    refine (reaches_expectCloseParen rfl 0 _).bind fun _ => ?_
    exact (reaches_layout body depth hopen).bind fun b => reaches_pure _ rest
  | .exprs [] _ => exact .of_eq (congrFun (given_reading_parse _) rest) (reaches_pure _ rest)
  | .exprs (e :: es) _ =>
    obtain ⟨t, us, hts, ht⟩ := Expr.first_layoutList e es
    have hstop : NotNext (fun k => IsBinary k ∨ k = .symbol .comma)
        (⟨.symbol .semicolon, 0⟩ :: rest) := by simp [IsBinary]
    have hlist := Expr.reaches_layoutList e es hstop
    simp only [layout, tokens_append, tokens_token_cons, tokens_nil, List.append_assoc,
      List.cons_append, List.nil_append]
    rw [hts] at hlist ⊢
    refine .of_eq (reading_parse_of_startsExpr ht _) ?_
    rw [reading_parseExprs]
    refine hlist.bind fun vs => ?_
    exact (reaches_expect rfl _ rest).bind fun _ => reaches_pure _ rest
  | .print value _ =>
    simp only [layout, List.cons_append, List.append_assoc, tokens_append, tokens_token_cons,
      tokens_space_cons, tokens_nil, List.nil_append]
    refine .of_eq (congrFun (given_reading_parse _) _) ?_
    dsimp only
    rw [reading_parsePrint]
    refine (value.reaches_parse_layout (by simp [IsBinary])).bind fun v => ?_
    exact (reaches_expect rfl 0 rest).bind fun _ => reaches_pure _ rest

/-- So are those of printed statements, if what follows them ends the repetition. -/
theorem reaches_layoutLines {x : Reading (List Stmt)} (hx : Repeats x) (ss : List Stmt)
    (depth : Nat) {mid rest : List Token} (hmid : x.Reaches mid rest)
    (helse : NotNext (· = .keyword .elseWord) mid) :
    x.Reaches (tokens (layoutLines depth ss) ++ mid) rest := by
  match ss with
  | [] => exact hmid
  | s :: ss =>
    have hs := reaches_layout s depth fun _ => notNext_else_layoutLines ss depth helse
    simp only [layoutLines, List.cons_append, List.append_assoc, tokens_newline_cons, tokens_append]
    exact hx.reaches hs (reaches_layoutLines hx ss depth hmid helse)

end

end Stmt

namespace Program

theorem reaches_layout (p : Program) : (reading parseAll).Reaches (tokens p.layout) [] := by
  have hx : Stmt.Repeats (reading parseAll) := fun t us _ => reading_parseAll_cons t us
  have hend : (reading parseAll).Reaches [] [] := .inl ⟨[], reading_parseAll_nil⟩
  cases p with
  | nil => exact hend
  | cons s ss =>
    have hlines := Stmt.reaches_layoutLines hx (s :: ss) 0 hend (by simp)
    simpa [layout, Stmt.layoutLines] using hlines

/-- The text of a program is parsed, or has a literal that is too large. -/
theorem parse_render_cases {p : Program} (hnamed : ∀ n ∈ p.exprNodes, n.Named) :
    (∃ p', parse p.render = .ok p') ∨ ∃ line, parse p.render = .error ⟨.literalTooLarge, line⟩ := by
  obtain ⟨ts, hscan, hkinds⟩ := scan_render hnamed
  have htokens : ts.map (Token.mapLine fun _ => 0) = tokens p.layout := by
    rw [tokens, ← hkinds, List.map_map]
    rfl
  have hrelabel := relabels_parseTokens (f := fun _ => 0) rfl ts
  unfold Relabels at hrelabel
  rw [htokens, reading_parseTokens] at hrelabel
  have hparse := parse_of_scan hscan
  rcases hts : reading parseTokens ts with ⟨e | p', rest⟩
  · rw [hts] at hrelabel hparse
    refine .inr ⟨e.line, ?_⟩
    rw [hparse]
    rcases p.reaches_layout with ⟨v, hv⟩ | ⟨line, left, herror⟩
    · rw [hv] at hrelabel
      cases congrArg Prod.fst hrelabel
    · rw [herror] at hrelabel
      have hcause := congrArg SyntaxError.cause (Except.error.inj (congrArg Prod.fst hrelabel))
      simp only [blameEnd, SyntaxError.mapLine] at hcause
      obtain ⟨cause, l⟩ := e
      exact congrArg (fun cause => Except.error (SyntaxError.mk cause l)) hcause.symm
  · rw [hts] at hparse
    exact .inl ⟨p', hparse⟩

end Program

end Imp32
