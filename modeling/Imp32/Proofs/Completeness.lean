import Imp32.Proofs.Soundness

/-!
# The parser takes all that the grammar derives

What the grammar derives from some tokens, the parser yields on them, whatever follows, provided
that the next token could not continue the tree. For an operand of a level such a token is an
operator of this level or a tighter one; for a statement that ends in an open `if` it is an `else`.

A chain groups to the left while the parser reads it from the left, so the statement for a level is
about what may come after the chain: reading the chain and going on is going on from its tree.

An `else` that goes with another `if` than the nearest can be moved to the nearest one, so the
restriction to the nearest `if` loses no program.
-/

namespace Imp32

open Token.Kind

/-- The token is a binary operator of the given height or a smaller one. -/
def Token.Kind.JoinsUpTo (height : Nat) (k : Token.Kind) : Prop := ∃ j ≤ height, Joins j k

/-- The token is a binary operator. -/
def Token.Kind.IsBinary (k : Token.Kind) : Prop := ∃ op, k = .symbol (.binary op)

theorem Token.Kind.JoinsUpTo.isBinary {height : Nat} {k : Token.Kind} (h : JoinsUpTo height k) :
    IsBinary k := by
  obtain ⟨j, -, h⟩ := h
  obtain ⟨op, hop, -⟩ := Option.bind_eq_some_iff.mp h
  exact ⟨op, binaryOp?_eq_some_iff.mp hop⟩

theorem Token.Kind.Assigns.isBinary {k : Token.Kind} (h : Assigns k) : IsBinary k := by
  obtain ⟨op, hop, -⟩ := Option.map_eq_some_iff.mp h
  exact ⟨op, binaryOp?_eq_some_iff.mp hop⟩

theorem notNext_joinsUpTo_succ {height : Nat} {ts : List Token} :
    NotNext (JoinsUpTo (height + 1)) ts ↔
      NotNext (JoinsUpTo height) ts ∧ NotNext (Joins (height + 1)) ts := by
  constructor
  · intro h
    refine ⟨fun t ht ⟨j, hj, hjoins⟩ => h t ht ⟨j, by omega, hjoins⟩, fun t ht hjoins => ?_⟩
    exact h t ht ⟨height + 1, Nat.le_refl _, hjoins⟩
  · rintro ⟨hbelow, hnext⟩ t ht ⟨j, hj, hjoins⟩
    rcases Nat.le_succ_iff.mp hj with hle | rfl
    · exact hbelow t ht ⟨j, hle, hjoins⟩
    · exact hnext t ht hjoins

/-- Assigning operators stand at no height. -/
theorem BinaryOp.height?_of_assigns (op : BinaryOp) (h : op.assigns = true) :
    op.height? = none := by
  have hlevel := op.isSome_level?
  rw [h, Bool.not_true, Option.isSome_eq_false_iff, Option.isNone_iff_eq_none] at hlevel
  rw [BinaryOp.height?, hlevel, Option.map_none]

theorem Token.Kind.not_joinsUpTo_of_assigns {op : BinaryOp} (h : op.assigns = true)
    (height : Nat) : ¬ JoinsUpTo height (.symbol (.binary op)) := by
  rintro ⟨j, -, hj⟩
  rw [joins_symbol, op.height?_of_assigns h] at hj
  cases hj

theorem Token.Kind.not_joinsUpTo_of_height? {op : BinaryOp} {height : Nat}
    (h : op.height? = some (height + 1)) : ¬ JoinsUpTo height (.symbol (.binary op)) := by
  rintro ⟨j, hj, hjoins⟩
  rw [joins_symbol, h, Option.some.injEq] at hjoins
  omega

/-- All other operators stand at the height of a level. -/
theorem BinaryOp.exists_height?_of_not_assigns (op : BinaryOp) (h : op.assigns = false) :
    ∃ level : Level, op.height? = some level.height := by
  have hsome : op.level?.isSome = true := by rw [op.isSome_level?, h, Bool.not_false]
  obtain ⟨level, hlevel⟩ := Option.isSome_iff_exists.mp hsome
  exact ⟨level, by rw [BinaryOp.height?, hlevel, Option.map_some]⟩

/-! ## Expressions -/

namespace Expr

/-- What a rule derives from the tokens `ts`, its parser yields on them, whatever follows. -/
def Rule.Reads (ts : List Token) (e : Expr) : Rule → Prop
  | .assignment => ∀ rest, NotNext IsBinary rest → (parse (ts ++ rest)).Yields e rest
  | .level l => ∀ k, l.height = k + 1 → ∀ rest, NotNext (JoinsUpTo k) rest → ∀ e' rest',
      (parseChain k e rest (Nat.lt_add_one rest.length)).Yields e' rest' →
      (parseOperand (k + 1) (ts ++ rest)).Yields e' rest'
  | .unary => ∀ rest, (parseUnary (ts ++ rest)).Yields e rest
  | .primary => ∀ rest, (parsePrimary (ts ++ rest)).Yields e rest

/-- A chain ends where no operator of its level follows. -/
theorem Rule.Reads.operand {r : Rule} {ts : List Token} {e : Expr} (h : r.Reads ts e) {k : Nat}
    (hk : r.height? = some k) {rest : List Token} (hrest : NotNext (JoinsUpTo k) rest) :
    (parseOperand k (ts ++ rest)).Yields e rest := by
  cases r with
  | assignment => cases hk
  | primary => cases hk
  | unary =>
    cases hk
    exact yields_parseOperand_zero.mpr (h rest)
  | level l =>
    obtain ⟨j, hj⟩ := l.height_pos
    obtain rfl : j + 1 = k := hj.symm.trans (Option.some.inj hk)
    obtain ⟨hbelow, hnext⟩ := notNext_joinsUpTo_succ.mp hrest
    exact h j hj rest hbelow e rest (yields_parseChain.mpr (.inl ⟨rfl, rfl, hnext⟩))

theorem Derives.reads {r : Rule} {ts : List Token} {e : Expr} (h : Derives r ts e) :
    r.Reads ts e := by
  induction h with
  | operand _ ih =>
    intro rest hrest
    refine yields_parse.mpr ⟨_, rest, ih.operand rfl ?_, .inl ⟨rfl, rfl, ?_⟩⟩
    · exact fun t ht hk => hrest t ht hk.isBinary
    · exact fun t ht hk => hrest t ht hk.isBinary
  | @assign ts us t left right op _ ht hop _ ihleft ihright =>
    intro rest hrest
    have hstop : NotNext (JoinsUpTo 9) (t :: (us ++ rest)) := by
      rw [notNext_cons, ht]
      exact not_joinsUpTo_of_assigns hop 9
    rw [List.append_assoc, List.cons_append]
    exact yields_parse.mpr ⟨left, _, ihleft.operand rfl hstop,
      .inr ⟨t, _, op, right, rfl, ht, hop, ihright rest hrest, rfl⟩⟩
  | @single l ts e _ ih =>
    intro k hk rest hrest e' rest' hchain
    exact yields_parseOperand_succ.mpr
      ⟨e, rest, ih.operand (Level.height?_operand hk) hrest, hchain⟩
  | @chain l ts us t left right op _ ht hop _ ihleft ihright =>
    intro k hk rest hrest e' rest' hchain
    have hheight : op.height? = some (k + 1) := by rw [Level.mem_operators_iff.mp hop, hk]
    have hstop : NotNext (JoinsUpTo k) (t :: (us ++ rest)) := by
      rw [notNext_cons, ht]
      exact not_joinsUpTo_of_height? hheight
    have hright := ihright.operand (Level.height?_operand hk) hrest
    rw [List.append_assoc, List.cons_append]
    exact ihleft k hk _ hstop e' rest' (yields_parseChain.mpr
      (.inr ⟨t, _, op, right, rest, rfl, ht, hheight, hright, hchain⟩))
  | unary ht hop _ ih =>
    intro rest
    have hunary := unaryOp?_eq_some_iff.mpr ⟨_, ht, hop⟩
    exact yields_parseUnary.mpr (.inl ⟨_, _, _, _, rfl, hunary, ih rest, rfl⟩)
  | primary h ih =>
    intro rest
    refine yields_parseUnary.mpr (.inr ⟨?_, ih rest⟩)
    cases h with
    | literal ht => simp [ht, unaryOp?]
    | name ht => simp [ht, unaryOp?]
    | parens ht _ _ => simp [ht, unaryOp?, Symbol.unaryOp?]
  | literal ht =>
    intro rest
    exact yields_parsePrimary.mpr (.inl ⟨_, _, rfl, ht, rfl⟩)
  | name ht =>
    intro rest
    exact yields_parsePrimary.mpr (.inr (.inl ⟨_, _, rfl, ht, rfl⟩))
  | @parens ts t u e ht _ hu ih =>
    intro rest
    have hstop : NotNext IsBinary (u :: rest) := by simp [IsBinary, hu]
    exact yields_parsePrimary.mpr (.inr (.inr ⟨t, _, u, by simp, ht, ih _ hstop, hu⟩))

theorem Derives.parse {ts rest : List Token} {e : Expr} (h : Derives .assignment ts e)
    (hrest : NotNext IsBinary rest) : (parse (ts ++ rest)).Yields e rest :=
  h.reads rest hrest

theorem DerivesParens.parse {ts : List Token} {e : Expr} (h : DerivesParens ts e) (line : Nat)
    (rest : List Token) : (parseParens line (ts ++ rest)).Yields e rest := by
  cases h with
  | @mk ts t u _ ht h hu =>
    have hstop : NotNext IsBinary (u :: rest) := by simp [IsBinary, hu]
    exact yields_parseParens.mpr ⟨t, ts ++ u :: rest, u, by simp, ht, h.parse hstop, hu⟩

theorem DerivesList.parse {ts rest : List Token} {es : List Expr} (h : DerivesList ts es)
    (hrest : NotNext (fun k => IsBinary k ∨ k = .symbol .comma) rest) :
    (parseList (ts ++ rest)).Yields es rest := by
  induction h with
  | last h =>
    have hbinary : NotNext IsBinary rest := fun t ht hk => hrest t ht (.inl hk)
    have hcomma : NotNext (· = .symbol .comma) rest := fun t ht hk => hrest t ht (.inr hk)
    exact yields_parseList.mpr ⟨_, rest, h.parse hbinary, .inl ⟨rfl, rfl, hcomma⟩⟩
  | @cons ts us t e es h ht _ ih =>
    have hstop : NotNext IsBinary (t :: (us ++ rest)) := by simp [IsBinary, ht]
    rw [List.append_assoc, List.cons_append]
    exact yields_parseList.mpr ⟨e, _, h.parse hstop, .inr ⟨t, _, es, rfl, ht, ih, rfl⟩⟩

end Expr

/-! ## Statements -/

namespace Stmt

/-- A statement that begins as an expression does is a list of expressions. -/
theorem yields_parse_of_startsExpr {t : Token} (hk : t.kind.startsExpr = true)
    {ts rest : List Token} {s : Stmt} :
    (parse (t :: ts)).Yields s rest ↔ (parseExprs t.line (t :: ts)).Yields s rest := by
  rw [yields_parse_cons]
  split
  case h_8 => exact Iff.rfl
  all_goals
    rename_i ht
    rw [ht] at hk
    cases hk

/-- After a statement and before an expression, no `else` is left over. -/
theorem notNext_else_of_derives {rule : Expr.Rule} {ts : List Token} {e : Expr}
    (h : Expr.Derives rule ts e) (rest : List Token) :
    NotNext (· = .keyword .elseWord) (ts ++ rest) := by
  obtain ⟨t, us, rfl, hk⟩ := h.first
  rw [List.cons_append, notNext_cons]
  intro hbad
  rw [hbad] at hk
  cases hk

/-- After a statement and before another one or the end of a block, no `else` is left over. -/
theorem DerivesAll.notNext_else {nearest : Bool} {ts rest : List Token} {ss : List Stmt}
    (h : DerivesAll nearest ts ss) (hrest : NotNext (· = .keyword .elseWord) rest) :
    NotNext (· = .keyword .elseWord) (ts ++ rest) := by
  cases h with
  | nil => exact hrest
  | cons h _ =>
    obtain ⟨t, us, rfl, -, ht⟩ := h.first
    exact notNext_cons.mpr ht

mutual

theorem Derives.parse {ts : List Token} {s : Stmt} (h : Derives true ts s) (rest : List Token)
    (hopen : s.endsOpen = true → NotNext (· = .keyword .elseWord) rest) :
    (parse (ts ++ rest)).Yields s rest := by
  match h with
  | @Derives.empty _ t ht =>
    rw [List.singleton_append, yields_parse_cons, ht]
    exact ⟨rfl, rfl⟩
  | @Derives.block _ ts t u body ht h hu =>
    rw [List.cons_append, List.cons_append, yields_parse_cons, ht]
    refine yields_parseBlock.mpr ⟨body, ?_, rfl⟩
    rw [List.append_assoc]
    exact DerivesAll.parseBody h hu t.line rest
  | @Derives.ifThen _ cs ts t condition thenBranch ht hc h =>
    have hstop := hopen rfl
    rw [List.cons_append, List.cons_append, yields_parse_cons, ht, List.append_assoc]
    exact yields_parseIf.mpr ⟨condition, ts ++ rest, thenBranch, rest, hc.parse t.line _,
      Derives.parse h rest fun _ => hstop, .inl ⟨rfl, rfl, hstop⟩⟩
  | @Derives.ifElse _ cs ts us t u condition thenBranch elseBranch ht hc h hn hu helse =>
    have hclosed : thenBranch.endsOpen = true →
        NotNext (· = .keyword .elseWord) (u :: (us ++ rest)) := by
      intro ho
      rw [hn rfl] at ho
      cases ho
    rw [List.append_assoc, List.cons_append, List.cons_append, yields_parse_cons, ht,
      List.append_assoc]
    exact yields_parseIf.mpr ⟨condition, _, thenBranch, _, hc.parse t.line _,
      Derives.parse h _ hclosed, .inr ⟨u, us ++ rest, elseBranch, rfl, hu,
        Derives.parse helse rest hopen, rfl⟩⟩
  | @Derives.whileDo _ cs ts t condition body ht hc h =>
    rw [List.cons_append, List.cons_append, yields_parse_cons, ht, List.append_assoc]
    exact yields_parseWhile.mpr
      ⟨condition, _, body, hc.parse t.line _, Derives.parse h rest hopen, rfl⟩
  | @Derives.doWhile _ cs ts t u v condition body ht h hu hc hv =>
    have hstop : NotNext (· = .keyword .elseWord) (u :: (cs ++ v :: rest)) := by simp [hu]
    have hts : t :: ts ++ u :: cs ++ [v] ++ rest = t :: (ts ++ u :: (cs ++ v :: rest)) := by simp
    rw [hts, yields_parse_cons, ht]
    exact yields_parseDo.mpr ⟨body, u, _, condition, v, Derives.parse h _ fun _ => hstop, hu,
      hc.parse t.line _, hv, rfl⟩
  | @Derives.forDo _ is cs ss ts t u v w condition step init body ht hu hi hc hv hs hw h =>
    have hinit := notNext_else_of_derives hc (v :: (ss ++ w :: (ts ++ rest)))
    have hcond : NotNext IsBinary (v :: (ss ++ w :: (ts ++ rest))) := by simp [IsBinary, hv]
    have hstep : NotNext IsBinary (w :: (ts ++ rest)) := by simp [IsBinary, hw]
    have hts : t :: u :: is ++ cs ++ v :: ss ++ w :: ts ++ rest =
        t :: u :: (is ++ (cs ++ v :: (ss ++ w :: (ts ++ rest)))) := by simp
    rw [hts, yields_parse_cons, ht]
    exact yields_parseFor.mpr ⟨u, _, init, _, condition, v, _, step, w, _, body, rfl, hu,
      Derives.parse hi _ fun _ => hinit, hc.parse hcond, hv, hs.parse hstep, hw,
      Derives.parse h rest hopen, rfl⟩
  | @Derives.exprs _ ts t u list h hu =>
    have hstop : NotNext (fun k => IsBinary k ∨ k = .symbol .comma) (u :: rest) := by
      simp [IsBinary, hu]
    have hts : t :: ts ++ [u] ++ rest = t :: ts ++ u :: rest := by simp
    obtain ⟨t', us', heq, hk⟩ := h.first
    cases heq
    rw [hts, List.cons_append, yields_parse_of_startsExpr hk]
    exact yields_parseExprs.mpr ⟨list, u, h.parse hstop, hu, rfl⟩
  | @Derives.print _ ts t u value ht h hu =>
    have hstop : NotNext IsBinary (u :: rest) := by simp [IsBinary, hu]
    have hts : t :: ts ++ [u] ++ rest = t :: (ts ++ u :: rest) := by simp
    rw [hts, yields_parse_cons, ht]
    exact yields_parsePrint.mpr ⟨value, u, h.parse hstop, hu, rfl⟩

theorem DerivesAll.parseBody {ts : List Token} {ss : List Stmt} (h : DerivesAll true ts ss)
    {u : Token} (hu : u.kind = .symbol .rightBrace) (line : Nat) (rest : List Token) :
    (parseBody line (ts ++ u :: rest)).Yields ss rest := by
  match h with
  | .nil => exact yields_parseBody.mpr (.inl ⟨u, rfl, hu, rfl⟩)
  | @DerivesAll.cons _ ts us s ss h hs =>
    have hrest : NotNext (· = .keyword .elseWord) (u :: rest) := by simp [hu]
    have hstop := hs.notNext_else hrest
    obtain ⟨t, ts', rfl, hk, -⟩ := h.first
    rw [List.append_assoc]
    exact yields_parseBody.mpr (.inr ⟨notNext_cons.mpr hk, s, _, ss,
      Derives.parse h _ fun _ => hstop, DerivesAll.parseBody hs hu line rest, rfl⟩)

end

theorem DerivesAll.parseAll {ts : List Token} {ss : List Stmt} (h : DerivesAll true ts ss) :
    (Program.parseAll ts).Yields ss [] := by
  induction ss generalizing ts with
  | nil =>
    cases h
    exact Program.yields_parseAll.mpr (.inl ⟨rfl, rfl, rfl⟩)
  | cons s ss ih =>
    cases h with
    | @cons ts us _ _ h hs =>
      have hstop := hs.notNext_else (notNext_nil _)
      rw [List.append_nil] at hstop
      refine Program.yields_parseAll.mpr
        (.inr ⟨?_, s, us, ss, h.parse us fun _ => hstop, ih hs, rfl⟩)
      obtain ⟨t, ts', rfl, -⟩ := h.first
      simp

/-! ## The nearest `if` -/

mutual

/-- Giving every `else` to the nearest `if` is one way to give it to some `if`. -/
theorem Derives.relax {ts : List Token} {s : Stmt} (h : Derives true ts s) :
    Derives false ts s := by
  match h with
  | .empty ht => exact .empty ht
  | .block ht h hu => exact .block ht (DerivesAll.relax h) hu
  | .ifThen ht hc h => exact .ifThen ht hc (Derives.relax h)
  | .ifElse ht hc h _ hu helse =>
    exact .ifElse ht hc (Derives.relax h) (by simp) hu (Derives.relax helse)
  | .whileDo ht hc h => exact .whileDo ht hc (Derives.relax h)
  | .doWhile ht h hu hc hv => exact .doWhile ht (Derives.relax h) hu hc hv
  | .forDo ht hu hi hc hv hs hw h =>
    exact .forDo ht hu (Derives.relax hi) hc hv hs hw (Derives.relax h)
  | .exprs h hu => exact .exprs h hu
  | .print ht h hu => exact .print ht h hu

theorem DerivesAll.relax {ts : List Token} {ss : List Stmt} (h : DerivesAll true ts ss) :
    DerivesAll false ts ss := by
  match h with
  | .nil => exact .nil
  | .cons h hs => exact .cons (Derives.relax h) (DerivesAll.relax hs)

end

/-- The statement with an alternative for the innermost open `if` that it ends in. A statement that
does not end in one stays as it is. -/
def withElse (s elseBranch : Stmt) : Stmt :=
  match s with
  | .ifThen condition thenBranch line =>
    if thenBranch.endsOpen then .ifThen condition (thenBranch.withElse elseBranch) line
    else .ifElse condition thenBranch elseBranch line
  | .ifElse condition thenBranch other line =>
    .ifElse condition thenBranch (other.withElse elseBranch) line
  | .whileDo condition body line => .whileDo condition (body.withElse elseBranch) line
  | .forDo init condition step body line =>
    .forDo init condition step (body.withElse elseBranch) line
  | s => s

/-- An `else` after a statement that ends in an open `if` can go to the innermost such `if`. -/
theorem Derives.withElse {ts us : List Token} {s elseBranch : Stmt} {u : Token}
    (h : Derives true ts s) (hopen : s.endsOpen = true) (hu : u.kind = .keyword .elseWord)
    (helse : Derives true us elseBranch) :
    Derives true (ts ++ u :: us) (s.withElse elseBranch) := by
  match h with
  | @Derives.ifThen _ cs ts t _ thenBranch ht hc h =>
    -- The `else` goes further in as long as the branch is open itself.
    by_cases hinner : thenBranch.endsOpen = true
    · have h' := Derives.withElse h hinner hu helse
      rw [Stmt.withElse, if_pos hinner]
      simpa using Derives.ifThen ht hc h'
    · have hclosed : thenBranch.endsOpen = false := by simpa using hinner
      rw [Stmt.withElse, if_neg hinner]
      exact Derives.ifElse ht hc h (fun _ => hclosed) hu helse
  | .ifElse ht hc h hn hu' helse' =>
    have h' := Derives.withElse helse' hopen hu helse
    simpa [Stmt.withElse] using Derives.ifElse ht hc h hn hu' h'
  | .whileDo ht hc h =>
    have h' := Derives.withElse h hopen hu helse
    simpa [Stmt.withElse] using Derives.whileDo ht hc h'
  | .forDo ht hu' hi hc hv hs hw h =>
    have h' := Derives.withElse h hopen hu helse
    simpa [Stmt.withElse] using Derives.forDo ht hu' hi hc hv hs hw h'
  | .empty _ => simp [endsOpen] at hopen
  | .block _ _ _ => simp [endsOpen] at hopen
  | .doWhile _ _ _ _ _ => simp [endsOpen] at hopen
  | .exprs _ _ => simp [endsOpen] at hopen
  | .print _ _ _ => simp [endsOpen] at hopen

mutual

/-- Tokens that make a statement also do so with every `else` given to the nearest `if`. -/
theorem Derives.exists_nearest {ts : List Token} {s : Stmt} (h : Derives false ts s) :
    ∃ s', Derives true ts s' := by
  match h with
  | .empty ht => exact ⟨_, .empty ht⟩
  | .block ht h hu =>
    obtain ⟨body, h'⟩ := DerivesAll.exists_nearest h
    exact ⟨_, .block ht h' hu⟩
  | .ifThen ht hc h =>
    obtain ⟨s', h'⟩ := Derives.exists_nearest h
    exact ⟨_, .ifThen ht hc h'⟩
  | .ifElse ht hc h _ hu helse =>
    obtain ⟨s', h'⟩ := Derives.exists_nearest h
    obtain ⟨e', helse'⟩ := Derives.exists_nearest helse
    by_cases hopen : s'.endsOpen = true
    · have h'' := h'.withElse hopen hu helse'
      exact ⟨_, by simpa using Derives.ifThen ht hc h''⟩
    · exact ⟨_, .ifElse ht hc h' (fun _ => by simpa using hopen) hu helse'⟩
  | .whileDo ht hc h =>
    obtain ⟨s', h'⟩ := Derives.exists_nearest h
    exact ⟨_, .whileDo ht hc h'⟩
  | .doWhile ht h hu hc hv =>
    obtain ⟨s', h'⟩ := Derives.exists_nearest h
    exact ⟨_, .doWhile ht h' hu hc hv⟩
  | .forDo ht hu hi hc hv hs hw h =>
    obtain ⟨i', hi'⟩ := Derives.exists_nearest hi
    obtain ⟨s', h'⟩ := Derives.exists_nearest h
    exact ⟨_, .forDo ht hu hi' hc hv hs hw h'⟩
  | .exprs h hu => exact ⟨_, .exprs h hu⟩
  | .print ht h hu => exact ⟨_, .print ht h hu⟩

theorem DerivesAll.exists_nearest {ts : List Token} {ss : List Stmt} (h : DerivesAll false ts ss) :
    ∃ ss', DerivesAll true ts ss' := by
  match h with
  | .nil => exact ⟨_, .nil⟩
  | .cons h hs =>
    obtain ⟨s', h'⟩ := Derives.exists_nearest h
    obtain ⟨ss', hs'⟩ := DerivesAll.exists_nearest hs
    exact ⟨_, .cons h' hs'⟩

end

end Stmt

namespace Program

/-- A list of tokens is parsed to the program that the grammar derives from it. -/
theorem yields_parseTokens_iff {ts : List Token} {p : Program} :
    (parseTokens ts).Yields p [] ↔ Derives true ts p := by
  rw [yields_parseTokens]
  exact ⟨parseAll_sound, Stmt.DerivesAll.parseAll⟩

/-- The parser yields a program and leaves no token exactly if the grammar derives the program from
the tokens, each `else` given to the nearest `if`; and it does so for some program exactly if the
tokens can be derived at all, each `else` given to any `if`. -/
theorem parser_recognises_grammar (ts : List Token) :
    (∀ p, (parseTokens ts).Yields p [] ↔ Derives true ts p) ∧
      ((∃ p, (parseTokens ts).Yields p []) ↔ ∃ p, Derives false ts p) := by
  refine ⟨fun p => yields_parseTokens_iff, ?_⟩
  constructor
  · rintro ⟨p, h⟩
    exact ⟨p, (yields_parseTokens_iff.mp h).relax⟩
  · rintro ⟨p, h⟩
    obtain ⟨p', h'⟩ := Stmt.DerivesAll.exists_nearest h
    exact ⟨p', yields_parseTokens_iff.mpr h'⟩

end Program

end Imp32
