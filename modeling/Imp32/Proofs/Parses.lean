import Imp32.Program

/-!
# Successful parses

What it means for each parser to succeed, as an equivalence. `Parsed.Yields p value rest` says that
`p` is a success with that value and those tokens left; it forgets the bound on the number of tokens
left, so results seen from different lists can be compared.

Each parser has one equivalence that says everything a success can come from, the tokens it only
looked at included. All later arguments about the grammar go through these and unfold no parser.
-/

namespace Imp32

namespace Parsed

variable {α β : Type} {m n : Nat}

/-- The result is a success with the given value, and leaves the given tokens. -/
def Yields (p : Parsed α n) (value : α) (rest : List Token) : Prop :=
  ∃ h, p = .ok value rest h

/-- A success leaves fewer tokens than its bound. -/
theorem Yields.length_lt {p : Parsed α n} {v : α} {rest : List Token} (h : p.Yields v rest) :
    rest.length < n := by
  obtain ⟨h, -⟩ := h
  exact h

@[simp] theorem yields_ok {v w : α} {r s : List Token} {h : r.length < n} :
    (Parsed.ok v r h).Yields w s ↔ w = v ∧ s = r := by
  constructor
  · rintro ⟨_, h'⟩
    cases h'
    exact ⟨rfl, rfl⟩
  · rintro ⟨rfl, rfl⟩
    exact ⟨h, rfl⟩

@[simp] theorem yields_fail {e : SyntaxError} {v : α} {r s : List Token} :
    ¬ (Parsed.fail e r : Parsed α n).Yields v s := by
  rintro ⟨_, h⟩
  cases h

@[simp] theorem yields_map {f : α → β} {p : Parsed α n} {w : β} {s : List Token} :
    (p.map f).Yields w s ↔ ∃ v, p.Yields v s ∧ w = f v := by
  cases p <;> simp [map]
  grind

@[simp] theorem yields_weaken {h : m ≤ n} {p : Parsed α m} {v : α} {s : List Token} :
    (p.weaken h).Yields v s ↔ p.Yields v s := by
  cases p <;> simp [weaken]

@[simp] theorem yields_later {p : Parsed α n} {v : α} {s : List Token} :
    p.later.Yields v s ↔ p.Yields v s :=
  yields_weaken

@[simp] theorem yields_mapError {f : SyntaxError → SyntaxError} {p : Parsed α n} {v : α}
    {s : List Token} : (p.mapError f).Yields v s ↔ p.Yields v s := by
  cases p <;> simp [mapError]

/-- Going on from a success succeeds exactly if what comes after it does. -/
theorem yields_bind {p : Parsed α n}
    {f : (value : α) → (rest : List Token) → rest.length < n → Parsed β n} {w : β}
    {s : List Token} :
    (p.bind f).Yields w s ↔ ∃ v r, ∃ h : p.Yields v r, (f v r h.length_lt).Yields w s := by
  cases p with
  | ok v r h =>
    simp only [bind, yields_ok]
    constructor
    · intro hw
      exact ⟨v, r, ⟨rfl, rfl⟩, hw⟩
    · rintro ⟨_, _, ⟨rfl, rfl⟩, hw⟩
      exact hw
  | fail e r => simp [bind]

theorem yields_andThen {p : Parsed α n}
    {f : (value : α) → (rest : List Token) → rest.length < n → Parsed β rest.length} {w : β}
    {s : List Token} :
    (p.andThen f).Yields w s ↔ ∃ v r, ∃ h : p.Yields v r, (f v r h.length_lt).Yields w s := by
  simp only [andThen, yields_bind, yields_weaken]

end Parsed

/-! ## The next token -/

/-- The tokens do not begin with one of the given kinds. -/
def NotNext (kinds : Token.Kind → Prop) (ts : List Token) : Prop := ∀ t ∈ ts.head?, ¬ kinds t.kind

@[simp] theorem notNext_nil (kinds : Token.Kind → Prop) : NotNext kinds [] := by
  intro t ht
  cases ht

@[simp] theorem notNext_cons {kinds : Token.Kind → Prop} {t : Token} {ts : List Token} :
    NotNext kinds (t :: ts) ↔ ¬ kinds t.kind := by
  simp [NotNext]

namespace Token.Kind

theorem binaryOp?_eq_some_iff {k : Kind} {op : BinaryOp} :
    k.binaryOp? = some op ↔ k = .symbol (.binary op) := by
  unfold binaryOp?
  split <;> simp_all

/-- The token is a binary operator of the given height. -/
def Joins (height : Nat) (k : Kind) : Prop := k.binaryOp?.bind BinaryOp.height? = some height

/-- The token is an operator that assigns. -/
def Assigns (k : Kind) : Prop := k.binaryOp?.map BinaryOp.assigns = some true

theorem joins_symbol {height : Nat} {op : BinaryOp} :
    Joins height (.symbol (.binary op)) ↔ op.height? = some height :=
  Iff.rfl

theorem assigns_symbol {op : BinaryOp} : Assigns (.symbol (.binary op)) ↔ op.assigns = true := by
  simp [Assigns, binaryOp?]

end Token.Kind

/-- Taking the next token if it is of the kind wanted. -/
theorem yields_take {wanted : Token.Kind} {t : Token} {ts rest : List Token} {e : SyntaxError}
    {n : Nat} {h : ts.length < n} {u : Unit} :
    (if t.kind = wanted then Parsed.ok () ts h else .fail e ts).Yields u rest ↔
      ∃ t', t :: ts = t' :: rest ∧ t'.kind = wanted := by
  split
  · rename_i hk
    rw [Parsed.yields_ok]
    constructor
    · rintro ⟨-, rfl⟩
      exact ⟨t, rfl, hk⟩
    · rintro ⟨t', heq, -⟩
      cases heq
      exact ⟨rfl, rfl⟩
  · rename_i hk
    simp only [Parsed.yields_fail, false_iff]
    rintro ⟨t', heq, hk'⟩
    cases heq
    exact hk hk'

/-- A token is taken only if it is of the kind wanted. -/
theorem yields_expect {wanted : Token.Kind} {line : Nat} {ts rest : List Token} {u : Unit} :
    (expect wanted line ts).Yields u rest ↔ ∃ t, ts = t :: rest ∧ t.kind = wanted := by
  cases ts with
  | nil => simp [expect]
  | cons t ts => exact yields_take

theorem yields_expectCloseParen {line : Nat} {ts rest : List Token} {u : Unit} :
    (expectCloseParen line ts).Yields u rest ↔
      ∃ t, ts = t :: rest ∧ t.kind = .symbol .rightParen := by
  cases ts with
  | nil => simp [expectCloseParen]
  | cons t ts => exact yields_take

/-! ## Expressions -/

/-- A literal has a value exactly if the value denotes it. -/
theorem Value.ofLiteral?_eq_some_iff {n : Int} {v : Value} :
    Value.ofLiteral? n = some v ↔ n = v.toInt := by
  constructor
  · intro h
    exact (Value.toInt_of_ofLiteral? h).symm
  · rintro rfl
    exact Value.ofLiteral?_toInt v

namespace Expr

open Token.Kind

/-- An expression is an operand of the loosest level that no assigning operator follows, or an
assignment whose left side is such an operand. -/
theorem yields_parse {ts rest : List Token} {e : Expr} :
    (parse ts).Yields e rest ↔ ∃ left mid, (parseOperand 9 ts).Yields left mid ∧
      ((e = left ∧ rest = mid ∧ NotNext Assigns mid) ∨
        ∃ t us op right, mid = t :: us ∧ t.kind = .symbol (.binary op) ∧ op.assigns = true ∧
          (parse us).Yields right rest ∧ e = .binary left op right t.line) := by
  rw [parse, Parsed.yields_bind]
  constructor
  · rintro ⟨left, mid, hleft, h⟩
    refine ⟨left, mid, hleft, ?_⟩
    cases mid with
    | nil =>
      left
      simpa using h
    | cons t us =>
      dsimp only at h
      split at h
      · rename_i op hop
        rw [binaryOp?_eq_some_iff] at hop
        split at h
        · rename_i ha
          right
          simp only [Parsed.yields_weaken, Parsed.yields_map] at h
          obtain ⟨r, hr, rfl⟩ := h
          exact ⟨t, us, op, r, rfl, hop, ha, hr, rfl⟩
        · rename_i ha
          left
          rw [Parsed.yields_ok] at h
          exact ⟨h.1, h.2, by rw [notNext_cons, hop, assigns_symbol]; exact ha⟩
      · rename_i hop
        left
        rw [Parsed.yields_ok] at h
        exact ⟨h.1, h.2, by rw [notNext_cons, Assigns, hop]; simp⟩
  · rintro ⟨left, mid, hleft, h⟩
    refine ⟨left, mid, hleft, ?_⟩
    rcases h with ⟨rfl, rfl, hstop⟩ | ⟨t, us, op, right, rfl, hop, ha, hr, rfl⟩
    · cases rest with
      | nil => simp
      | cons t us =>
        dsimp only
        split
        · rename_i op hop
          rw [notNext_cons, Assigns, hop] at hstop
          rw [if_neg (by simpa using hstop)]
          simp
        · simp
    · dsimp only
      rw [hop]
      simp [binaryOp?, ha, hr]

/-- Below all levels there are the operands of unary operators. -/
theorem yields_parseOperand_zero {ts rest : List Token} {e : Expr} :
    (parseOperand 0 ts).Yields e rest ↔ (parseUnary ts).Yields e rest := by
  rw [parseOperand]

/-- Continuing a chain does not depend on the list that the tokens are a rest of. -/
theorem yields_parseChain_bound {height : Nat} {left e : Expr} {ts rest : List Token} {m n : Nat}
    {hm : ts.length < m} {hn : ts.length < n} :
    (parseChain height left ts hm).Yields e rest ↔
      (parseChain height left ts hn).Yields e rest := by
  cases ts with
  | nil => simp [parseChain]
  | cons t ts =>
    rw [parseChain, parseChain]
    split
    · split <;> simp
    · simp

/-- An operand of a level is one of the level below, continued by a chain. -/
theorem yields_parseOperand_succ {height : Nat} {ts rest : List Token} {e : Expr} :
    (parseOperand (height + 1) ts).Yields e rest ↔ ∃ left mid,
      (parseOperand height ts).Yields left mid ∧
        (parseChain height left mid (Nat.lt_succ_self _)).Yields e rest := by
  rw [parseOperand, Parsed.yields_bind]
  constructor
  · rintro ⟨left, mid, hleft, h⟩
    exact ⟨left, mid, hleft, yields_parseChain_bound.mp h⟩
  · rintro ⟨left, mid, hleft, h⟩
    exact ⟨left, mid, hleft, yields_parseChain_bound.mp h⟩

/-- A chain ends where no operator of its height follows. Otherwise what was read so far becomes the
left operand of one that does, and the chain goes on. -/
theorem yields_parseChain {height : Nat} {left e : Expr} {ts rest : List Token} {n : Nat}
    {hn : ts.length < n} :
    (parseChain height left ts hn).Yields e rest ↔
      (e = left ∧ rest = ts ∧ NotNext (Joins (height + 1)) ts) ∨
      ∃ t us op right mid, ts = t :: us ∧ t.kind = .symbol (.binary op) ∧
        op.height? = some (height + 1) ∧ (parseOperand height us).Yields right mid ∧
        (parseChain height (.binary left op right t.line) mid
          (Nat.lt_succ_self _)).Yields e rest := by
  cases ts with
  | nil => simp [parseChain]
  | cons t us =>
    rw [parseChain]
    split
    · rename_i op hop
      rw [binaryOp?_eq_some_iff] at hop
      split
      · rename_i hh
        rw [Parsed.yields_weaken, Parsed.yields_bind]
        constructor
        · rintro ⟨right, mid, hright, h⟩
          exact .inr ⟨t, us, op, right, mid, rfl, hop, hh, hright, yields_parseChain_bound.mp h⟩
        · rintro (⟨-, -, hstop⟩ | ⟨t', us', op', right, mid, hts, hop', hh', hright, h⟩)
          · rw [notNext_cons, hop, joins_symbol] at hstop
            exact absurd hh hstop
          · cases hts
            rw [hop] at hop'
            cases hop'
            exact ⟨right, mid, hright, yields_parseChain_bound.mp h⟩
      · rename_i hh
        rw [Parsed.yields_ok, notNext_cons, hop, joins_symbol]
        constructor
        · rintro ⟨rfl, rfl⟩
          exact .inl ⟨rfl, rfl, hh⟩
        · rintro (⟨rfl, rfl, -⟩ | ⟨t', us', op', right, mid, hts, hop', hh', -⟩)
          · exact ⟨rfl, rfl⟩
          · cases hts
            rw [hop] at hop'
            cases hop'
            exact absurd hh' hh
    · rename_i hop
      rw [Parsed.yields_ok, notNext_cons, Joins, hop]
      constructor
      · rintro ⟨rfl, rfl⟩
        exact .inl ⟨rfl, rfl, by simp⟩
      · rintro (⟨rfl, rfl, -⟩ | ⟨t', us', op', right, mid, hts, hop', -⟩)
        · exact ⟨rfl, rfl⟩
        · cases hts
          rw [hop'] at hop
          cases hop

/-- A unary operator applies to another unary operand; and a token that is one is never left to a
primary. -/
theorem yields_parseUnary {ts rest : List Token} {e : Expr} :
    (parseUnary ts).Yields e rest ↔
      (∃ t us op operand, ts = t :: us ∧ t.kind.unaryOp? = some op ∧
        (parseUnary us).Yields operand rest ∧ e = .unary op operand t.line) ∨
      (NotNext (fun k => k.unaryOp?.isSome) ts ∧ (parsePrimary ts).Yields e rest) := by
  cases ts with
  | nil => simp [parseUnary]
  | cons t us =>
    rw [parseUnary]
    split
    · rename_i op hop
      simp only [Parsed.yields_later, Parsed.yields_map, notNext_cons, hop, Option.isSome_some]
      constructor
      · rintro ⟨operand, h, rfl⟩
        exact .inl ⟨t, us, op, operand, rfl, hop, h, rfl⟩
      · rintro (⟨t', us', op', operand, hts, hop', h, rfl⟩ | ⟨hstop, -⟩)
        · cases hts
          rw [hop] at hop'
          cases hop'
          exact ⟨operand, h, rfl⟩
        · exact absurd trivial hstop
    · rename_i hop
      simp only [notNext_cons, hop, Option.isSome_none, Bool.false_eq_true, not_false_eq_true,
        true_and]
      constructor
      · exact .inr
      · rintro (⟨t', us', op', operand, hts, hop', -⟩ | h)
        · cases hts
          rw [hop] at hop'
          cases hop'
        · exact h

/-- A primary is a literal in range, a variable, or an expression in parentheses. -/
theorem yields_parsePrimary {ts rest : List Token} {e : Expr} :
    (parsePrimary ts).Yields e rest ↔
      (∃ t v, ts = t :: rest ∧ t.kind = .integer v.toInt ∧ e = .num v t.line) ∨
      (∃ t name, ts = t :: rest ∧ t.kind = .identifier name ∧ e = .var name t.line) ∨
      (∃ t us u, ts = t :: us ∧ t.kind = .symbol .leftParen ∧ (parse us).Yields e (u :: rest) ∧
        u.kind = .symbol .rightParen) := by
  cases ts with
  | nil => simp [parsePrimary]
  | cons t us =>
    rw [parsePrimary]
    split
    · rename_i n hk
      split
      · rename_i v hv
        rw [Value.ofLiteral?_eq_some_iff] at hv
        subst hv
        simp only [Parsed.yields_ok, List.cons.injEq]
        constructor
        · rintro ⟨rfl, rfl⟩
          exact .inl ⟨t, v, ⟨rfl, rfl⟩, hk, rfl⟩
        · rintro (⟨t', w, ⟨rfl, rfl⟩, hk', rfl⟩ | h)
          · rw [hk] at hk'
            rw [Int32.toInt_inj.mp (Token.Kind.integer.inj hk')]
            exact ⟨rfl, rfl⟩
          · grind
      · rename_i hv
        have hv' : ∀ v : Value, n ≠ v.toInt := by
          intro v hn
          rw [Value.ofLiteral?_eq_some_iff.mpr hn] at hv
          cases hv
        grind [Parsed.yields_fail]
    · rename_i name hk
      simp only [Parsed.yields_ok]
      grind
    · rename_i hk
      simp only [Parsed.yields_later, Parsed.yields_andThen, Parsed.yields_map,
        yields_expectCloseParen]
      constructor
      · rintro ⟨e', mid, he, -, ⟨u, rfl, hu⟩, rfl⟩
        exact .inr (.inr ⟨t, us, u, rfl, hk, he, hu⟩)
      · rintro (⟨t', v, hts, hk', -⟩ | ⟨t', name, hts, hk', -⟩ | ⟨t', us', u, hts, -, he, hu⟩)
        · grind
        · grind
        · cases hts
          exact ⟨e, u :: rest, he, (), ⟨u, rfl, hu⟩, rfl⟩
    · grind [Parsed.yields_fail]

theorem yields_parseParens {line : Nat} {ts rest : List Token} {e : Expr} :
    (parseParens line ts).Yields e rest ↔ ∃ t us u, ts = t :: us ∧ t.kind = .symbol .leftParen ∧
      (parse us).Yields e (u :: rest) ∧ u.kind = .symbol .rightParen := by
  simp only [parseParens, Parsed.yields_andThen, yields_expect, Parsed.yields_map,
    yields_expectCloseParen]
  constructor
  · rintro ⟨-, us, ⟨t, rfl, ht⟩, e', mid, he, -, ⟨u, rfl, hu⟩, rfl⟩
    exact ⟨t, us, u, rfl, ht, he, hu⟩
  · rintro ⟨t, us, u, rfl, ht, he, hu⟩
    exact ⟨(), us, ⟨t, rfl, ht⟩, e, u :: rest, he, (), ⟨u, rfl, hu⟩, rfl⟩

/-- A list ends where no comma follows. -/
theorem yields_parseList {ts rest : List Token} {es : List Expr} :
    (parseList ts).Yields es rest ↔ ∃ e mid, (parse ts).Yields e mid ∧
      ((es = [e] ∧ rest = mid ∧ NotNext (· = .symbol .comma) mid) ∨
        ∃ t us es', mid = t :: us ∧ t.kind = .symbol .comma ∧ (parseList us).Yields es' rest ∧
          es = e :: es') := by
  rw [parseList, Parsed.yields_bind]
  constructor
  · rintro ⟨e, mid, he, h⟩
    refine ⟨e, mid, he, ?_⟩
    cases mid with
    | nil => simpa using h
    | cons t us =>
      dsimp only at h
      split at h
      · rename_i hk
        simp only [Parsed.yields_weaken, Parsed.yields_map] at h
        obtain ⟨es', hes, rfl⟩ := h
        exact .inr ⟨t, us, es', rfl, hk, hes, rfl⟩
      · rename_i hk
        rw [Parsed.yields_ok] at h
        exact .inl ⟨h.1, h.2, notNext_cons.mpr hk⟩
  · rintro ⟨e, mid, he, h⟩
    refine ⟨e, mid, he, ?_⟩
    rcases h with ⟨rfl, rfl, hstop⟩ | ⟨t, us, es', rfl, hk, hes, rfl⟩
    · cases rest with
      | nil => simp
      | cons t us =>
        dsimp only
        rw [if_neg (notNext_cons.mp hstop)]
        simp
    · dsimp only
      rw [if_pos hk]
      simp [hes]

end Expr

/-! ## Statements -/

namespace Stmt

theorem yields_parsePrint {line : Nat} {ts rest : List Token} {s : Stmt} :
    (parsePrint line ts).Yields s rest ↔ ∃ value u, (Expr.parse ts).Yields value (u :: rest) ∧
      u.kind = .symbol .semicolon ∧ s = .print value line := by
  simp only [parsePrint, Parsed.yields_andThen, Parsed.yields_map, yields_expect]
  constructor
  · rintro ⟨value, _, h, -, ⟨u, rfl, hu⟩, rfl⟩
    exact ⟨value, u, h, hu, rfl⟩
  · rintro ⟨value, u, h, hu, rfl⟩
    exact ⟨value, u :: rest, h, (), ⟨u, rfl, hu⟩, rfl⟩

theorem yields_parseExprs {line : Nat} {ts rest : List Token} {s : Stmt} :
    (parseExprs line ts).Yields s rest ↔ ∃ list u, (Expr.parseList ts).Yields list (u :: rest) ∧
      u.kind = .symbol .semicolon ∧ s = .exprs list line := by
  simp only [parseExprs, Parsed.yields_andThen, Parsed.yields_map, yields_expect]
  constructor
  · rintro ⟨list, _, h, -, ⟨u, rfl, hu⟩, rfl⟩
    exact ⟨list, u, h, hu, rfl⟩
  · rintro ⟨list, u, h, hu, rfl⟩
    exact ⟨list, u :: rest, h, (), ⟨u, rfl, hu⟩, rfl⟩

/-- The first token tells which parser goes on. One that begins no other statement begins an
expression. -/
theorem yields_parse_cons {t : Token} {ts rest : List Token} {s : Stmt} :
    (parse (t :: ts)).Yields s rest ↔
      match t.kind with
      | .symbol .semicolon => s = .empty t.line ∧ rest = ts
      | .symbol .leftBrace => (parseBlock t.line ts).Yields s rest
      | .keyword .ifWord => (parseIf t.line ts).Yields s rest
      | .keyword .whileWord => (parseWhile t.line ts).Yields s rest
      | .keyword .doWord => (parseDo t.line ts).Yields s rest
      | .keyword .forWord => (parseFor t.line ts).Yields s rest
      | .keyword .printWord => (parsePrint t.line ts).Yields s rest
      | _ => (parseExprs t.line (t :: ts)).Yields s rest := by
  rw [parse]
  generalize t.kind = k
  split <;> simp only [Parsed.yields_ok, Parsed.yields_later]

theorem yields_parseBlock {line : Nat} {ts rest : List Token} {s : Stmt} :
    (parseBlock line ts).Yields s rest ↔
      ∃ body, (parseBody line ts).Yields body rest ∧ s = .block body line := by
  rw [parseBlock, Parsed.yields_map]

/-- A block goes on up to the brace that closes it. -/
theorem yields_parseBody {line : Nat} {ts rest : List Token} {ss : List Stmt} :
    (parseBody line ts).Yields ss rest ↔
      (∃ t, ts = t :: rest ∧ t.kind = .symbol .rightBrace ∧ ss = []) ∨
      (NotNext (· = .symbol .rightBrace) ts ∧ ∃ s mid ss', (parse ts).Yields s mid ∧
        (parseBody line mid).Yields ss' rest ∧ ss = s :: ss') := by
  cases ts with
  | nil => simp [parseBody, parse]
  | cons t us =>
    rw [parseBody]
    split
    · rename_i hk
      simp only [Parsed.yields_ok, notNext_cons, hk, not_true_eq_false, false_and, or_false]
      grind
    · rename_i hk
      simp only [Parsed.yields_andThen, Parsed.yields_map, notNext_cons, hk, not_false_eq_true,
        true_and, exists_prop]
      grind

/-- A branch has an alternative exactly if an `else` follows the first statement. -/
theorem yields_parseIf {line : Nat} {ts rest : List Token} {s : Stmt} :
    (parseIf line ts).Yields s rest ↔ ∃ condition mid thenBranch mid',
      (Expr.parseParens line ts).Yields condition mid ∧ (parse mid).Yields thenBranch mid' ∧
      ((s = .ifThen condition thenBranch line ∧ rest = mid' ∧
          NotNext (· = .keyword .elseWord) mid') ∨
        ∃ t us elseBranch, mid' = t :: us ∧ t.kind = .keyword .elseWord ∧
          (parse us).Yields elseBranch rest ∧
          s = .ifElse condition thenBranch elseBranch line) := by
  rw [parseIf, Parsed.yields_andThen]
  simp only [exists_prop, Parsed.yields_bind]
  constructor
  · rintro ⟨condition, mid, hc, thenBranch, mid', ht, h⟩
    refine ⟨condition, mid, thenBranch, mid', hc, ht, ?_⟩
    cases mid' with
    | nil => simpa using h
    | cons t us =>
      dsimp only at h
      split at h
      · rename_i hk
        simp only [Parsed.yields_weaken, Parsed.yields_map] at h
        obtain ⟨elseBranch, he, rfl⟩ := h
        exact .inr ⟨t, us, elseBranch, rfl, hk, he, rfl⟩
      · rename_i hk
        rw [Parsed.yields_ok] at h
        exact .inl ⟨h.1, h.2, notNext_cons.mpr hk⟩
  · rintro ⟨condition, mid, thenBranch, mid', hc, ht, h⟩
    refine ⟨condition, mid, hc, thenBranch, mid', ht, ?_⟩
    rcases h with ⟨rfl, rfl, hstop⟩ | ⟨t, us, elseBranch, rfl, hk, he, rfl⟩
    · cases rest with
      | nil => simp
      | cons t us =>
        dsimp only
        rw [if_neg (notNext_cons.mp hstop)]
        simp
    · dsimp only
      rw [if_pos hk]
      simp [he]

theorem yields_parseWhile {line : Nat} {ts rest : List Token} {s : Stmt} :
    (parseWhile line ts).Yields s rest ↔ ∃ condition mid body,
      (Expr.parseParens line ts).Yields condition mid ∧ (parse mid).Yields body rest ∧
      s = .whileDo condition body line := by
  rw [parseWhile, Parsed.yields_andThen]
  simp only [Parsed.yields_map, exists_prop]
  grind

theorem yields_parseDo {line : Nat} {ts rest : List Token} {s : Stmt} :
    (parseDo line ts).Yields s rest ↔ ∃ body t mid condition u,
      (parse ts).Yields body (t :: mid) ∧ t.kind = .keyword .whileWord ∧
      (Expr.parseParens line mid).Yields condition (u :: rest) ∧ u.kind = .symbol .semicolon ∧
      s = .doWhile body condition line := by
  rw [parseDo, Parsed.yields_andThen]
  simp only [Parsed.yields_andThen, Parsed.yields_map, yields_expect]
  constructor
  · rintro ⟨body, _, hb, -, mid, ⟨t, rfl, ht⟩, condition, _, hc, -, ⟨u, rfl, hu⟩, rfl⟩
    exact ⟨body, t, mid, condition, u, hb, ht, hc, hu, rfl⟩
  · rintro ⟨body, t, mid, condition, u, hb, ht, hc, hu, rfl⟩
    exact ⟨body, t :: mid, hb, (), mid, ⟨t, rfl, ht⟩, condition, u :: rest, hc, (), ⟨u, rfl, hu⟩,
      rfl⟩

/-- The first part of the head is a statement, which brings its own semicolon; the parenthesis ends
the third part. -/
theorem yields_parseFor {line : Nat} {ts rest : List Token} {s : Stmt} :
    (parseFor line ts).Yields s rest ↔ ∃ t us init mid condition u mid' step v mid'' body,
      ts = t :: us ∧ t.kind = .symbol .leftParen ∧ (parse us).Yields init mid ∧
      (Expr.parse mid).Yields condition (u :: mid') ∧ u.kind = .symbol .semicolon ∧
      (Expr.parse mid').Yields step (v :: mid'') ∧ v.kind = .symbol .rightParen ∧
      (parse mid'').Yields body rest ∧ s = .forDo init condition step body line := by
  rw [parseFor, Parsed.yields_andThen]
  simp only [Parsed.yields_andThen, Parsed.yields_map, yields_expect, yields_expectCloseParen]
  constructor
  · rintro ⟨-, us, ⟨t, rfl, ht⟩, init, mid, hi, condition, _, hc, -, mid', ⟨u, rfl, hu⟩, step, _,
      hs, -, mid'', ⟨v, rfl, hv⟩, body, hb, rfl⟩
    exact ⟨t, us, init, mid, condition, u, mid', step, v, mid'', body, rfl, ht, hi, hc, hu, hs, hv,
      hb, rfl⟩
  · rintro ⟨t, us, init, mid, condition, u, mid', step, v, mid'', body, rfl, ht, hi, hc, hu, hs, hv,
      hb, rfl⟩
    exact ⟨(), us, ⟨t, rfl, ht⟩, init, mid, hi, condition, u :: mid', hc, (), mid', ⟨u, rfl, hu⟩,
      step, v :: mid'', hs, (), mid'', ⟨v, rfl, hv⟩, body, hb, rfl⟩

end Stmt

/-! ## Programs -/

namespace Program

/-- A program goes on as long as a token is left. -/
theorem yields_parseAll {ts rest : List Token} {p : Program} :
    (parseAll ts).Yields p rest ↔ (ts = [] ∧ rest = [] ∧ p = []) ∨
      (ts ≠ [] ∧ ∃ s mid p', (Stmt.parse ts).Yields s mid ∧ (parseAll mid).Yields p' rest ∧
        p = s :: p') := by
  cases ts with
  | nil =>
    simp [parseAll]
    grind
  | cons t us =>
    rw [parseAll]
    split
    · rename_i s mid hlt hs
      simp only [Parsed.yields_weaken, Parsed.yields_map, hs, Parsed.yields_ok]
      grind
    · rename_i e mid hs
      simp [hs]

/-- The line that an error is given makes no difference to a success. -/
theorem yields_parseTokens {ts rest : List Token} {p : Program} :
    (parseTokens ts).Yields p rest ↔ (parseAll ts).Yields p rest := by
  rw [parseTokens, Parsed.yields_mapError]

end Program

end Imp32
