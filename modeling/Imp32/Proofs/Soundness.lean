import Imp32.Proofs.Grammar
import Imp32.Proofs.Parses

/-!
# The parser takes only what the grammar derives

What a parser yields is derived by the grammar from exactly the tokens it took. Each proof follows
the recursion of the parser, and takes the same measure to end.

For statements the derivation gives every `else` to the nearest `if`: a statement that ends in an
open `if` has looked at the next token, and it was no `else`.
-/

namespace Imp32

/-! ## Operators and heights -/

/-- The operators that the grammar puts before an operand are those that the parser looks for. -/
theorem UnaryOp.mem_symbols_iff {op : UnaryOp} {sym : Symbol} :
    sym ∈ op.symbols ↔ sym.unaryOp? = some op := by
  constructor
  · revert sym
    cases op <;> decide
  · intro h
    unfold Symbol.unaryOp? at h
    split at h <;> cases h <;> decide

theorem Token.Kind.unaryOp?_eq_some_iff {k : Token.Kind} {op : UnaryOp} :
    k.unaryOp? = some op ↔ ∃ sym, k = .symbol sym ∧ sym ∈ op.symbols := by
  simp only [UnaryOp.mem_symbols_iff]
  cases k <;> simp [unaryOp?]

/-- The height of the operands that a rule derives. -/
def Expr.Rule.height? : Expr.Rule → Option Nat
  | .unary => some 0
  | .level l => some l.height
  | .assignment | .primary => none

/-- The operands of a level are those of the next height below. -/
theorem Level.height?_operand {level : Level} {k : Nat} (h : level.height = k + 1) :
    level.operand.height? = some k := by
  cases level <;> cases h <;> rfl

theorem Level.height_pos (level : Level) : ∃ k, level.height = k + 1 := by
  cases level <;> exact ⟨_, rfl⟩

theorem Level.height_le_nine (level : Level) : level.height ≤ 9 := by
  cases level <;> decide

/-- The operators that the grammar gives to a level are those that the parser finds at its height.
-/
theorem Level.mem_operators_iff {level : Level} {op : BinaryOp} :
    op ∈ level.operators ↔ op.height? = some level.height := by
  cases op with
  | arith op => cases op <;> cases level <;> decide
  | compare op => cases op <;> cases level <;> decide
  | logic op => cases op <;> cases level <;> decide
  | assign => cases level <;> decide
  | compound op => cases level <;> simp [Level.operators, BinaryOp.height?, BinaryOp.level?]

/-! ## Soundness -/

namespace Expr

mutual

/-- An expression that is parsed is derived from the tokens that were taken. The other parsers are
treated together with it, since they all call each other. -/
theorem parse_sound {ts rest : List Token} {e : Expr} (h : (parse ts).Yields e rest) :
    ∃ used, ts = used ++ rest ∧ Derives .assignment used e := by
  obtain ⟨left, mid, hleft, hmid⟩ := yields_parse.mp h
  have hlt := hleft.length_lt
  obtain ⟨used, hts, hd⟩ := parseOperand_sound (k := 9) (r := .level .disjunction) rfl hleft
  rcases hmid with ⟨rfl, rfl, -⟩ | ⟨t, us, op, right, hmid, ht, hop, hright, rfl⟩
  · exact ⟨used, hts, .operand hd⟩
  · have hlen : mid.length = us.length + 1 := by rw [hmid, List.length_cons]
    obtain ⟨used', hus, hd'⟩ := parse_sound hright
    exact ⟨used ++ t :: used', by simp [hts, hmid, hus], .assign hd ht hop hd'⟩
termination_by 13 * ts.length + 12
decreasing_by all_goals omega

/-- What is parsed at some height is derived by the rule that has this height. -/
theorem parseOperand_sound {k : Nat} {r : Rule} (hr : r.height? = some k)
    {ts rest : List Token} {e : Expr} (h : (parseOperand k ts).Yields e rest) :
    ∃ used, ts = used ++ rest ∧ Derives r used e := by
  match k, r, hr with
  | 0, .unary, _ => exact parseUnary_sound (yields_parseOperand_zero.mp h)
  | 0, .level l, hr =>
    obtain ⟨k, hk⟩ := l.height_pos
    cases hk.symm.trans (Option.some.inj hr)
  | k + 1, .level l, hr =>
    have hk : l.height = k + 1 := Option.some.inj hr
    obtain ⟨left, mid, hleft, hchain⟩ := yields_parseOperand_succ.mp h
    have hlt := hleft.length_lt
    obtain ⟨used, hts, hd⟩ := parseOperand_sound (Level.height?_operand hk) hleft
    obtain ⟨used', hmid, hd'⟩ := parseChain_sound hk (.single hd) hchain
    exact ⟨used ++ used', by simp [hts, hmid], hd'⟩
termination_by 13 * ts.length + k + 2
decreasing_by all_goals omega

/-- The tokens that a chain takes extend the derivation of its left part. -/
theorem parseChain_sound {k : Nat} {level : Level} (hk : level.height = k + 1)
    {before ts rest : List Token} {left e : Expr} (hleft : Derives (.level level) before left)
    {n : Nat} {hn : ts.length < n} (h : (parseChain k left ts hn).Yields e rest) :
    ∃ used, ts = used ++ rest ∧ Derives (.level level) (before ++ used) e := by
  rcases yields_parseChain.mp h with
    ⟨rfl, rfl, -⟩ | ⟨t, us, op, right, mid, hts, ht, hop, hright, hchain⟩
  · exact ⟨[], rfl, by simpa using hleft⟩
  · have hlen : ts.length = us.length + 1 := by rw [hts, List.length_cons]
    have hlt := hright.length_lt
    obtain ⟨used, hus, hd⟩ := parseOperand_sound (Level.height?_operand hk) hright
    have hmem : op ∈ level.operators := by rw [Level.mem_operators_iff, hk]; exact hop
    obtain ⟨used', hmid, hd'⟩ := parseChain_sound hk (.chain hleft ht hmem hd) hchain
    exact ⟨t :: used ++ used', by simp [hts, hus, hmid], by simpa using hd'⟩
termination_by 13 * ts.length + k + 2
decreasing_by all_goals omega

theorem parseUnary_sound {ts rest : List Token} {e : Expr} (h : (parseUnary ts).Yields e rest) :
    ∃ used, ts = used ++ rest ∧ Derives .unary used e := by
  rcases yields_parseUnary.mp h with ⟨t, us, op, operand, hts, hop, hrest, rfl⟩ | ⟨-, hprimary⟩
  · have hlen : ts.length = us.length + 1 := by rw [hts, List.length_cons]
    obtain ⟨used, hus, hd⟩ := parseUnary_sound hrest
    obtain ⟨sym, ht, hsym⟩ := Token.Kind.unaryOp?_eq_some_iff.mp hop
    exact ⟨t :: used, by simp [hts, hus], .unary ht hsym hd⟩
  · obtain ⟨used, hts, hd⟩ := parsePrimary_sound hprimary
    exact ⟨used, hts, .primary hd⟩
termination_by 13 * ts.length + 1
decreasing_by all_goals omega

theorem parsePrimary_sound {ts rest : List Token} {e : Expr}
    (h : (parsePrimary ts).Yields e rest) :
    ∃ used, ts = used ++ rest ∧ Derives .primary used e := by
  rcases yields_parsePrimary.mp h with
    ⟨t, v, rfl, ht, rfl⟩ | ⟨t, name, rfl, ht, rfl⟩ | ⟨t, us, u, hts, ht, hinner, hu⟩
  · exact ⟨[t], rfl, .literal ht⟩
  · exact ⟨[t], rfl, .name ht⟩
  · have hlen : ts.length = us.length + 1 := by rw [hts, List.length_cons]
    obtain ⟨used, hus, hd⟩ := parse_sound hinner
    exact ⟨t :: used ++ [u], by simp [hts, hus], .parens ht hd hu⟩
termination_by 13 * ts.length
decreasing_by omega

end

theorem parseParens_sound {line : Nat} {ts rest : List Token} {e : Expr}
    (h : (parseParens line ts).Yields e rest) :
    ∃ used, ts = used ++ rest ∧ DerivesParens used e := by
  obtain ⟨t, us, u, rfl, ht, hinner, hu⟩ := yields_parseParens.mp h
  obtain ⟨used, rfl, hd⟩ := parse_sound hinner
  exact ⟨t :: used ++ [u], by simp, .mk ht hd hu⟩

theorem parseList_sound {ts rest : List Token} {es : List Expr}
    (h : (parseList ts).Yields es rest) :
    ∃ used, ts = used ++ rest ∧ DerivesList used es := by
  obtain ⟨e, mid, he, hmid⟩ := yields_parseList.mp h
  have hlt := he.length_lt
  obtain ⟨used, hts, hd⟩ := parse_sound he
  rcases hmid with ⟨rfl, rfl, -⟩ | ⟨t, us, es', hmid, ht, hes, rfl⟩
  · exact ⟨used, hts, .last hd⟩
  · have hlen : mid.length = us.length + 1 := by rw [hmid, List.length_cons]
    obtain ⟨used', hus, hd'⟩ := parseList_sound hes
    exact ⟨used ++ t :: used', by simp [hts, hmid, hus], .cons hd ht hd'⟩
termination_by ts.length
decreasing_by omega

end Expr

namespace Stmt

/-- The tokens from `ts` up to `rest` make `s` a statement after `before`, and an `else` that it
could take is not left over. -/
def Accounts (before ts rest : List Token) (s : Stmt) : Prop :=
  ∃ used, ts = used ++ rest ∧ Derives true (before ++ used) s ∧
    (s.endsOpen = true → NotNext (· = .keyword .elseWord) rest)

mutual

/-- A statement that is parsed accounts for the tokens that were taken. -/
theorem parse_accounts {ts rest : List Token} {s : Stmt} (h : (parse ts).Yields s rest) :
    Accounts [] ts rest s := by
  match ts with
  | [] => simp [parse] at h
  | t :: us =>
    rw [yields_parse_cons] at h
    have shift {s : Stmt} (ha : Accounts [t] us rest s) : Accounts [] (t :: us) rest s := by
      obtain ⟨used, rfl, hd, ho⟩ := ha
      exact ⟨t :: used, rfl, hd, ho⟩
    split at h
    · rename_i ht
      obtain ⟨rfl, rfl⟩ := h
      exact ⟨[t], rfl, .empty ht, by simp [endsOpen]⟩
    · rename_i ht
      obtain ⟨body, hbody, rfl⟩ := yields_parseBlock.mp h
      obtain ⟨used, u, hus, hd, hu⟩ := parseBody_sound hbody
      exact ⟨t :: used ++ [u], by simp [hus], .block ht hd hu, by simp [endsOpen]⟩
    · rename_i ht
      exact shift (parseIf_accounts ht h)
    · rename_i ht
      exact shift (parseWhile_accounts ht h)
    · rename_i ht
      exact shift (parseDo_accounts ht h)
    · rename_i ht
      exact shift (parseFor_accounts ht h)
    · rename_i ht
      obtain ⟨value, u, hvalue, hu, rfl⟩ := yields_parsePrint.mp h
      obtain ⟨used, rfl, hd⟩ := Expr.parse_sound hvalue
      exact ⟨t :: used ++ [u], by simp, .print ht hd hu, by simp [endsOpen]⟩
    · obtain ⟨list, u, hlist, hu, rfl⟩ := yields_parseExprs.mp h
      obtain ⟨used, hts, hd⟩ := Expr.parseList_sound hlist
      obtain ⟨t', us', rfl, -⟩ := hd.first
      cases hts
      exact ⟨t :: us' ++ [u], by simp, .exprs hd hu, by simp [endsOpen]⟩
termination_by 3 * ts.length
decreasing_by all_goals simp only [List.length_cons]; omega

/-- The statements of a block are derived from the tokens before the brace that closes it. -/
theorem parseBody_sound {line : Nat} {ts rest : List Token} {ss : List Stmt}
    (h : (parseBody line ts).Yields ss rest) :
    ∃ used u, ts = used ++ u :: rest ∧ DerivesAll true used ss ∧ u.kind = .symbol .rightBrace := by
  rcases yields_parseBody.mp h with ⟨u, rfl, hu, rfl⟩ | ⟨-, s, mid, ss', hs, hss, rfl⟩
  · exact ⟨[], u, rfl, .nil, hu⟩
  · have hlt := hs.length_lt
    obtain ⟨used, hts, hd, -⟩ := parse_accounts hs
    obtain ⟨used', u, hmid, hd', hu⟩ := parseBody_sound hss
    exact ⟨used ++ used', u, by simp [hts, hmid], .cons hd hd', hu⟩
termination_by 3 * ts.length + 1
decreasing_by all_goals omega

/-- The word `if` has been taken before. Its branch leaves no `else` that it could take, so the one
that follows is its own. -/
theorem parseIf_accounts {t : Token} (ht : t.kind = .keyword .ifWord) {ts rest : List Token}
    {s : Stmt} (h : (parseIf t.line ts).Yields s rest) : Accounts [t] ts rest s := by
  obtain ⟨condition, mid, thenBranch, mid', hc, hthen, hmid'⟩ := yields_parseIf.mp h
  have hlt := hc.length_lt
  have hlt' := hthen.length_lt
  obtain ⟨cs, hts, hcond⟩ := Expr.parseParens_sound hc
  obtain ⟨used, hmid, hd, hopen⟩ := parse_accounts hthen
  rcases hmid' with ⟨rfl, rfl, hstop⟩ | ⟨u, us, elseBranch, hmid', hu, helse, rfl⟩
  · exact ⟨cs ++ used, by simp [hts, hmid], by simpa using Derives.ifThen ht hcond hd,
      fun _ => hstop⟩
  · have hlen : mid'.length = us.length + 1 := by rw [hmid', List.length_cons]
    -- An open branch would have taken the `else` that follows it.
    have hclosed : thenBranch.endsOpen = false := by
      rw [Bool.eq_false_iff]
      intro ho
      rw [hmid', notNext_cons] at hopen
      exact hopen ho hu
    obtain ⟨used', hus, hd', hopen'⟩ := parse_accounts helse
    exact ⟨cs ++ used ++ u :: used', by simp [hts, hmid, hmid', hus],
      by simpa using Derives.ifElse ht hcond hd (fun _ => hclosed) hu hd', hopen'⟩
termination_by 3 * ts.length
decreasing_by all_goals omega

theorem parseWhile_accounts {t : Token} (ht : t.kind = .keyword .whileWord) {ts rest : List Token}
    {s : Stmt} (h : (parseWhile t.line ts).Yields s rest) : Accounts [t] ts rest s := by
  obtain ⟨condition, mid, body, hc, hbody, rfl⟩ := yields_parseWhile.mp h
  have hlt := hc.length_lt
  obtain ⟨cs, hts, hcond⟩ := Expr.parseParens_sound hc
  obtain ⟨used, hmid, hd, hopen⟩ := parse_accounts hbody
  exact ⟨cs ++ used, by simp [hts, hmid], by simpa using Derives.whileDo ht hcond hd, hopen⟩
termination_by 3 * ts.length
decreasing_by omega

theorem parseDo_accounts {t : Token} (ht : t.kind = .keyword .doWord) {ts rest : List Token}
    {s : Stmt} (h : (parseDo t.line ts).Yields s rest) : Accounts [t] ts rest s := by
  obtain ⟨body, u, mid, condition, v, hbody, hu, hc, hv, rfl⟩ := yields_parseDo.mp h
  obtain ⟨used, hts, hd, -⟩ := parse_accounts hbody
  obtain ⟨cs, hmid, hcond⟩ := Expr.parseParens_sound hc
  exact ⟨used ++ u :: cs ++ [v], by simp [hts, hmid],
    by simpa using Derives.doWhile ht hd hu hcond hv, by simp [endsOpen]⟩
termination_by 3 * ts.length + 1
decreasing_by omega

/-- The body comes last, so a `for` ends open exactly if its body does. -/
theorem parseFor_accounts {t : Token} (ht : t.kind = .keyword .forWord) {ts rest : List Token}
    {s : Stmt} (h : (parseFor t.line ts).Yields s rest) : Accounts [t] ts rest s := by
  obtain ⟨u, us, init, mid, condition, v, mid', step, w, mid'', body, hts, hu, hinit, hc, hv, hstep,
    hw, hbody, rfl⟩ := yields_parseFor.mp h
  have hlen : ts.length = us.length + 1 := by rw [hts, List.length_cons]
  have hlt := hinit.length_lt
  have hlt' := hc.length_lt
  have hlt'' := hstep.length_lt
  simp only [List.length_cons] at hlt' hlt''
  obtain ⟨is, hus, hdi, -⟩ := parse_accounts hinit
  obtain ⟨cs, hmid, hdc⟩ := Expr.parse_sound hc
  obtain ⟨ss, hmid', hds⟩ := Expr.parse_sound hstep
  obtain ⟨used, hmid'', hd, hopen⟩ := parse_accounts hbody
  exact ⟨u :: is ++ cs ++ v :: ss ++ w :: used, by simp [hts, hus, hmid, hmid', hmid''],
    by simpa using Derives.forDo ht hu hdi hdc hv hds hw hd, hopen⟩
termination_by 3 * ts.length
decreasing_by all_goals simp only [List.length_cons] at *; omega

end

end Stmt

/-- A program is parsed from all the tokens. -/
theorem Program.parseAll_sound {ts rest : List Token} {p : Program}
    (h : (parseAll ts).Yields p rest) : Derives true ts p := by
  rcases yields_parseAll.mp h with ⟨rfl, rfl, rfl⟩ | ⟨-, s, mid, p', hs, hp', rfl⟩
  · exact .nil
  · have hlt := hs.length_lt
    obtain ⟨used, hts, hd, -⟩ := Stmt.parse_accounts hs
    rw [hts]
    exact .cons hd (parseAll_sound hp')
termination_by ts.length

end Imp32
