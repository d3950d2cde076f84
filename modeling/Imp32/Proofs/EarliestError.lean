import Imp32.Proofs.Completeness
import Imp32.Proofs.Foresight

/-!
# Syntax errors show as early as they can

Each parser reads the language of its rule with foresight. So parsing fails at the end of the tokens
only if more tokens could have made them a program, and at a token only if no tokens after it could,
while those before it still begin a program.

The languages are those of the grammar that gives an `else` to any `if`: it derives a statement from
the same tokens as the grammar that gives it to the nearest one, and it never matters which `if` has
to be closed before a word goes on.
-/

namespace Imp32

open scoped Computability

/-! ## Expressions -/

namespace Expr

/-- The token lists that a rule derives an expression from. -/
def language (r : Rule) : Language Token := {ts | ∃ e, Derives r ts e}

/-- The operators of a level. -/
def operatorsOf (level : Level) : Language Token :=
  oneOf fun k => ∃ op ∈ level.operators, k = .symbol (.binary op)

/-- The operators that assign. -/
def assigning : Language Token :=
  oneOf fun k => ∃ op : BinaryOp, op.assigns = true ∧ k = .symbol (.binary op)

/-- Expressions in parentheses. -/
def parensLanguage : Language Token :=
  just (.symbol .leftParen) * (language .assignment * just (.symbol .rightParen))

/-- The token lists of one or more expressions. -/
def listLanguage : Language Token := {ts | ∃ es, DerivesList ts es}

instance (r : Rule) : Productive (language r) := by
  have hname : Derives .unary [⟨.identifier "x", 0⟩] (.var "x" 0) := .primary (.name rfl)
  refine ⟨[⟨.identifier "x", 0⟩], .var "x" 0, ?_⟩
  cases r with
  | assignment => exact hname.widen
  | level l => exact hname.toLevel l
  | unary => exact hname
  | primary => exact .name rfl

instance : Productive parensLanguage := inferInstanceAs (Productive (_ * _))

/-- The rule for assignments derives an operand, alone or with an assigning operator and an
assignment after it. -/
theorem mem_assignment {w : List Token}
    (h : w ∈ language (.level .disjunction) * (1 + assigning * language .assignment)) :
    w ∈ language .assignment := by
  obtain ⟨ts, ⟨left, hleft⟩, us, hus, rfl⟩ := h
  rcases hus with rfl | ⟨_, ⟨t, ⟨op, hop, ht⟩, rfl⟩, vs, ⟨right, hright⟩, rfl⟩
  · exact ⟨left, by simpa using Derives.operand hleft⟩
  · exact ⟨_, Derives.assign hleft ht hop hright⟩

/-- The rule for a level derives operands with any number of its operators between them. -/
theorem mem_level {level : Level} {w : List Token}
    (h : w ∈ language level.operand * (operatorsOf level * language level.operand)∗) :
    w ∈ language (.level level) := by
  have hsingle : language level.operand ≤ language (.level level) := by
    rintro ts ⟨e, he⟩
    exact ⟨e, .single he⟩
  have hchain : language (.level level) * (operatorsOf level * language level.operand) ≤
      language (.level level) := by
    rintro _ ⟨ts, ⟨left, hleft⟩, _, ⟨_, ⟨t, ⟨op, hop, ht⟩, rfl⟩, us, ⟨right, hright⟩, rfl⟩, rfl⟩
    exact ⟨_, .chain hleft ht hop hright⟩
  have hle := mul_kstar_le hsingle hchain
  exact hle h

/-- The line of a parenthesis that is never closed has to be one that may be blamed. -/
theorem foresees_enclosed {lines : Nat → Prop} {line : Nat} {ts : List Token} (hline : lines line)
    (hparse : Foresees lines (language .assignment) (reading parse) ts) :
    Foresees lines (language .assignment * just (.symbol .rightParen)) (enclosed line) ts :=
  hparse.bind fun _ => (foresees_expectCloseParen hline _).map

mutual

/-- An expression is read with foresight. The proofs follow the recursion of the parsers, each with
the language of its rule. -/
theorem foresees_parse (lines : Nat → Prop) (ts : List Token) :
    Foresees lines (language .assignment) (reading parse) ts := by
  rw [reading_parse]
  have hoperand := foresees_parseOperand (k := 9) (r := .level .disjunction) rfl lines ts
  refine (hoperand.bind fun {left rest} hleft => ?_).mono fun w => mem_assignment
  have hlt := length_lt_of_reading hleft
  refine .option fun t us z hrest hz => ?_
  have hlen : rest.length = us.length + 1 := by rw [hrest, List.length_cons]
  obtain ⟨op, hop, rfl⟩ := Option.map_eq_some_iff.mp hz
  obtain ⟨hop, hassigns⟩ := Option.filter_eq_some_iff.mp hop
  exact ⟨⟨op, hassigns, Token.Kind.binaryOp?_eq_some_iff.mp hop⟩, (foresees_parse _ us).map⟩
termination_by 13 * ts.length + 12
decreasing_by all_goals omega

/-- The operands of a height are read with foresight of the rule that has this height. -/
theorem foresees_parseOperand {k : Nat} {r : Rule} (hr : r.height? = some k)
    (lines : Nat → Prop) (ts : List Token) :
    Foresees lines (language r) (reading (parseOperand k)) ts := by
  match k, r, hr with
  | 0, .unary, _ =>
    rw [reading_parseOperand_zero]
    exact foresees_parseUnary lines ts
  | 0, .level l, hr =>
    obtain ⟨k, hk⟩ := l.height_pos
    cases hk.symm.trans (Option.some.inj hr)
  | k + 1, .level l, hr =>
    have hk : l.height = k + 1 := Option.some.inj hr
    rw [reading_parseOperand_succ]
    have hoperand := foresees_parseOperand (Level.height?_operand hk) lines ts
    refine (hoperand.bind fun {left rest} hleft => ?_).mono fun w => mem_level
    have hlt := length_lt_of_reading hleft
    exact foresees_readingChain hk left lines rest
termination_by 13 * ts.length + k + 2
decreasing_by all_goals omega

/-- After an operand of a level, any number of operators and operands may still follow. -/
theorem foresees_readingChain {k : Nat} {level : Level} (hk : level.height = k + 1) (left : Expr)
    (lines : Nat → Prop) (ts : List Token) :
    Foresees lines (operatorsOf level * language level.operand)∗ (readingChain k left) ts := by
  rw [readingChain_eq, ← Language.one_add_self_mul_kstar_eq_kstar, mul_assoc]
  refine .option fun t us z hts hz => ?_
  have hlen : ts.length = us.length + 1 := by rw [hts, List.length_cons]
  obtain ⟨op, hop, rfl⟩ := Option.map_eq_some_iff.mp hz
  obtain ⟨hop, hheight⟩ := Option.filter_eq_some_iff.mp hop
  have hmem : op ∈ level.operators := by
    rw [Level.mem_operators_iff, hk]
    exact of_decide_eq_true hheight
  refine ⟨⟨op, hmem, Token.Kind.binaryOp?_eq_some_iff.mp hop⟩, ?_⟩
  have hoperand := foresees_parseOperand (Level.height?_operand hk)
    (fun l => lines l ∨ l = t.line) us
  refine hoperand.bind fun {right rest} hright => ?_
  have hlt := length_lt_of_reading hright
  exact foresees_readingChain hk _ _ rest
termination_by 13 * ts.length + k + 2
decreasing_by all_goals omega

theorem foresees_parseUnary (lines : Nat → Prop) (ts : List Token) :
    Foresees lines (language .unary) (reading parseUnary) ts := by
  rw [reading_parseUnary]
  have hprimary := foresees_parsePrimary lines ts
  refine .ifNext (fun t us z hts hz => ?_) (hprimary.mono ?_)
  · have hlen : ts.length = us.length + 1 := by rw [hts, List.length_cons]
    obtain ⟨op, hop, rfl⟩ := Option.map_eq_some_iff.mp hz
    refine ⟨language .unary, ?_, (foresees_parseUnary _ us).map⟩
    obtain ⟨sym, ht, hsym⟩ := Token.Kind.unaryOp?_eq_some_iff.mp hop
    rintro w ⟨e, he⟩
    exact ⟨_, .unary ht hsym he⟩
  · rintro w ⟨e, he⟩
    exact ⟨e, .primary he⟩
termination_by 13 * ts.length + 1
decreasing_by all_goals omega

/-- A literal out of range is wrong at its own token, whatever follows. -/
theorem foresees_parsePrimary (lines : Nat → Prop) (ts : List Token) :
    Foresees lines (language .primary) (reading parsePrimary) ts := by
  match ts with
  | [] => exact .blame_end (e := ⟨.unexpectedEnd, 0⟩) trivial reading_parsePrimary_nil
  | t :: us =>
    have hgiven := given_reading_parsePrimary t
    split at hgiven
    · rename_i n ht
      unfold literal at hgiven
      cases hv : Value.ofLiteral? n with
      | none =>
        rw [hv] at hgiven
        exact .blame (e := ⟨.literalTooLarge, t.line⟩) ⟨rfl, n, ht, hv⟩ (congrFun hgiven)
      | some v =>
        rw [hv] at hgiven
        refine .take (M := 1) (.of_pure _ rfl) ?_ (congrFun hgiven)
        rintro _ rfl
        rw [Value.ofLiteral?_eq_some_iff.mp hv] at ht
        exact ⟨_, .literal ht⟩
    · rename_i name ht
      refine .take (M := 1) (.of_pure _ rfl) ?_ (congrFun hgiven)
      rintro _ rfl
      exact ⟨_, .name ht⟩
    · rename_i ht
      have hclosed := foresees_enclosed (.inr rfl)
        (foresees_parse (fun l => lines l ∨ l = t.line) us)
      refine hclosed.take ?_ (congrFun hgiven)
      rintro _ ⟨w, ⟨e, he⟩, _, ⟨u, hu, rfl⟩, rfl⟩
      exact ⟨e, .parens ht he hu⟩
    · exact .blame (e := ⟨.unexpected t.kind, t.line⟩) ⟨rfl, rfl⟩ (congrFun hgiven)
termination_by 13 * ts.length
decreasing_by all_goals simp only [List.length_cons]; omega

end

theorem foresees_parseParens {lines : Nat → Prop} {line : Nat} (hline : lines line)
    (ts : List Token) : Foresees lines parensLanguage (reading (parseParens line)) ts := by
  rw [reading_parseParens]
  refine (foresees_expect _ line ts).bind fun {_ rest} _ => ?_
  exact foresees_enclosed hline (foresees_parse lines rest)

/-- Parentheses in the head of a statement are those of the grammar. -/
theorem derivesParens_of_mem {cs : List Token} (h : cs ∈ parensLanguage) :
    ∃ e, DerivesParens cs e := by
  obtain ⟨_, ⟨t, ht, rfl⟩, _, ⟨w, ⟨e, he⟩, _, ⟨u, hu, rfl⟩, rfl⟩, rfl⟩ := h
  exact ⟨e, .mk ht he hu⟩

theorem mem_listLanguage {w : List Token}
    (h : w ∈ language .assignment * (1 + just (.symbol .comma) * listLanguage)) :
    w ∈ listLanguage := by
  obtain ⟨ts, ⟨e, he⟩, us, hus, rfl⟩ := h
  rcases hus with rfl | ⟨_, ⟨t, ht, rfl⟩, vs, ⟨es, hes⟩, rfl⟩
  · exact ⟨[e], by simpa using DerivesList.last he⟩
  · exact ⟨e :: es, .cons he ht hes⟩

theorem foresees_parseList (lines : Nat → Prop) (ts : List Token) :
    Foresees lines listLanguage (reading parseList) ts := by
  rw [reading_parseList]
  refine ((foresees_parse lines ts).bind fun {e rest} he => ?_).mono fun w => mem_listLanguage
  have hlt := length_lt_of_reading he
  refine .option fun t us z hrest hz => ?_
  have hlen : rest.length = us.length + 1 := by rw [hrest, List.length_cons]
  obtain ⟨hk, hz⟩ := Option.ite_none_right_eq_some.mp hz
  cases hz
  exact ⟨hk, (foresees_parseList _ us).map⟩
termination_by ts.length
decreasing_by omega

end Expr

/-! ## Statements -/

namespace Stmt

/-- The token lists that a statement is derived from. -/
def language : Language Token := {ts | ∃ s, Derives false ts s}

/-- The token lists that statements are derived from, one after another. -/
def allLanguage : Language Token := {ts | ∃ ss, DerivesAll false ts ss}

/-- The rest of a block, after the brace that opens it. -/
def bodyLanguage : Language Token := allLanguage * just (.symbol .rightBrace)

/-- The rest of a branch, after its first token. -/
def ifLanguage : Language Token :=
  Expr.parensLanguage * (language * (1 + just (.keyword .elseWord) * language))

/-- The rest of a loop that tests before its body, after its first token. -/
def whileLanguage : Language Token := Expr.parensLanguage * language

/-- The rest of a loop that tests after its body, after its first token. -/
def doLanguage : Language Token :=
  language * (just (.keyword .whileWord) * (Expr.parensLanguage * just (.symbol .semicolon)))

/-- The rest of a loop with a step, after its first token. -/
def forLanguage : Language Token :=
  just (.symbol .leftParen) * (language * (Expr.language .assignment *
    (just (.symbol .semicolon) * (Expr.language .assignment *
      (just (.symbol .rightParen) * language)))))

instance : Productive language := ⟨[⟨.symbol .semicolon, 0⟩], .empty 0, .empty rfl⟩

instance : Productive allLanguage := ⟨[], [], .nil⟩

instance : Productive bodyLanguage := inferInstanceAs (Productive (_ * _))

/-- No statement is derived from no tokens. -/
theorem not_nil_mem_language : [] ∉ language := by
  rintro ⟨s, hs⟩
  obtain ⟨t, us, hnil, -⟩ := hs.first
  cases hnil

theorem mem_allLanguage {w : List Token} (h : w ∈ language * allLanguage) : w ∈ allLanguage := by
  obtain ⟨ts, ⟨s, hs⟩, us, ⟨ss, hss⟩, rfl⟩ := h
  exact ⟨s :: ss, .cons hs hss⟩

/-- One more statement may stand before the rest of a block. -/
theorem mem_bodyLanguage {w : List Token} (h : w ∈ language * bodyLanguage) :
    w ∈ bodyLanguage := by
  rw [bodyLanguage, ← mul_assoc] at h
  obtain ⟨ts, hts, us, hus, rfl⟩ := h
  exact Language.append_mem_mul (mem_allLanguage hts) hus

section FirstToken

variable {t : Token} {w : List Token}

theorem cons_mem_of_body (ht : t.kind = .symbol .leftBrace) (h : w ∈ bodyLanguage) :
    t :: w ∈ language := by
  obtain ⟨ts, ⟨ss, hss⟩, _, ⟨u, hu, rfl⟩, rfl⟩ := h
  exact ⟨_, .block ht hss hu⟩

/-- An `else` may go with any `if`, so nothing is asked of the statement before it. -/
theorem cons_mem_of_if (ht : t.kind = .keyword .ifWord) (h : w ∈ ifLanguage) :
    t :: w ∈ language := by
  obtain ⟨cs, hcs, _, ⟨ts, ⟨s, hs⟩, us, hus, rfl⟩, rfl⟩ := h
  obtain ⟨condition, hc⟩ := Expr.derivesParens_of_mem hcs
  rcases hus with rfl | ⟨_, ⟨u, hu, rfl⟩, vs, ⟨s', hs'⟩, rfl⟩
  · exact ⟨_, by simpa using Derives.ifThen ht hc hs⟩
  · exact ⟨_, by simpa using Derives.ifElse ht hc hs nofun hu hs'⟩

theorem cons_mem_of_while (ht : t.kind = .keyword .whileWord) (h : w ∈ whileLanguage) :
    t :: w ∈ language := by
  obtain ⟨cs, hcs, ts, ⟨s, hs⟩, rfl⟩ := h
  obtain ⟨condition, hc⟩ := Expr.derivesParens_of_mem hcs
  exact ⟨_, .whileDo ht hc hs⟩

theorem cons_mem_of_do (ht : t.kind = .keyword .doWord) (h : w ∈ doLanguage) :
    t :: w ∈ language := by
  obtain ⟨ts, ⟨s, hs⟩, _, ⟨_, ⟨u, hu, rfl⟩, _, ⟨cs, hcs, _, ⟨v, hv, rfl⟩, rfl⟩, rfl⟩, rfl⟩ := h
  obtain ⟨condition, hc⟩ := Expr.derivesParens_of_mem hcs
  exact ⟨_, by simpa using Derives.doWhile ht hs hu hc hv⟩

theorem cons_mem_of_for (ht : t.kind = .keyword .forWord) (h : w ∈ forLanguage) :
    t :: w ∈ language := by
  obtain ⟨_, ⟨u, hu, rfl⟩, _, ⟨is, ⟨init, hinit⟩, _, ⟨cs, ⟨condition, hc⟩, _, ⟨_, ⟨v, hv, rfl⟩, _,
    ⟨ss, ⟨step, hstep⟩, _, ⟨_, ⟨x, hx, rfl⟩, ts, ⟨s, hs⟩, rfl⟩, rfl⟩, rfl⟩, rfl⟩, rfl⟩, rfl⟩ := h
  exact ⟨_, by simpa using Derives.forDo ht hu hinit hc hv hstep hx hs⟩

theorem cons_mem_of_print (ht : t.kind = .keyword .printWord)
    (h : w ∈ Expr.language .assignment * just (.symbol .semicolon)) : t :: w ∈ language := by
  obtain ⟨ts, ⟨value, hvalue⟩, _, ⟨u, hu, rfl⟩, rfl⟩ := h
  exact ⟨_, .print ht hvalue hu⟩

end FirstToken

theorem mem_of_list {w : List Token}
    (h : w ∈ Expr.listLanguage * just (.symbol .semicolon)) : w ∈ language := by
  obtain ⟨ts, ⟨list, hlist⟩, _, ⟨u, hu, rfl⟩, rfl⟩ := h
  obtain ⟨t, us, rfl, -⟩ := hlist.first
  exact ⟨_, .exprs hlist hu⟩

theorem foresees_parsePrint (lines : Nat → Prop) (line : Nat) (ts : List Token) :
    Foresees lines (Expr.language .assignment * just (.symbol .semicolon))
      (reading (parsePrint line)) ts := by
  rw [reading_parsePrint]
  refine (Expr.foresees_parse lines ts).bind fun _ => ?_
  exact (foresees_expect _ line _).map

theorem foresees_parseExprs (lines : Nat → Prop) (line : Nat) (ts : List Token) :
    Foresees lines language (reading (parseExprs line)) ts := by
  rw [reading_parseExprs]
  refine ((Expr.foresees_parseList lines ts).bind fun _ => ?_).mono fun w => mem_of_list
  exact (foresees_expect _ line _).map

mutual

/-- A statement is read with foresight: its first token tells which language the rest must be in. -/
theorem foresees_parse (lines : Nat → Prop) (ts : List Token) :
    Foresees lines language (reading parse) ts := by
  match ts with
  | [] => exact .blame_end (e := ⟨.unexpectedEnd, 0⟩) trivial reading_parse_nil
  | t :: us =>
    have hgiven := given_reading_parse t
    split at hgiven
    · rename_i ht
      refine .take (M := 1) (.of_pure _ rfl) ?_ (congrFun hgiven)
      rintro _ rfl
      exact ⟨_, .empty ht⟩
    · rename_i ht
      have hblock := foresees_parseBlock (fun l => lines l ∨ l = t.line) t.line us
      exact hblock.take (fun w => cons_mem_of_body ht) (congrFun hgiven)
    -- the first token's line is the one to blame for a parenthesis that is never closed
    · rename_i ht
      have hif := foresees_parseIf (fun l => lines l ∨ l = t.line) (.inr rfl) us
      exact hif.take (fun w => cons_mem_of_if ht) (congrFun hgiven)
    · rename_i ht
      have hwhile := foresees_parseWhile (fun l => lines l ∨ l = t.line) (.inr rfl) us
      exact hwhile.take (fun w => cons_mem_of_while ht) (congrFun hgiven)
    · rename_i ht
      have hdo := foresees_parseDo (fun l => lines l ∨ l = t.line) (.inr rfl) us
      exact hdo.take (fun w => cons_mem_of_do ht) (congrFun hgiven)
    · rename_i ht
      have hfor := foresees_parseFor (fun l => lines l ∨ l = t.line) (.inr rfl) us
      exact hfor.take (fun w => cons_mem_of_for ht) (congrFun hgiven)
    · rename_i ht
      have hprint := foresees_parsePrint (fun l => lines l ∨ l = t.line) t.line us
      exact hprint.take (fun w => cons_mem_of_print ht) (congrFun hgiven)
    · exact (foresees_parseExprs lines t.line (t :: us)).congr_first not_nil_mem_language
        (congrFun hgiven)
termination_by 3 * ts.length
decreasing_by all_goals simp only [List.length_cons]; omega

theorem foresees_parseBlock (lines : Nat → Prop) (line : Nat) (ts : List Token) :
    Foresees lines bodyLanguage (reading (parseBlock line)) ts := by
  rw [reading_parseBlock]
  exact (foresees_parseBody lines line ts).map
termination_by 3 * ts.length + 2
decreasing_by omega

/-- At each statement of a block, the block may also end. -/
theorem foresees_parseBody (lines : Nat → Prop) (line : Nat) (ts : List Token) :
    Foresees lines bodyLanguage (reading (parseBody line)) ts := by
  match ts with
  | [] => exact .blame_end (e := ⟨.unexpectedEnd, line⟩) trivial (reading_parseBody_nil line)
  | t :: us =>
    by_cases ht : t.kind = .symbol .rightBrace
    · refine .take (M := 1) (.of_pure _ rfl) ?_ (reading_parseBody_brace ht)
      rintro _ rfl
      exact ⟨[], ⟨[], .nil⟩, [t], ⟨t, ht, rfl⟩, rfl⟩
    · have hparse := foresees_parse lines (t :: us)
      have hseq := hparse.bind fun {s rest} hs =>
        have hlt := length_lt_of_reading hs
        (foresees_parseBody lines line rest).map (g := (s :: ·))
      refine (hseq.mono fun w => mem_bodyLanguage).congr fun us' hsame => ?_
      cases us' with
      | nil => cases hsame
      | cons t' us' =>
        have hk : t.kind = t'.kind := Option.some.inj hsame
        exact reading_parseBody_cons (hk ▸ ht) us'
termination_by 3 * ts.length + 1
decreasing_by all_goals simp only [List.length_cons] at *; omega

/-- After the first branch both ways to go on are open, with an `else` and without one. -/
theorem foresees_parseIf (lines : Nat → Prop) {line : Nat} (hline : lines line)
    (ts : List Token) : Foresees lines ifLanguage (reading (parseIf line)) ts := by
  rw [reading_parseIf]
  refine (Expr.foresees_parseParens hline ts).bind fun {condition rest} hc => ?_
  have hlt := length_lt_of_reading hc
  refine (foresees_parse lines rest).bind fun {thenBranch rest'} hthen => ?_
  have hlt' := length_lt_of_reading hthen
  refine .option fun t us z hrest hz => ?_
  have hlen : rest'.length = us.length + 1 := by rw [hrest, List.length_cons]
  obtain ⟨hk, hz⟩ := Option.ite_none_right_eq_some.mp hz
  cases hz
  exact ⟨hk, (foresees_parse _ us).map⟩
termination_by 3 * ts.length
decreasing_by all_goals omega

theorem foresees_parseWhile (lines : Nat → Prop) {line : Nat} (hline : lines line)
    (ts : List Token) : Foresees lines whileLanguage (reading (parseWhile line)) ts := by
  rw [reading_parseWhile]
  refine (Expr.foresees_parseParens hline ts).bind fun {condition rest} hc => ?_
  have hlt := length_lt_of_reading hc
  exact (foresees_parse lines rest).map
termination_by 3 * ts.length
decreasing_by omega

theorem foresees_parseDo (lines : Nat → Prop) {line : Nat} (hline : lines line)
    (ts : List Token) : Foresees lines doLanguage (reading (parseDo line)) ts := by
  rw [reading_parseDo]
  refine (foresees_parse lines ts).bind fun _ => ?_
  refine (foresees_expect _ line _).bind fun _ => ?_
  refine (Expr.foresees_parseParens hline _).bind fun _ => ?_
  exact (foresees_expect _ line _).map
termination_by 3 * ts.length + 1
decreasing_by omega

/-- The parenthesis that closes the head is missed on the line of the statement. -/
theorem foresees_parseFor (lines : Nat → Prop) {line : Nat} (hline : lines line)
    (ts : List Token) : Foresees lines forLanguage (reading (parseFor line)) ts := by
  rw [reading_parseFor]
  refine (foresees_expect _ line ts).bind fun {_ rest} hopen => ?_
  have hlt := length_lt_of_reading hopen
  refine (foresees_parse lines rest).bind fun {init rest'} hinit => ?_
  have hlt' := length_lt_of_reading hinit
  refine (Expr.foresees_parse lines rest').bind fun {condition rest''} hc => ?_
  have hlt'' := length_lt_of_reading hc
  refine (foresees_expect _ line rest'').bind fun {_ after} hsemi => ?_
  have hafter := length_lt_of_reading hsemi
  refine (Expr.foresees_parse lines after).bind fun {step after'} hstep => ?_
  have hafter' := length_lt_of_reading hstep
  refine (foresees_expectCloseParen hline after').bind fun {_ last} hclose => ?_
  have hlast := length_lt_of_reading hclose
  exact (foresees_parse lines last).map
termination_by 3 * ts.length
decreasing_by all_goals omega

end

end Stmt

/-! ## Programs -/

namespace Program

/-- A program may end after each of its statements, and may always go on. -/
theorem foresees_parseAll (lines : Nat → Prop) (ts : List Token) :
    Foresees lines Stmt.allLanguage (reading parseAll) ts := by
  match ts with
  | [] =>
    have hnil : [] ∈ Stmt.allLanguage := ⟨[], .nil⟩
    refine (Foresees.of_pure [] hnil).congr fun us hsame => ?_
    cases us with
    | nil => exact reading_parseAll_nil
    | cons t us => cases hsame
  | t :: us =>
    have hparse := Stmt.foresees_parse lines (t :: us)
    have hseq := hparse.bind fun {s rest} hs =>
      have hlt := length_lt_of_reading hs
      (foresees_parseAll lines rest).map (g := (s :: ·))
    refine (hseq.mono fun w => Stmt.mem_allLanguage).congr fun us' hsame => ?_
    cases us' with
    | nil => cases hsame
    | cons t' us' => exact reading_parseAll_cons t' us'
termination_by ts.length
decreasing_by simp only [List.length_cons] at *; omega

/-- Some tokens after the given ones make them a program. -/
def Begins (ts : List Token) : Prop := ∃ us p, (parseTokens (ts ++ us)).Yields p []

/-- Tokens that complete the statements also make a program: an `else` can be given to the nearest
`if` instead. -/
theorem begins_of_viable {ts : List Token} (h : Viable Stmt.allLanguage ts) : Begins ts := by
  obtain ⟨us, ss, hss⟩ := h
  obtain ⟨p, hp⟩ := Stmt.DerivesAll.exists_nearest hss
  exact ⟨us, p, yields_parseTokens_iff.mpr hp⟩

/-- A program fails as its statements do, but for the line of an error at the end. -/
theorem parseTokens_eq_fail_iff {ts rest : List Token} {e : SyntaxError} :
    parseTokens ts = .fail e rest ↔
      ∃ e', reading parseAll ts = (.error e', rest) ∧ e = blameEnd (lastLine ts) e' := by
  rw [parseTokens]
  constructor
  · intro h
    cases hp : parseAll ts with
    | ok p rest' hlt =>
      rw [hp] at h
      cases h
    | fail e' rest' =>
      rw [hp] at h
      cases h
      exact ⟨e', reading_eq_error_iff.mpr hp, rfl⟩
  · rintro ⟨e', he', rfl⟩
    rw [reading_eq_error_iff.mp he', Parsed.mapError]

/-- An error at a token keeps its line. -/
theorem blameEnd_of_showsAt {e : SyntaxError} {t : Token} (h : e.ShowsAt t) (line : Nat) :
    blameEnd line e = e := by
  refine if_neg fun hcause => ?_
  have hfalse := h.2
  rw [hcause] at hfalse
  exact hfalse

/-- The error is one of tokens that end too early: it carries the last line, or that of an open
parenthesis. -/
def EndsEarly (ts : List Token) (e : SyntaxError) : Prop :=
  (e.cause = .unexpectedEnd ∧ ∃ t, ts.getLast? = some t ∧ e.line = t.line) ∨
    e.cause = .unclosedParen ∧ ∃ t ∈ ts, t.line = e.line

/-- An error at the end is given the last line, unless it blames a parenthesis. -/
theorem endsEarly_blameEnd {ts : List Token} {e : SyntaxError} (hts : ts ≠ [])
    (h : e.ShowsAtEnd fun l => False ∨ ∃ t ∈ ts, t.line = l) :
    EndsEarly ts (blameEnd (lastLine ts) e) := by
  unfold SyntaxError.ShowsAtEnd at h
  split at h
  · rename_i hcause
    have hlast := List.getLast?_eq_some_getLast hts
    refine .inl ⟨by simp [blameEnd, hcause], ts.getLast hts, hlast, ?_⟩
    simp [blameEnd, hcause, lastLine, hlast]
  · rename_i hcause
    have heq : blameEnd (lastLine ts) e = e := if_neg (by simp [hcause])
    rw [heq]
    obtain ⟨t, ht, hl⟩ := h.resolve_left id
    exact .inr ⟨hcause, t, ht, hl⟩
  · exact h.elim

/-- A parse fails at the end of tokens that begin a program, or at a token that ends such a
beginning, whatever follows it. -/
theorem fail_cases {ts rest : List Token} {e : SyntaxError} (h : parseTokens ts = .fail e rest) :
    (rest = [] ∧ Begins ts ∧ EndsEarly ts e) ∨
      ∃ init t, ts = init ++ t :: rest ∧ e.ShowsAt t ∧ Begins init ∧
        ∀ us, parseTokens (init ++ t :: us) = .fail e us := by
  obtain ⟨e', he', rfl⟩ := parseTokens_eq_fail_iff.mp h
  have hts : ts ≠ [] := by
    rintro rfl
    rw [reading_parseAll_nil] at he'
    cases he'
  rcases (foresees_parseAll (fun _ => False) ts).error he' with
    ⟨hrest, hend, hviable⟩ | ⟨init, t, hinit, hat, hviable, hlocal⟩
  · exact .inl ⟨hrest, begins_of_viable hviable, endsEarly_blameEnd hts hend⟩
  · rw [blameEnd_of_showsAt hat]
    refine .inr ⟨init, t, hinit, hat, begins_of_viable hviable, fun us => ?_⟩
    exact parseTokens_eq_fail_iff.mpr ⟨e', hlocal us, (blameEnd_of_showsAt hat _).symm⟩

/-- The last of the tokens is the first wrong one: those before it begin a program, and with it
they fail in the same way whatever follows. -/
def WrongAtLast (ts : List Token) (e : SyntaxError) : Prop :=
  ts ≠ [] ∧ Begins ts.dropLast ∧ ∀ us, parseTokens (ts ++ us) = .fail e us

/-- Where a parse fails with the tokens `rest` not taken, the tokens end too early if it says so,
and could have gone on; or the last token taken is the first wrong one. A missing parenthesis can be
either. So what is left of a program when its end is cut off fails, if it fails, for lack of more
tokens only. -/
theorem errors_show_as_early_as_possible (ts : List Token) :
    (∀ e rest, parseTokens ts = .fail e rest →
      ∃ used, ts = used ++ rest ∧
        match e.cause with
        | .unexpectedEnd =>
          rest = [] ∧ Begins ts ∧ ∃ t, ts.getLast? = some t ∧ e.line = t.line
        | .unexpected _ | .expected _ _ | .literalTooLarge => WrongAtLast used e
        | .unclosedParen => rest = [] ∧ Begins ts ∨ WrongAtLast used e
        | .unrecognised _ => False) ∧
      ∀ us p, (parseTokens (ts ++ us)).Yields p [] → ∀ e rest, parseTokens ts = .fail e rest →
        e.cause = .unexpectedEnd ∨ e.cause = .unclosedParen := by
  constructor
  · intro e rest h
    rcases fail_cases h with ⟨rfl, hbegins, hearly⟩ | ⟨init, t, rfl, hat, hbegins, hlocal⟩
    · refine ⟨ts, by simp, ?_⟩
      rcases hearly with ⟨hcause, hline⟩ | ⟨hcause, -⟩ <;> rw [hcause]
      · exact ⟨rfl, hbegins, hline⟩
      · exact .inl ⟨rfl, hbegins⟩
    · refine ⟨init ++ [t], by simp, ?_⟩
      have hwrong : WrongAtLast (init ++ [t]) e := by
        refine ⟨by simp, by simpa using hbegins, fun us => ?_⟩
        rw [List.append_assoc]
        exact hlocal us
      have hcause := hat.2
      cases hc : e.cause <;> rw [hc] at hcause
      case unrecognised => exact hcause
      case unexpectedEnd => exact hcause.elim
      case unclosedParen => exact .inr hwrong
      all_goals exact hwrong
  · intro us p hp e rest h
    rcases fail_cases h with ⟨-, -, hearly⟩ | ⟨init, t, rfl, -, -, hlocal⟩
    · exact hearly.imp And.left And.left
    · have hfail := hlocal (rest ++ us)
      rw [← List.cons_append, ← List.append_assoc] at hfail
      rw [hfail] at hp
      exact (Parsed.yields_fail hp).elim

/-- Within parentheses in a block. The brace that closes the block is the first wrong token; without
it, the tokens only end too early. -/
theorem errors_show_as_early_as_possible_in_block :
    let ts : List Token := [⟨.symbol .leftBrace, 1⟩, ⟨.identifier "x", 1⟩,
      ⟨.symbol (.binary .assign), 1⟩, ⟨.symbol .leftParen, 1⟩, ⟨.integer 1, 2⟩,
      ⟨.symbol (.binary (.arith .add)), 2⟩]
    let brace : Token := ⟨.symbol .rightBrace, 3⟩
    let wrong : SyntaxError := ⟨.unexpected (.symbol .rightBrace), 3⟩
    let early : SyntaxError := ⟨.unexpectedEnd, 2⟩
    let us : List Token :=
      [⟨.integer 2, 2⟩, ⟨.symbol .rightParen, 2⟩, ⟨.symbol .semicolon, 2⟩, brace]
    let p : Program := [.block [.exprs [.binary (.var "x" 1) .assign
      (.binary (.num 1 2) (.arith .add) (.num 2 2) 2) 1] 1] 1]
    (parseTokens (ts ++ [brace]) = .fail wrong [] ∧ WrongAtLast (ts ++ [brace]) wrong) ∧
      (parseTokens (ts ++ us)).Yields p [] ∧ parseTokens ts = .fail early [] ∧
        (early.cause = .unexpectedEnd ∨ early.cause = .unclosedParen) := by
  intro ts brace wrong early us p
  have hwrong : parseTokens (ts ++ [brace]) = .fail wrong [] := by cbv
  have hwhole : (parseTokens (ts ++ us)).Yields p [] := ⟨Nat.zero_lt_succ _, by cbv⟩
  have hearly : parseTokens ts = .fail early [] := by cbv
  refine ⟨⟨hwrong, ?_⟩, hwhole, hearly, ?_⟩
  · obtain ⟨used, hused, hlast⟩ := (errors_show_as_early_as_possible _).1 wrong [] hwrong
    rw [hused, List.append_nil]
    exact hlast
  · exact (errors_show_as_early_as_possible ts).2 us p hwhole early [] hearly

end Program

end Imp32
