import Imp32.Proofs.Lookahead
import Mathlib.Order.Interval.Set.Defs

/-!
# Precedence

The rules for expressions from the tightest to the loosest: a rule takes what the rule below it
takes and goes on as long as one of its own operators follows. The main statement is about all of
them at once (`Expr.rules_are_greedy_and_coherent`). A rule stops only before a token that is no
operator of it or of a tighter rule. A looser rule does the same as a tighter one wherever that one
fails, and wherever it stops before a token that is no operator of the rules in between.
-/

namespace Imp32

open Token.Kind Reading

/-! ## The rules and their operators -/

namespace Expr.Rule

/-- A rule is below another one if it binds more tightly. -/
instance : Preorder Rule := Preorder.lift looseness

theorem lt_iff {r s : Rule} : r < s ↔ r.looseness < s.looseness := Iff.rfl

theorem le_iff {r s : Rule} : r ≤ s ↔ r.looseness ≤ s.looseness := Iff.rfl

/-- The operators that a rule puts between its operands. -/
def operators : Rule → List BinaryOp
  | .assignment => [.assign, .compound .add, .compound .sub, .compound .mul, .compound .div,
      .compound .and, .compound .or, .compound .xor]
  | .level l => l.operators
  | .unary | .primary => []

end Expr.Rule

namespace Token.Kind

/-- The token is an operator of the rule. -/
def IsOperatorOf (r : Expr.Rule) (k : Token.Kind) : Prop :=
  ∃ op ∈ r.operators, k = .symbol (.binary op)

instance (r : Expr.Rule) (k : Token.Kind) : Decidable (IsOperatorOf r k) :=
  inferInstanceAs (Decidable (∃ op ∈ r.operators, k = .symbol (.binary op)))

variable {k : Token.Kind}

theorem IsOperatorOf.isBinary {r : Expr.Rule} (h : IsOperatorOf r k) : IsBinary k := by
  obtain ⟨op, -, hop⟩ := h
  exact ⟨op, hop⟩

theorem isOperatorOf_level_iff {l : Level} : IsOperatorOf (.level l) k ↔ Joins l.height k := by
  constructor
  · rintro ⟨op, hop, rfl⟩
    exact joins_symbol.mpr (Level.mem_operators_iff.mp hop)
  · intro h
    obtain ⟨op, hop, hheight⟩ := Option.bind_eq_some_iff.mp h
    exact ⟨op, Level.mem_operators_iff.mpr hheight, binaryOp?_eq_some_iff.mp hop⟩

theorem isOperatorOf_assignment_iff : IsOperatorOf .assignment k ↔ Assigns k := by
  constructor
  · rintro ⟨op, hop, rfl⟩
    rw [assigns_symbol]
    revert op
    decide
  · intro h
    obtain ⟨op, hop, hassigns⟩ := Option.map_eq_some_iff.mp h
    refine ⟨op, ?_, binaryOp?_eq_some_iff.mp hop⟩
    cases op with
    | assign => decide
    | compound op => cases op <;> decide
    | arith op => cases hassigns
    | compare op => cases hassigns
    | logic op => cases hassigns

/-- Only the operators of a level have a height. -/
theorem Joins.exists_level {height : Nat} (h : Joins height k) :
    ∃ l : Level, l.height = height := by
  obtain ⟨op, -, hheight⟩ := Option.bind_eq_some_iff.mp h
  obtain ⟨l, -, hl⟩ := Option.map_eq_some_iff.mp hheight
  exact ⟨l, hl⟩

/-- Every binary operator has a height or assigns. -/
theorem IsBinary.joinsUpTo_or_assigns (h : IsBinary k) : JoinsUpTo 9 k ∨ Assigns k := by
  obtain ⟨op, rfl⟩ := h
  cases hassigns : op.assigns with
  | true => exact .inr (assigns_symbol.mpr hassigns)
  | false =>
    obtain ⟨l, hheight⟩ := op.exists_height?_of_not_assigns hassigns
    exact .inl ⟨l.height, l.height_le_nine, joins_symbol.mpr hheight⟩

theorem notNext_joinsUpTo_zero (ts : List Token) : NotNext (JoinsUpTo 0) ts := by
  rintro t - ⟨j, hj, hjoins⟩
  obtain ⟨l, hl⟩ := hjoins.exists_level
  obtain ⟨k, hk⟩ := l.height_pos
  omega

end Token.Kind

namespace Expr

/-! ## Where a rule stops -/

/-- A chain stops where no operator of its height follows, if its operands stop where no operator of
a smaller height does. -/
theorem notNext_of_parseChain {k : Nat}
    (hoperand : ∀ {ts e rest}, (parseOperand k ts).Yields e rest → NotNext (JoinsUpTo k) rest)
    {left e : Expr} {ts rest : List Token} {n : Nat} {hn : ts.length < n}
    (hts : NotNext (JoinsUpTo k) ts) (h : (parseChain k left ts hn).Yields e rest) :
    NotNext (JoinsUpTo (k + 1)) rest := by
  rcases yields_parseChain.mp h with
    ⟨rfl, rfl, hstop⟩ | ⟨t, us, op, right, mid, hcons, -, -, hright, hchain⟩
  · exact notNext_joinsUpTo_succ.mpr ⟨hts, hstop⟩
  · have hlen : ts.length = us.length + 1 := by rw [hcons, List.length_cons]
    have hlt := hright.length_lt
    -- the chain goes on from where its last operand has stopped
    exact notNext_of_parseChain hoperand (hoperand hright) hchain
termination_by ts.length
decreasing_by omega

theorem notNext_of_parseOperand {k : Nat} {ts rest : List Token} {e : Expr}
    (h : (parseOperand k ts).Yields e rest) : NotNext (JoinsUpTo k) rest := by
  induction k generalizing ts rest e with
  | zero => exact notNext_joinsUpTo_zero rest
  | succ k ih =>
    obtain ⟨left, mid, hleft, hchain⟩ := yields_parseOperand_succ.mp h
    exact notNext_of_parseChain ih (ih hleft) hchain

theorem notNext_of_parse {ts rest : List Token} {e : Expr} (h : (parse ts).Yields e rest) :
    NotNext IsBinary rest := by
  obtain ⟨left, mid, hleft, hmid⟩ := yields_parse.mp h
  have hlt := hleft.length_lt
  rcases hmid with ⟨rfl, rfl, hstop⟩ | ⟨t, us, op, right, hcons, -, -, hright, -⟩
  · intro t ht hbinary
    rcases hbinary.joinsUpTo_or_assigns with hjoins | hassigns
    · exact notNext_of_parseOperand hleft t ht hjoins
    · exact hstop t ht hassigns
  · have hlen : mid.length = us.length + 1 := by rw [hcons, List.length_cons]
    exact notNext_of_parse hright
termination_by ts.length
decreasing_by omega

/-! ## Looser rules -/

theorem readingChain_of_notNext {k : Nat} {ts : List Token} (hnext : NotNext (Joins (k + 1)) ts)
    (left : Expr) : readingChain k left ts = (.ok left, ts) := by
  rw [readingChain_eq]
  refine ifNext_other fun t ht => ?_
  rw [Option.map_eq_none_iff, Option.filter_eq_none_iff]
  intro op hop hheight
  exact hnext t ht (Option.bind_eq_some_iff.mpr ⟨op, hop, of_decide_eq_true hheight⟩)

/-- A greater height makes no difference to an error, nor to a success before a token that is no
operator of the heights in between. -/
theorem reading_parseOperand_of_le {j k : Nat} (hjk : j ≤ k) {ts rest : List Token}
    {res : Except SyntaxError Expr} (h : reading (parseOperand j) ts = (res, rest))
    (hstop : ∀ e, res = .ok e → ∀ i ∈ Set.Ioc j k, NotNext (Joins i) rest) :
    reading (parseOperand k) ts = (res, rest) := by
  induction k, hjk using Nat.le_induction with
  | base => exact h
  | succ k hjk ih =>
    have hoperand : reading (parseOperand k) ts = (res, rest) :=
      ih fun e he i hi => hstop e he i ⟨hi.1, Nat.le_succ_of_le hi.2⟩
    rw [reading_parseOperand_succ, bind_apply, hoperand]
    cases res with
    | error error => rfl
    | ok left =>
      have hnext := hstop left rfl (k + 1) ⟨Nat.lt_succ_of_le hjk, Nat.le_refl _⟩
      exact readingChain_of_notNext hnext left

theorem reading_parse_of_operand {ts rest : List Token} {res : Except SyntaxError Expr}
    (h : reading (parseOperand 9) ts = (res, rest))
    (hstop : ∀ e, res = .ok e → NotNext Assigns rest) : reading parse ts = (res, rest) := by
  rw [reading_parse, bind_apply, h]
  cases res with
  | error error => rfl
  | ok left =>
    refine ifNext_other fun t ht => ?_
    rw [Option.map_eq_none_iff, Option.filter_eq_none_iff]
    intro op hop hassigns
    exact hstop left rfl t ht (Option.map_eq_some_iff.mpr ⟨op, hop, hassigns⟩)

namespace Rule

variable {r r' : Rule} {ts rest : List Token}

/-- The rules from the unary one on are those that parse operands of a height, and assignments. -/
theorem eq_assignment_or_operand (hr : .unary ≤ r) : r = .assignment ∨
    ∃ k ≤ 9, r.looseness = k + 1 ∧ reading r.parser = reading (parseOperand k) := by
  cases r with
  | assignment => exact .inl rfl
  | level l => exact .inr ⟨l.height, l.height_le_nine, rfl, rfl⟩
  | unary => exact .inr ⟨0, Nat.zero_le 9, rfl, reading_parseOperand_zero.symm⟩
  | primary => exact absurd hr (by decide)

/-- Where no operator of the rules in between follows, none of the heights in between does. -/
theorem notNext_joins_of_Ioc {j k : Nat} (hr : r.looseness = j + 1) (hr' : k < r'.looseness)
    (h : ∀ s ∈ Set.Ioc r r', NotNext (IsOperatorOf s) rest) :
    ∀ i ∈ Set.Ioc j k, NotNext (Joins i) rest := by
  rintro i ⟨hji, hik⟩ t ht hjoins
  obtain ⟨l, rfl⟩ := hjoins.exists_level
  have hbetween : .level l ∈ Set.Ioc r r' := by
    constructor
    · rw [lt_iff, hr]
      exact Nat.succ_lt_succ hji
    · rw [le_iff]
      exact Nat.succ_le_of_lt (Nat.lt_of_le_of_lt hik hr')
  exact h (.level l) hbetween t ht (isOperatorOf_level_iff.mpr hjoins)

/-- The operators of the rules up to a height. -/
theorem joinsUpTo_of_isOperatorOf {k : Nat} (hk : k ≤ 9) (hr : r.looseness ≤ k + 1)
    {kind : Token.Kind} (h : IsOperatorOf r kind) : JoinsUpTo k kind := by
  cases r with
  | assignment =>
    rw [looseness] at hr
    omega
  | level l => exact ⟨l.height, Nat.le_of_succ_le_succ hr, isOperatorOf_level_iff.mp h⟩
  | unary =>
    obtain ⟨op, hop, -⟩ := h
    cases hop
  | primary =>
    obtain ⟨op, hop, -⟩ := h
    cases hop

/-- A rule stops where none of its operators follows, and none of a tighter rule. -/
theorem notNext_of_yields (hr : .unary ≤ r) {e : Expr} (h : (r.parser ts).Yields e rest)
    {s : Rule} (hs : s ≤ r) : NotNext (IsOperatorOf s) rest := by
  intro t ht hop
  rcases eq_assignment_or_operand hr with rfl | ⟨k, hk, hkr, hreading⟩
  · exact notNext_of_parse h t ht hop.isBinary
  · have hoperand : reading (parseOperand k) ts = (.ok e, rest) :=
      hreading ▸ reading_eq_ok_iff.mpr h
    have hstop := notNext_of_parseOperand (reading_eq_ok_iff.mp hoperand)
    rw [le_iff, hkr] at hs
    exact hstop t ht (joinsUpTo_of_isOperatorOf hk hs hop)

/-- A looser rule makes no difference to an error, nor to a success before a token that is no
operator of the rules in between. -/
theorem reading_parser_of_le (hr : .unary ≤ r) (hle : r ≤ r') {res : Except SyntaxError Expr}
    (h : reading r.parser ts = (res, rest))
    (hstop : ∀ e, res = .ok e → ∀ s ∈ Set.Ioc r r', NotNext (IsOperatorOf s) rest) :
    reading r'.parser ts = (res, rest) := by
  rw [le_iff] at hle
  rcases eq_assignment_or_operand (hr.trans hle) with rfl | ⟨k, hk, hkr, hreading'⟩
  · rcases eq_assignment_or_operand hr with rfl | ⟨j, hj, hjr, hreading⟩
    · exact h
    -- below assignments all levels are passed first, up to the loosest one
    · have hdisjunction : reading (parseOperand 9) ts = (res, rest) :=
        reading_parseOperand_of_le hj (hreading ▸ h) fun e he =>
          notNext_joins_of_Ioc hjr (by decide) (hstop e he)
      refine reading_parse_of_operand hdisjunction fun e he t ht hassigns => ?_
      have hbetween : .assignment ∈ Set.Ioc r .assignment := by
        refine ⟨?_, le_rfl⟩
        rw [lt_iff, hjr, looseness]
        omega
      exact hstop e he .assignment hbetween t ht (isOperatorOf_assignment_iff.mpr hassigns)
  · rcases eq_assignment_or_operand hr with rfl | ⟨j, hj, hjr, hreading⟩
    · rw [hkr, looseness] at hle
      omega
    · rw [hreading']
      exact reading_parseOperand_of_le (by omega) (hreading ▸ h) fun e he =>
        notNext_joins_of_Ioc hjr (by omega) (hstop e he)

end Rule

/-- For assignments, each of the levels and the unary rule below them. Where the rule succeeds, none
of its operators follows and none of a tighter rule; after an expression, no binary operator at all.
A looser rule takes the same, unless an operator of a rule above the first one and up to the looser
one follows. Where the rule fails, every looser one fails with the same error and leaves the same
tokens. -/
theorem rules_are_greedy_and_coherent {r : Rule} (hr : .unary ≤ r) (ts : List Token) :
    (∀ e rest, (r.parser ts).Yields e rest →
      (∀ s ≤ r, NotNext (IsOperatorOf s) rest) ∧
      (r = .assignment → NotNext IsBinary rest) ∧
      ∀ r' > r, (∀ s ∈ Set.Ioc r r', NotNext (IsOperatorOf s) rest) →
        (r'.parser ts).Yields e rest) ∧
    ∀ error rest, r.parser ts = .fail error rest → ∀ r' > r, r'.parser ts = .fail error rest := by
  constructor
  · intro e rest h
    refine ⟨fun s hs => Rule.notNext_of_yields hr h hs, ?_, ?_⟩
    · rintro rfl
      exact notNext_of_parse h
    · intro r' hlt hstop
      have hreading := reading_eq_ok_iff.mpr h
      have hlooser := Rule.reading_parser_of_le hr hlt.le hreading fun _ _ => hstop
      exact reading_eq_ok_iff.mp hlooser
  · intro error rest h r' hlt
    have hreading := reading_eq_error_iff.mpr h
    have hlooser := Rule.reading_parser_of_le hr hlt.le hreading nofun
    exact reading_eq_error_iff.mp hlooser

/-- A difference before an equality, which the next looser level does not take either, and a product
without its right factor. -/
theorem rules_are_greedy_and_coherent_before_equality :
    let x : Token := ⟨.identifier "x", 1⟩
    let minus : Token := ⟨.symbol .minus, 1⟩
    let times : Token := ⟨.symbol (.binary (.arith .mul)), 1⟩
    let semicolon : Token := ⟨.symbol .semicolon, 2⟩
    let rest : List Token := [⟨.symbol (.binary (.compare .eq)), 2⟩, x]
    let product : Expr := .binary (.var "x" 1) (.arith .mul) (.var "x" 1) 1
    let difference : Expr := .binary (.var "x" 1) (.arith .sub) product 1
    let wrong : SyntaxError := ⟨.unexpected (.symbol .semicolon), 2⟩
    ((parseLevel .sum ([x, minus, x, times, x] ++ rest)).Yields difference rest ∧
      NotNext (IsOperatorOf (.level .product)) rest ∧
      (parseLevel .order ([x, minus, x, times, x] ++ rest)).Yields difference rest) ∧
    parseLevel .product [x, times, semicolon, x] = .fail wrong [x] ∧
      parse [x, times, semicolon, x] = .fail wrong [x] := by
  intro x minus times semicolon rest product difference wrong
  have hsum : (parseLevel .sum ([x, minus, x, times, x] ++ rest)).Yields difference rest :=
    ⟨by decide, by cbv⟩
  have hcut : parseLevel .product [x, times, semicolon, x] = .fail wrong [x] := by cbv
  have hbetween : ∀ s ∈ Set.Ioc (Rule.level .sum) (.level .order),
      NotNext (IsOperatorOf s) rest := by
    rintro s ⟨hlt, hle⟩
    cases s with
    | level l =>
      cases l with
      | order => exact notNext_cons.mpr (by decide)
      | product | sum => exact absurd hlt (by decide)
      | _ => exact absurd hle (by decide)
    | assignment => exact absurd hle (by decide)
    | unary => exact absurd hlt (by decide)
    | primary => exact absurd hlt (by decide)
  obtain ⟨hgreedy, -, hcoherent⟩ :=
    (rules_are_greedy_and_coherent (r := .level .sum) (by decide) _).1 difference rest hsum
  refine ⟨⟨hsum, hgreedy (.level .product) (by decide), ?_⟩, hcut, ?_⟩
  · exact hcoherent (.level .order) (by decide) hbetween
  · exact (rules_are_greedy_and_coherent (r := .level .product) (by decide) _).2 wrong [x] hcut
      .assignment (by decide)

end Expr

end Imp32
