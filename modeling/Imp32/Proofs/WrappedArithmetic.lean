import Mathlib.Algebra.MvPolynomial.Eval
import Mathlib.Data.Int.ModEq
import Imp32.Proofs.VisibleValues

/-!
# Arithmetic modulo words

Sums, differences, products, negatives and complements are computed in words, and each of them may
wrap. What comes out in the end is still the integer that an expression denotes, modulo `2 ^ 32`
(`arithmetic_wraps_exactly`): taking an integer to the word that it is congruent to respects each of
the operators, so it does not matter at which of them it is done.

An expression of these operators alone is a polynomial in its variables with integer coefficients.
It has a value in every commutative ring (`Expr.valueIn`), and the values in two rings are carried
over by each homomorphism between them.
-/

namespace Imp32

/-! ## Words as residues -/

/-- A word is that of an integer exactly if it is congruent to the integer. -/
theorem Value.modEq_iff_eq_ofInt {v : Value} {n : ℤ} :
    v.toInt ≡ n [ZMOD 2 ^ 32] ↔ v = Int32.ofInt n := by
  rw [← Int32.toInt_inj, Int32.toInt_ofInt]
  constructor
  · intro h
    have hmod : v.toInt % (2 ^ 32 : Nat) = n % (2 ^ 32 : Nat) := h
    calc v.toInt
        = v.toInt.bmod (2 ^ 32) := (Int32.toInt_bmod v).symm
      _ = (v.toInt % (2 ^ 32 : Nat)).bmod (2 ^ 32) := (Int.emod_bmod _ _).symm
      _ = (n % (2 ^ 32 : Nat)).bmod (2 ^ 32) := by rw [hmod]
      _ = n.bmod (2 ^ 32) := Int.emod_bmod _ _
  · intro h
    rw [h]
    exact Int.bmod_emod

/-! ## Polynomials -/

namespace Expr

/-- Whether the expression is made of literals and variables by sums, differences, products,
negatives and complements alone. -/
def isPolynomial : Expr → Bool
  | .num _ _ | .var _ _ => true
  | .unary .negate operand _ | .unary .complement operand _ => operand.isPolynomial
  | .binary left (.arith .add) right _ | .binary left (.arith .sub) right _
  | .binary left (.arith .mul) right _ => left.isPolynomial && right.isPolynomial
  | _ => false

section Ring

variable {R S : Type} [CommRing R] [CommRing S]

/-- The value of a polynomial in a ring, with the given values of its variables. An expression that
is no polynomial has no value, for which zero stands. -/
def valueIn (ρ : String → R) : Expr → R
  | .num value _ => (value.toInt : R)
  | .var name _ => ρ name
  | .unary .negate operand _ => -operand.valueIn ρ
  | .unary .complement operand _ => -operand.valueIn ρ - 1
  | .binary left (.arith .add) right _ => left.valueIn ρ + right.valueIn ρ
  | .binary left (.arith .sub) right _ => left.valueIn ρ - right.valueIn ρ
  | .binary left (.arith .mul) right _ => left.valueIn ρ * right.valueIn ρ
  | _ => 0

/-- Homomorphisms carry values over. -/
theorem map_valueIn (f : R →+* S) (ρ : String → R) {e : Expr} (h : e.isPolynomial = true) :
    f (e.valueIn ρ) = e.valueIn fun x => f (ρ x) := by
  fun_induction isPolynomial e with
  | case1 value line => exact map_intCast f value.toInt
  | case2 name line => rfl
  | case3 operand line ih => rw [valueIn, map_neg, ih h, valueIn]
  | case4 operand line ih => rw [valueIn, map_sub, map_neg, map_one, ih h, valueIn]
  | case5 left right line ihl ihr | case6 left right line ihl ihr
  | case7 left right line ihl ihr =>
    rw [Bool.and_eq_true] at h
    simp only [valueIn, map_add, map_sub, map_mul, ihl h.1, ihr h.2]
  | case8 => cases h

end Ring

/-- The polynomial that an expression is. -/
noncomputable def polynomial (e : Expr) : MvPolynomial String ℤ := e.valueIn MvPolynomial.X

theorem eval_polynomial (ρ : String → ℤ) {e : Expr} (h : e.isPolynomial = true) :
    MvPolynomial.eval ρ e.polynomial = e.valueIn ρ := by
  rw [polynomial, map_valueIn _ _ h]
  congr 1
  funext x
  exact MvPolynomial.eval_X x

/-! ## Evaluation -/

/-- The environment gives each variable of the expression the value that `ρ` gives it. -/
def BoundBy (e : Expr) (ρ : String → Value) (env : Env) : Prop :=
  ∀ x ∈ e.names, env.get? x = some (ρ x)

section Bound

variable {ρ : String → Value} {env : Env}

theorem BoundBy.operand {op : UnaryOp} {operand : Expr} {line : Nat}
    (h : (unary op operand line).BoundBy ρ env) : operand.BoundBy ρ env := by
  rintro x ⟨l, hmem⟩
  exact h x ⟨l, List.mem_cons_of_mem _ hmem⟩

theorem BoundBy.left {op : BinaryOp} {l r : Expr} {line : Nat}
    (h : (binary l op r line).BoundBy ρ env) : l.BoundBy ρ env := by
  rintro x ⟨k, hmem⟩
  exact h x ⟨k, List.mem_cons_of_mem _ (List.mem_append_left _ hmem)⟩

theorem BoundBy.right {op : BinaryOp} {l r : Expr} {line : Nat}
    (h : (binary l op r line).BoundBy ρ env) : r.BoundBy ρ env := by
  rintro x ⟨k, hmem⟩
  exact h x ⟨k, List.mem_cons_of_mem _ (List.mem_append_right _ hmem)⟩

theorem eval_unary_of_eval {op : UnaryOp} {e : Expr} {line : Nat} {a v : Value}
    (h : e.eval env = (.ok a, env)) (happly : op.apply line a = .ok v) :
    (unary op e line).eval env = (.ok v, env) := by
  cases op with
  | complement | negate =>
    refine Eval.bind_eq_ok_iff.mpr ⟨a, env, h, ?_⟩
    exact Prod.ext happly rfl
  | decrement | increment => cases happly

theorem eval_arith_of_eval {op : ArithOp} {l r : Expr} {line : Nat} {a b v : Value}
    (hl : l.eval env = (.ok a, env)) (hr : r.eval env = (.ok b, env))
    (happly : op.apply line a b = .ok v) : (binary l (.arith op) r line).eval env = (.ok v, env) :=
  (eval_binary_eq_ok_iff rfl).mpr ⟨a, b, ⟨env, hr, hl⟩, happly⟩

/-- A polynomial evaluates to the word of its value in the integers. -/
theorem eval_eq_ofInt {e : Expr} (h : e.isPolynomial = true) (hbound : e.BoundBy ρ env) :
    e.eval env = (.ok (Int32.ofInt (e.valueIn fun x => (ρ x).toInt)), env) := by
  fun_induction isPolynomial e with
  | case1 value line =>
    rw [valueIn, Int.cast_id, Int32.ofInt_toInt]
    rfl
  | case2 name line =>
    have hname : env.get? name = some (ρ name) := hbound name ⟨line, List.mem_cons_self⟩
    rw [valueIn, Int32.ofInt_toInt]
    refine Prod.ext ?_ rfl
    change env.lookup name line = .ok (ρ name)
    rw [Env.lookup, hname]
  | case3 operand line ih =>
    rw [valueIn, Int32.ofInt_neg]
    exact eval_unary_of_eval (ih h hbound.operand) rfl
  | case4 operand line ih =>
    refine eval_unary_of_eval (ih h hbound.operand) ?_
    -- The complement of a word is one less than its negative, also where that wraps.
    rw [valueIn, Int32.ofInt_sub, Int32.ofInt_neg, UnaryOp.apply, Int32.not_eq_neg_sub]
    rfl
  | case5 left right line ihl ihr | case6 left right line ihl ihr
  | case7 left right line ihl ihr =>
    rw [Bool.and_eq_true] at h
    simp only [valueIn, Int32.ofInt_add, Int32.ofInt_sub, Int32.ofInt_mul]
    exact eval_arith_of_eval (ihl h.1 hbound.left) (ihr h.2 hbound.right) rfl
  | case8 => cases h

end Bound

end Expr

/-- In an environment that binds its variables, an expression of literals, variables, sums,
differences, products, negatives and complements has a value and changes nothing. The value is the
one word that is congruent modulo `2 ^ 32` to what the expression denotes in the integers. Hence two
expressions that are the same polynomial evaluate alike. -/
theorem arithmetic_wraps_exactly (ρ : String → Value) (env : Env) :
    (∀ e : Expr, e.isPolynomial = true → (∀ x ∈ e.names, env.get? x = some (ρ x)) →
      ∃ v, e.eval env = (.ok v, env) ∧
        ∀ w : Value, w.toInt ≡ e.valueIn (fun x => (ρ x).toInt) [ZMOD 2 ^ 32] ↔ w = v) ∧
    ∀ e e' : Expr, e.isPolynomial = true → e'.isPolynomial = true →
      e.polynomial = e'.polynomial → (∀ x ∈ e.names ∪ e'.names, env.get? x = some (ρ x)) →
      e.eval env = e'.eval env := by
  refine ⟨fun e he hbound => ⟨_, Expr.eval_eq_ofInt he hbound, fun w => ?_⟩, ?_⟩
  · exact Value.modEq_iff_eq_ofInt
  · intro e e' he he' hsame hbound
    rw [Expr.eval_eq_ofInt he fun x hx => hbound x (.inl hx),
      Expr.eval_eq_ofInt he' fun x hx => hbound x (.inr hx), ← Expr.eval_polynomial _ he,
      ← Expr.eval_polynomial _ he', hsame]

/-- `(x + 1) * (x - 1)` and `~(-x * x)` at the least word, where `x - 1`, `-x` and both products
wrap. -/
theorem arithmetic_wraps_exactly_least_word :
    let x : Expr := .var "x" 1
    let e : Expr := .binary (.binary x (.arith .add) (.num 1 1) 1) (.arith .mul)
      (.binary x (.arith .sub) (.num 1 1) 1) 1
    let e' : Expr := .unary .complement (.binary (.unary .negate x 1) (.arith .mul) x 1) 1
    let env : Env := { inner := (∅ : Frame).insert "x" (-2147483648) }
    e.polynomial = e'.polynomial ∧ e.eval env = (.ok (-1), env) ∧ e'.eval env = (.ok (-1), env) ∧
      ∀ w : Value, w.toInt ≡ 2 ^ 62 - 1 [ZMOD 2 ^ 32] ↔ w = -1 := by
  intro x e e' env
  have hsame : e.polynomial = e'.polynomial := by
    have hone : (1 : Value).toInt = 1 := rfl
    simp only [e, e', x, Expr.polynomial, Expr.valueIn, hone, Int.cast_one]
    ring
  have hbound : ∀ y ∈ e.names ∪ e'.names, env.get? y = some (-2147483648) := by
    rintro y (⟨line, hmem⟩ | ⟨line, hmem⟩) <;>
      obtain ⟨rfl, -⟩ : y = "x" ∧ line = 1 := by simpa [e, e', x, Expr.nodes] using hmem
    all_goals rfl
  obtain ⟨hvalue, heval⟩ := arithmetic_wraps_exactly (fun _ => -2147483648) env
  obtain ⟨v, hv, hw⟩ := hvalue e rfl fun y hy => hbound y (.inl hy)
  have hminus : e.eval env = (.ok (-1), env) := rfl
  obtain rfl : v = -1 := by
    rw [hminus] at hv
    cases hv
    rfl
  have hinteger : e.valueIn (fun _ => (-2147483648 : Value).toInt) = 2 ^ 62 - 1 := by decide
  rw [hinteger] at hw
  exact ⟨hsame, hv, (heval e e' rfl rfl hsame hbound).symm.trans hv, hw⟩

end Imp32
