import Imp32.Proofs.LoopLaws
import Imp32.Proofs.WrittenNames

/-!
# Counting loops

The loop `for (i = a; i < b; i += 1) body` runs its body `b - a` times, if the body leaves the
counter alone and each of its runs ends well (`CountingLoop.rounds_are_exact`).

A loop is first told round by round (`ForLoop.Tested`), and ends well exactly if its condition fails
after some number of rounds (`ForLoop.ends_iff`). The rounds of a counting loop then have an
invariant: the counter has grown by the number of rounds, and it still stands in the frame where the
first assignment put it (`Counts`). The body cannot change that, by `Stmt.bindings_exec`. Since the
counter is below the bound whenever it is stepped, it never leaves the range of a word.
-/

namespace Imp32

open Exec

/-! ## Rounds -/

/-- Leaving a scope does not make good a fault. -/
theorem Machine.eq_ok_of_leave {α : Type} {m m' : Machine} {r : Except Fault α} {a : α}
    (h : m.leave r = (.ok a, m')) : r = .ok a := by
  unfold leave at h
  split at h
  · cases h
    rfl
  · split at h <;> cases h

/-- The parts of a loop with a first part and a step. -/
structure ForLoop where
  /-- Runs once, before the first test. -/
  init : Stmt
  /-- Tested before each round. -/
  condition : Expr
  /-- Evaluated after the body of each round. -/
  step : Expr
  /-- The body. -/
  body : Stmt

namespace ForLoop

/-- The loop as a statement. -/
def stmt (loop : ForLoop) (line : Nat) : Stmt :=
  .forDo loop.init loop.condition loop.step loop.body line

/-- The loop, entered in a state, comes to its test in another state after a number of rounds. -/
inductive Tested (loop : ForLoop) (m : Machine) : Nat → Machine → Prop
  | first {k : Machine} (hinit : loop.init.Ends m.enter (.ok ()) k) : Tested loop m 0 k
  | again {n : Nat} {k k₁ k₂ k₃ : Machine} (htested : Tested loop m n k)
      (htest : test loop.condition k = some (.ok true, k₁))
      (hbody : loop.body.Ends k₁ (.ok ()) k₂)
      (hstep : perform loop.step k₂ = some (.ok (), k₃)) : Tested loop m (n + 1) k₃

/-- The loop, entered in a state, starts its body in another state after a number of rounds. -/
def Starts (loop : ForLoop) (m : Machine) (n : Nat) (k : Machine) : Prop :=
  ∃ k₀, loop.Tested m n k₀ ∧ test loop.condition k₀ = some (.ok true, k)

/-- The loop, entered in a state, is left in another state after a number of rounds. -/
def Finishes (loop : ForLoop) (m : Machine) (n : Nat) (m' : Machine) : Prop :=
  ∃ k k', loop.Tested m n k ∧ test loop.condition k = some (.ok false, k') ∧
    k'.leave (.ok ()) = (.ok (), m')

/-- One round after the test. -/
def round (loop : ForLoop) (budget : Nat) : Exec Unit := do
  loop.body.exec budget
  perform loop.step

/-- The tests and rounds of the loop, after its first part. -/
def rounds (loop : ForLoop) (budget tests : Nat) : Exec Unit :=
  repeatWhile (test loop.condition) (loop.round budget) tests

theorem exec_stmt (loop : ForLoop) (line budget : Nat) :
    (loop.stmt line).exec budget =
      inScope (loop.init.exec budget >>= fun _ => loop.rounds budget budget) := by
  rw [stmt, Stmt.exec]
  rfl

variable {loop : ForLoop}

theorem round_mono {b c : Nat} (h : b ≤ c) : Extends (loop.round b) (loop.round c) :=
  .bind (Stmt.exec_budget_mono h loop.body) fun _ => .refl _

theorem rounds_mono {b c t u : Nat} (hbc : b ≤ c) (htu : t ≤ u) :
    Extends (loop.rounds b t) (loop.rounds c u) :=
  .repeatWhile (round_mono hbc) htu

theorem rounds_of_test_false {k k' : Machine}
    (htest : test loop.condition k = some (.ok false, k')) (budget tests : Nat) :
    loop.rounds budget (tests + 1) k = some (.ok (), k') :=
  bind_eq_some_iff.mpr (.inr ⟨false, k', htest, rfl⟩)

theorem rounds_of_test_true {budget tests : Nat} {k k₁ k₂ k₃ : Machine}
    {r : Except Fault Unit × Machine} (htest : test loop.condition k = some (.ok true, k₁))
    (hbody : loop.body.exec budget k₁ = some (.ok (), k₂))
    (hstep : perform loop.step k₂ = some (.ok (), k₃))
    (hrest : loop.rounds budget tests k₃ = some r) :
    loop.rounds budget (tests + 1) k = some r := by
  have hround : loop.round budget k₁ = some (.ok (), k₃) :=
    bind_eq_some_iff.mpr (.inr ⟨(), k₂, hbody, hstep⟩)
  exact bind_eq_some_iff.mpr (.inr ⟨true, k₁, htest,
    bind_eq_some_iff.mpr (.inr ⟨(), k₃, hround, hrest⟩)⟩)

/-- What the rest of the loop does from some test on, the whole loop does. -/
theorem Tested.exists_rounds {m k : Machine} {n : Nat} (h : loop.Tested m n k) {budget : Nat}
    {r : Except Fault Unit × Machine} (hr : loop.rounds budget budget k = some r) :
    ∃ budget', (loop.init.exec budget' >>= fun _ => loop.rounds budget' budget') m.enter =
      some r := by
  -- Each round back needs a budget for its own run of the body, and one test more.
  induction h generalizing budget with
  | first hinit =>
    obtain ⟨b, hb⟩ := hinit
    have hb' := Stmt.exec_budget_mono (Nat.le_max_left b budget) loop.init _ _ hb
    have hrest := rounds_mono (Nat.le_max_right b budget) (Nat.le_max_right b budget) _ _ hr
    exact ⟨max b budget, bind_eq_some_iff.mpr (.inr ⟨(), _, hb', hrest⟩)⟩
  | again htested htest hbody hstep ih =>
    obtain ⟨b, hb⟩ := hbody
    have hb' := Stmt.exec_budget_mono (show b ≤ max b budget + 1 by omega) loop.body _ _ hb
    have hrest := rounds_mono (show budget ≤ max b budget + 1 by omega)
      (Nat.le_max_right b budget) _ _ hr
    exact ih (rounds_of_test_true htest hb' hstep hrest)

/-- If the tests and rounds end well, the condition fails after some of them. -/
theorem Tested.exists_test_false {m k k' : Machine} {n budget tests : Nat} (h : loop.Tested m n k)
    (hr : loop.rounds budget tests k = some (.ok (), k')) :
    ∃ n' k₀, loop.Tested m n' k₀ ∧ test loop.condition k₀ = some (.ok false, k') := by
  induction tests generalizing n k with
  | zero => cases hr
  | succ tests ih =>
    rcases bind_eq_some_iff.mp hr with ⟨_, -, hfault⟩ | ⟨holds, k₁, htest, hrest⟩
    · cases hfault
    · cases holds with
      | false =>
        cases hrest
        exact ⟨n, k, h, htest⟩
      | true =>
        rcases bind_eq_some_iff.mp hrest with ⟨_, -, hfault⟩ | ⟨_, k₃, hround, hrest⟩
        · cases hfault
        · rcases bind_eq_some_iff.mp hround with ⟨_, -, hfault⟩ | ⟨_, k₂, hbody, hstep⟩
          · cases hfault
          · exact ih (.again h htest ⟨budget, hbody⟩ hstep) hrest

/-- A loop ends well exactly if its condition fails after some number of rounds. -/
theorem ends_iff {line : Nat} {m m' : Machine} :
    (loop.stmt line).Ends m (.ok ()) m' ↔ ∃ n, loop.Finishes m n m' := by
  constructor
  · rintro ⟨budget, h⟩
    rw [exec_stmt, inScope_apply, Option.map_eq_some_iff] at h
    obtain ⟨⟨r, k'⟩, hrun, hleave⟩ := h
    obtain rfl := Machine.eq_ok_of_leave hleave
    rcases bind_eq_some_iff.mp hrun with ⟨_, -, hfault⟩ | ⟨_, k, hinit, hrounds⟩
    · cases hfault
    · obtain ⟨n, k₀, htested, htest⟩ := (Tested.first ⟨budget, hinit⟩).exists_test_false hrounds
      exact ⟨n, k₀, k', htested, htest, hleave⟩
  · rintro ⟨n, k, k', htested, htest, hleave⟩
    obtain ⟨budget, hrun⟩ := htested.exists_rounds (rounds_of_test_false htest 1 0)
    refine ⟨budget, ?_⟩
    rw [exec_stmt, inScope_apply, hrun, Option.map_some, hleave]

end ForLoop

/-! ## Expressions over a counter -/

/-- An expression that has a value in every environment, and no effects. -/
def Expr.Constant (e : Expr) (v : Value) : Prop := ∀ env, e.eval env = (.ok v, env)

theorem Exec.test_of_eval {condition : Expr} {m : Machine} {v : Value} {env : Env}
    (h : condition.eval m.env = (.ok v, env)) :
    test condition m = some (.ok v.truth, { m with env }) := by
  have hbind : (condition.eval >>= fun v => pure v.truth) m.env = (.ok v.truth, env) :=
    Eval.bind_eq_ok_iff.mpr ⟨v, env, h, rfl⟩
  rw [test, ofEval, hbind]

theorem Exec.perform_of_eval {e : Expr} {m : Machine} {v : Value} {env : Env}
    (h : e.eval m.env = (.ok v, env)) : perform e m = some (.ok (), { m with env }) := by
  have hbind : (e.eval >>= fun _ => pure ()) m.env = (.ok (), env) :=
    Eval.bind_eq_ok_iff.mpr ⟨v, env, h, rfl⟩
  rw [perform_eq, ofEval, hbind]

theorem Stmt.exec_exprs_singleton (e : Expr) (line budget : Nat) :
    (exprs [e] line).exec budget = perform e := by
  simp [exec, List.forM_eq_forM]

namespace Expr

variable {i : String} {env : Env} {v w : Value}

theorem eval_var (h : env.get? i = some v) (l : Nat) : (var i l).eval env = (.ok v, env) := by
  have hlookup : env.lookup i l = .ok v := by rw [Env.lookup, h]
  exact Eval.bind_eq_ok_iff.mpr ⟨env, env, rfl, Prod.ext hlookup rfl⟩

theorem eval_assign_constant {first : Expr} (h : first.Constant v) (env : Env) (l line : Nat) :
    (binary (var i l) .assign first line).eval env = (.ok v, env.assign i v) :=
  Eval.bind_eq_ok_iff.mpr ⟨v, env, h env, rfl⟩

theorem eval_lt_constant {bound : Expr} (hi : env.get? i = some v) (hbound : bound.Constant w)
    (l line : Nat) :
    (binary (var i l) (.compare .lt) bound line).eval env =
      (.ok (.ofBool (decide (v < w))), env) :=
  (eval_binary_eq_ok_iff rfl).mpr ⟨v, w, ⟨env, hbound env, eval_var hi l⟩, rfl⟩

theorem eval_add_one (hi : env.get? i = some v) (l l' line : Nat) :
    (binary (var i l) (.compound .add) (num 1 l') line).eval env =
      (.ok (v + 1), env.assign i (v + 1)) := by
  have hstore : (var i l).storeComputed (.compound .add) (.arith .add) v 1 line env =
      (.ok (v + 1), env.assign i (v + 1)) := storeComputed_var ..
  refine Eval.bind_eq_ok_iff.mpr ⟨1, env, rfl, ?_⟩
  exact Eval.bind_eq_ok_iff.mpr ⟨v, env, eval_var hi l, hstore⟩

end Expr

/-! ## The counter -/

/-- In a scope that was entered in the state `m`, a counter has a value, as if nothing else had been
assigned to it. -/
def Counts (i : String) (m : Machine) (z : Int) (k : Machine) : Prop :=
  ∃ v : Value, v.toInt = z ∧ k.env.bindings i = (m.env.push.assign i v).bindings i

namespace Counts

variable {i : String} {m k k' : Machine} {z : Int}

theorem exists_get? (h : Counts i m z k) : ∃ v : Value, v.toInt = z ∧ k.env.get? i = some v := by
  obtain ⟨v, hv, hbindings⟩ := h
  refine ⟨v, hv, ?_⟩
  rw [Env.get?_eq_of_bindings_eq hbindings, Env.get?_assign_self]

theorem map_get? (h : Counts i m z k) : (k.env.get? i).map Int32.toInt = some z := by
  obtain ⟨v, hv, hget⟩ := h.exists_get?
  rw [hget, Option.map_some, hv]

/-- A statement that does not write the counter keeps it. -/
theorem exec {body : Stmt} (hi : i ∉ body.written) {r : Except Fault Unit} (h : Counts i m z k)
    (hbody : body.Ends k r k') : Counts i m z k' := by
  obtain ⟨v, hv, hbindings⟩ := h
  obtain ⟨budget, hrun⟩ := hbody
  exact ⟨v, hv, by rw [Stmt.bindings_exec hi hrun, hbindings]⟩

/-- The counter may be set to another value. -/
theorem assign (h : Counts i m z k) (v : Value) :
    Counts i m v.toInt { k with env := k.env.assign i v } := by
  obtain ⟨w, -, hbindings⟩ := h
  refine ⟨v, rfl, ?_⟩
  rw [Env.bindings_assign_congr hbindings, Env.assign_assign_self]

/-- When the scope is left, the counter keeps its value if it had one before, and is forgotten
otherwise. -/
theorem leave (h : Counts i m z k) :
    ∃ m', k.leave (.ok ()) = (.ok (), m') ∧
      (m'.env.get? i).map Int32.toInt = if (m.env.get? i).isSome then some z else none := by
  obtain ⟨v, hv, hbindings⟩ := h
  obtain ⟨env, hpop, henv⟩ := Env.exists_pop_of_bindings_eq hbindings (m.env.pop_assign_push i v)
  refine ⟨{ k with env }, Machine.leave_of_pop hpop _, ?_⟩
  rw [Env.get?_eq_of_bindings_eq henv]
  by_cases hbound : (m.env.get? i).isSome
  · rw [if_pos hbound, if_pos hbound, Env.get?_assign_self, Option.map_some, hv]
  · rw [if_neg hbound, if_neg hbound, Option.not_isSome_iff_eq_none.mp hbound]
    rfl

end Counts

theorem Value.toInt_add_one {v w : Value} (h : v.toInt < w.toInt) :
    (v + 1).toInt = v.toInt + 1 := by
  have hlow := v.le_toInt
  have hhigh := w.toInt_lt
  rw [Int32.toInt_add, Int32.toInt_one]
  apply Int.bmod_eq_of_le <;> omega

/-! ## Rounds of a counting loop -/

/-- The loop `for (i = first; i < bound; i += 1) body`, with constants for the first value and the
bound, and a body that does not write the counter. -/
structure CountingLoop where
  /-- The counter. -/
  counter : String
  /-- The value that the counter starts with. -/
  low : Value
  /-- The bound of the counter. -/
  high : Value
  /-- How the first value is written. -/
  first : Expr
  /-- How the bound is written. -/
  bound : Expr
  /-- The body. -/
  body : Stmt
  /-- The lines of the nodes. -/
  line : Nat → Nat
  first_constant : first.Constant low
  bound_constant : bound.Constant high
  counter_not_written : counter ∉ body.written

namespace CountingLoop

/-- The parts of a counting loop. -/
def parts (c : CountingLoop) : ForLoop where
  init := .exprs [.binary (.var c.counter (c.line 0)) .assign c.first (c.line 1)] (c.line 2)
  condition := .binary (.var c.counter (c.line 3)) (.compare .lt) c.bound (c.line 4)
  step := .binary (.var c.counter (c.line 5)) (.compound .add) (.num 1 (c.line 6)) (c.line 7)
  body := c.body

variable {c : CountingLoop} {m m' k : Machine} {n : Nat} {z : Int}

theorem exec_init (c : CountingLoop) (m : Machine) (budget : Nat) :
    c.parts.init.exec budget m =
      some (.ok (), { m with env := m.env.assign c.counter c.low }) := by
  rw [parts, Stmt.exec_exprs_singleton]
  exact perform_of_eval (Expr.eval_assign_constant c.first_constant m.env _ _)

theorem test_condition (h : Counts c.counter m z k) :
    test c.parts.condition k = some (.ok (decide (z < c.high.toInt)), k) := by
  obtain ⟨v, rfl, hget⟩ := h.exists_get?
  have htest := test_of_eval (Expr.eval_lt_constant hget c.bound_constant (c.line 3) (c.line 4))
  have htruth : (Value.ofBool (decide (v < c.high))).truth = decide (v.toInt < c.high.toInt) := by
    rw [decide_eq_decide.mpr Int32.lt_iff_toInt_lt]
    cases decide (v.toInt < c.high.toInt) <;> rfl
  rw [htruth] at htest
  exact htest

/-- Below the bound there is room for a step. -/
theorem exists_perform_step (h : Counts c.counter m z k) (hz : z < c.high.toInt) :
    ∃ k', perform c.parts.step k = some (.ok (), k') ∧ Counts c.counter m (z + 1) k' := by
  obtain ⟨v, rfl, hget⟩ := h.exists_get?
  have hstep := perform_of_eval (Expr.eval_add_one hget (c.line 5) (c.line 6) (c.line 7))
  refine ⟨_, hstep, ?_⟩
  rw [← Value.toInt_add_one hz]
  exact h.assign (v + 1)

/-- The counter grows by one in each round, and never beyond the bound. -/
theorem counts_of_tested (h : c.parts.Tested m n k) :
    Counts c.counter m (c.low.toInt + n) k ∧ (n = 0 ∨ c.low.toInt + n ≤ c.high.toInt) := by
  induction h with
  | first hinit =>
    obtain ⟨budget, hrun⟩ := hinit
    rw [exec_init] at hrun
    cases hrun
    exact ⟨⟨c.low, by simp, rfl⟩, .inl rfl⟩
  | @again n k k₁ k₂ k₃ htested htest hbody hstep ih =>
    obtain ⟨hcounts, -⟩ := ih
    rw [test_condition hcounts] at htest
    obtain ⟨hlt, rfl⟩ : c.low.toInt + n < c.high.toInt ∧ k = k₁ := by simpa using htest
    have hkept := hcounts.exec c.counter_not_written hbody
    obtain ⟨k', hstep', hcounts'⟩ := exists_perform_step hkept hlt
    obtain rfl : k' = k₃ := by simpa using hstep'.symm.trans hstep
    rw [Int.natCast_succ, ← Int.add_assoc]
    exact ⟨hcounts', .inr (by omega)⟩

/-- The body starts exactly where the counter is tested below the bound. -/
theorem starts_iff :
    c.parts.Starts m n k ↔ c.parts.Tested m n k ∧ c.low.toInt + n < c.high.toInt := by
  constructor
  · rintro ⟨k₀, htested, htest⟩
    rw [test_condition (counts_of_tested htested).1] at htest
    obtain ⟨hlt, rfl⟩ : c.low.toInt + n < c.high.toInt ∧ k₀ = k := by simpa using htest
    exact ⟨htested, hlt⟩
  · rintro ⟨htested, hlt⟩
    refine ⟨k, htested, ?_⟩
    rw [test_condition (counts_of_tested htested).1, decide_eq_true hlt]

/-- The loop is left exactly after one round for each value below the bound. -/
theorem finishes_iff :
    c.parts.Finishes m n m' ↔ n = (c.high.toInt - c.low.toInt).toNat ∧
      ∃ k, c.parts.Tested m n k ∧ k.leave (.ok ()) = (.ok (), m') := by
  constructor
  · rintro ⟨k, k', htested, htest, hleave⟩
    obtain ⟨hcounts, hn⟩ := counts_of_tested htested
    rw [test_condition hcounts] at htest
    obtain ⟨hle, rfl⟩ : c.high.toInt ≤ c.low.toInt + n ∧ k = k' := by simpa using htest
    exact ⟨by omega, k, htested, hleave⟩
  · rintro ⟨hn, k, htested, hleave⟩
    have hge : ¬ c.low.toInt + n < c.high.toInt := by omega
    refine ⟨k, k, htested, ?_, hleave⟩
    rw [test_condition (counts_of_tested htested).1, decide_eq_false hge]

/-- Every run of the body that the loop starts ends well. -/
def BodyEnds (c : CountingLoop) (m : Machine) : Prop :=
  ∀ n k, c.parts.Starts m n k → ∃ k', c.body.Ends k (.ok ()) k'

/-- The loop comes to every test up to the one at the bound. -/
theorem exists_tested (hbody : c.BodyEnds m) (hn : n = 0 ∨ c.low.toInt + n ≤ c.high.toInt) :
    ∃ k, c.parts.Tested m n k := by
  induction n with
  | zero => exact ⟨_, .first ⟨0, c.exec_init m.enter 0⟩⟩
  | succ n ih =>
    have hlt : c.low.toInt + n < c.high.toInt := by omega
    obtain ⟨k, htested⟩ := ih (.inr (by omega))
    obtain ⟨k₁, hends⟩ := hbody n k (starts_iff.mpr ⟨htested, hlt⟩)
    have hcounts := (counts_of_tested htested).1
    obtain ⟨k₂, hstep, -⟩ := exists_perform_step (hcounts.exec c.counter_not_written hends) hlt
    have htest : test c.parts.condition k = some (.ok true, k) := by
      rw [test_condition hcounts, decide_eq_true hlt]
    exact ⟨k₂, .again htested htest hends hstep⟩

/-- A counting loop ends well if its body does whenever it is started. By then the body has run once
for each number from the first value up to the bound, which is the value of the counter at the start
of that run, and no step of the counter has left the range of a word. After the loop the counter has
the larger of both values if it was bound before, and is unbound otherwise. -/
theorem rounds_are_exact (c : CountingLoop) (l : Nat) (m : Machine) (hbody : c.BodyEnds m) :
    (∃ m', (c.parts.stmt l).Ends m (.ok ()) m') ∧
    (∀ m', (c.parts.stmt l).Ends m (.ok ()) m' →
      c.parts.Finishes m (c.high.toInt - c.low.toInt).toNat m' ∧
      (m'.env.get? c.counter).map Int32.toInt =
        if (m.env.get? c.counter).isSome then some (max c.low.toInt c.high.toInt) else none) ∧
    (∀ n : Nat, (∃ k, c.parts.Starts m n k) ↔ (n : Int) < max 0 (c.high.toInt - c.low.toInt)) ∧
    ∀ n k, c.parts.Starts m n k →
      (k.env.get? c.counter).map Int32.toInt = some (c.low.toInt + n) ∧
      ∀ k', c.body.Ends k (.ok ()) k' →
        ∃ k'', perform c.parts.step k' = some (.ok (), k'') ∧
          (k''.env.get? c.counter).map Int32.toInt = some (c.low.toInt + n + 1) := by
  refine ⟨?_, ?_, ?_, ?_⟩
  · have hn : (c.high.toInt - c.low.toInt).toNat = 0 ∨
        c.low.toInt + (c.high.toInt - c.low.toInt).toNat ≤ c.high.toInt := by omega
    obtain ⟨k, htested⟩ := exists_tested hbody hn
    obtain ⟨m', hleave, -⟩ := (counts_of_tested htested).1.leave
    have hfinishes := finishes_iff.mpr ⟨rfl, k, htested, hleave⟩
    exact ⟨m', ForLoop.ends_iff.mpr ⟨_, hfinishes⟩⟩
  · intro m' hends
    obtain ⟨n, hfinishes⟩ := ForLoop.ends_iff.mp hends
    obtain ⟨rfl, k, htested, hleave⟩ := finishes_iff.mp hfinishes
    obtain ⟨m'', hleave', hget⟩ := (counts_of_tested htested).1.leave
    obtain rfl : m'' = m' := by simpa using hleave'.symm.trans hleave
    have hmax : c.low.toInt + (c.high.toInt - c.low.toInt).toNat =
        max c.low.toInt c.high.toInt := by omega
    rw [hmax] at hget
    exact ⟨hfinishes, hget⟩
  · intro n
    constructor
    · rintro ⟨k, hstarts⟩
      have hlt := (starts_iff.mp hstarts).2
      omega
    · intro hn
      have hlt : c.low.toInt + n < c.high.toInt := by omega
      obtain ⟨k, htested⟩ := exists_tested hbody (.inr (Int.le_of_lt hlt))
      exact ⟨k, starts_iff.mpr ⟨htested, hlt⟩⟩
  · intro n k hstarts
    obtain ⟨htested, hlt⟩ := starts_iff.mp hstarts
    have hcounts := (counts_of_tested htested).1
    refine ⟨hcounts.map_get?, ?_⟩
    intro k' hends
    obtain ⟨k'', hstep, hcounts'⟩ :=
      exists_perform_step (hcounts.exec c.counter_not_written hends) hlt
    exact ⟨k'', hstep, hcounts'.map_get?⟩

/-- A loop over all words but the greatest one. The least word has no literal. -/
def allWords : CountingLoop where
  counter := "i"
  low := Int32.minValue
  high := Int32.maxValue
  first := .binary (.unary .negate (.num 2147483647 1) 1) (.arith .sub) (.num 1 1) 1
  bound := .num 2147483647 1
  body := .exprs [.binary (.var "x" 1) .assign (.var "i" 1) 1] 1
  line _ := 1
  first_constant _ := rfl
  bound_constant _ := rfl
  counter_not_written := by decide

theorem bodyEnds_allWords (m : Machine) : allWords.BodyEnds m := by
  intro n k hstarts
  have htested := (starts_iff.mp hstarts).1
  obtain ⟨v, -, hget⟩ := (counts_of_tested htested).1.exists_get?
  have hassign : (Expr.binary (.var "x" 1) .assign (.var "i" 1) 1).eval k.env =
      (.ok v, k.env.assign "x" v) :=
    Eval.bind_eq_ok_iff.mpr ⟨v, k.env, Expr.eval_var hget 1, rfl⟩
  refine ⟨{ k with env := k.env.assign "x" v }, 0, ?_⟩
  rw [allWords, Stmt.exec_exprs_singleton]
  exact perform_of_eval hassign

theorem rounds_are_exact_all_words :
    let m : Machine := { env := { inner := (∅ : Frame).insert "i" 0, outer := [] } }
    allWords.BodyEnds m ∧
      (∃ m', (allWords.parts.stmt 1).Ends m (.ok ()) m' ∧
        (m'.env.get? "i").map Int32.toInt = some 2147483647) ∧
      ∀ n, (∃ k, allWords.parts.Starts m n k) ↔ n < 4294967295 := by
  intro m
  obtain ⟨⟨m', hends⟩, hfinal, hstarts, -⟩ :=
    rounds_are_exact allWords 1 m (bodyEnds_allWords m)
  refine ⟨bodyEnds_allWords m, ⟨m', hends, (hfinal m' hends).2⟩, ?_⟩
  intro n
  rw [hstarts n]
  have hlength : max 0 (allWords.high.toInt - allWords.low.toInt) = 4294967295 := by decide
  omega

end CountingLoop

end Imp32
