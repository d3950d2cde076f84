import Imp32.Proofs.OperandOrder

/-!
# Effects of trees

What a tree leaves as it is. A statement changes the bindings of its targets and of no other name,
in any frame that was there before, and whether it ends well or with a fault. Expressions write no
output; and one without an operator that assigns changes nothing at all
(`only_targets_are_written`).
-/

namespace Imp32

namespace Expr

/-- Whether the node is an operator that assigns. -/
def isAssigning : Expr → Bool
  | .unary .increment _ _ | .unary .decrement _ _ => true
  | .unary .complement _ _ | .unary .negate _ _ => false
  | .binary _ op _ _ => op.assigns
  | .num _ _ | .var _ _ => false

theorem isAssigning_of_writes? {n : Expr} {x : String} (h : n.writes? = some x) :
    n.isAssigning = true := by
  unfold writes? at h
  split at h
  case h_5 => cases h
  all_goals rfl

theorem written_eq_nil {e : Expr} (h : ∀ n ∈ e.nodes, n.isAssigning = false) : e.written = [] := by
  refine List.eq_nil_iff_forall_not_mem.mpr fun x hx => ?_
  obtain ⟨n, hn, hwrites⟩ := List.mem_filterMap.mp hx
  have hassigns := isAssigning_of_writes? hwrites
  rw [h n hn] at hassigns
  cases hassigns

/-- An expression without targets leaves its environment as it is. -/
theorem eval_of_written_eq_nil {e : Expr} (h : e.written = []) (env : Env) :
    (e.eval env).2 = env := by
  obtain ⟨ws, hws, henv⟩ := e.exists_assignAll env
  have hnil : ws = [] := by
    refine List.eq_nil_iff_forall_not_mem.mpr fun w hw => ?_
    have hmem := hws w hw
    rw [h] at hmem
    cases hmem
  rw [henv, hnil]
  rfl

end Expr

/-- However a statement ends, a name that is not a target of it is bound as before in every frame.
Evaluating an expression always ends, and leaves the output as it is; if no operator of the
expression assigns, it leaves the environment as it is too. -/
theorem only_targets_are_written :
    (∀ (s : Stmt) (budget : Nat) (m : Machine) (r : Except Fault Unit) (m' : Machine),
      s.exec budget m = some (r, m') → ∀ x ∉ s.written, m'.env.bindings x = m.env.bindings x) ∧
    ∀ (e : Expr) (m : Machine), ∃ r m', Exec.ofEval e.eval m = some (r, m') ∧
      m'.sink = m.sink ∧ ((∀ n ∈ e.nodes, n.isAssigning = false) → m'.env = m.env) := by
  refine ⟨fun s budget m r m' h x hx => Stmt.bindings_exec hx h, fun e m => ?_⟩
  refine ⟨(e.eval m.env).1, { m with env := (e.eval m.env).2 }, rfl, rfl, fun h => ?_⟩
  exact Expr.eval_of_written_eq_nil (Expr.written_eq_nil h) m.env

/-- All four ways to assign, in a scope and in another one inside, and then a fault: a name that is
bound in two frames, and one that is bound in none, are left alone. An expression that does not
assign ends with a fault as well. -/
theorem only_targets_are_written_before_fault :
    let s : Stmt := .block [.exprs [.binary (.var "y" 1) .assign (.num 5 1) 1] 1,
      .block [.exprs [.binary (.var "x" 2) (.compound .add) (.var "y" 2) 2,
        .unary .increment (.var "z" 2) 2] 2] 2,
      .exprs [.unary .decrement (.var "w" 3) 3, .var "v" 3] 3] 1
    let m : Machine := { env :=
      { inner := ((∅ : Frame).insert "x" 1).insert "k" 7,
        outer := [(((∅ : Frame).insert "k" 8).insert "z" 3).insert "w" 4] } }
    let m' : Machine := { env :=
      { inner := ((∅ : Frame).insert "x" 6).insert "k" 7,
        outer := [(((∅ : Frame).insert "k" 8).insert "z" 4).insert "w" 3] } }
    let e : Expr := .binary (.var "k" 1) (.arith .div)
      (.binary (.var "x" 1) (.arith .sub) (.num 1 1) 1) 1
    s.exec 1 m = some (.error (.raised (.undefinedVariable "v") 3), m') ∧
      m'.env.bindings "k" = m.env.bindings "k" ∧ m'.env.bindings "v" = m.env.bindings "v" ∧
      Exec.ofEval e.eval m = some (.error (.raised .divisionByZero 1), m) := by
  intro s m m' e
  have hexec : s.exec 1 m = some (.error (.raised (.undefinedVariable "v") 3), m') := rfl
  have hframe := only_targets_are_written.1 s 1 m _ m' hexec
  have hresult : (Exec.ofEval e.eval m).map Prod.fst =
    some (.error (.raised .divisionByZero 1)) := rfl
  obtain ⟨r, ⟨env, sink⟩, heval, hsink, hpure⟩ := only_targets_are_written.2 e m
  obtain rfl : env = m.env := hpure (by decide)
  obtain rfl : sink = m.sink := hsink
  rw [heval] at hresult ⊢
  cases hresult
  exact ⟨hexec, hframe "k" (by decide), hframe "v" (by decide), rfl⟩

end Imp32
