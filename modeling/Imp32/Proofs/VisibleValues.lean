import Imp32.Stmt.Budget
import Imp32.Proofs.ScopeDiscipline

/-!
# Visible values

What a tree does depends on the values of the variables that it mentions, and on nothing else in the
environment: neither on other variables, nor on which frames hold the bindings, nor on how many
frames there are.

The reason is that a name is changed where it is bound, and declared in the innermost scope only if
it is bound nowhere. Environments that agree on the value of a name agree on whether it is bound. So
a scope that is entered in both runs comes to hold the same frame in both, and leaving it uncovers
environments that agree again.
-/

namespace Imp32

/-! ## Names in use -/

/-- The names of the variables that occur in an expression. -/
def Expr.names (e : Expr) : Set String := {name | ∃ line, .var name line ∈ e.nodes}

/-- The names of the variables that occur in a statement. -/
def Stmt.names (s : Stmt) : Set String := {name | ∃ line, .var name line ∈ s.exprNodes}

/-- The names of the variables that occur in a program. -/
def Program.names (p : Program) : Set String := {name | ∃ line, .var name line ∈ p.exprNodes}

/-- The footprint of a tree that uses the given names only. -/
def Footprint.ofNames (V : Set String) : Footprint := ⟨(· ∈ V), (· ∈ V), (· ∈ V)⟩

theorem Expr.within_ofNames {V : Set String} {ns : List Expr} (hns : ClosedNodes ns)
    (h : ∀ name line, .var name line ∈ ns → name ∈ V) : ∀ n ∈ ns, n.Within (.ofNames V) := by
  intro n hn
  have hvar : ∀ name line, .var name line ∈ n.nodes → name ∈ V := fun name line hmem =>
    h name line (hns n hn hmem)
  unfold Within
  split
  case h_1 name line => exact hvar name line List.mem_cons_self
  case h_2 name l line => exact hvar name l (by simp [nodes])
  case h_3 name l line => exact hvar name l (by simp [nodes])
  case h_4 name l right line => exact hvar name l (by simp [nodes])
  case h_5 name l op right line => exact hvar name l (by simp [nodes])
  case h_6 => trivial

/-! ## Environments that agree -/

namespace Env

/-- The names of the set have the same value in both environments, or no value in both. -/
def AgreeOn (V : Set String) (e e' : Env) : Prop := ∀ name ∈ V, e.get? name = e'.get? name

/-- Assignments keep environments alike, since they change the same values in both. -/
theorem related_agreeOn (V : Set String) : Related (.ofNames V) (AgreeOn V) := by
  have hassign {e e' : Env} (h : AgreeOn V e e') (name : String) (value : Value) :
      AgreeOn V (e.assign name value) (e'.assign name value) := by
    intro x hx
    rw [get?_assign, get?_assign, h x hx]
  exact
    { get? := fun h hname => h _ hname
      declare := fun h _ value => hassign h _ value
      update := fun h _ _ value => hassign h _ value }

/-- Non-empty lists of frames in which the names of the set have the same values. -/
def FindAlike (V : Set String) (base base' : List Frame) : Prop :=
  base ≠ [] ∧ base' ≠ [] ∧ ∀ name ∈ V, find? name base = find? name base'

theorem beneath_findAlike (V : Set String) : Beneath (.ofNames V) (FindAlike V) where
  reads hname := hname.elim id id
  find? h hname := h.2.2 _ hname
  rebind {base base' name} h hname hbound value := by
    obtain ⟨hne, hne', hfind⟩ := h
    have hV : name ∈ V := hname.elim id id
    have hbound' : (Env.find? name base').isSome = true := by rw [← hfind name hV, hbound]
    refine ⟨rebind_ne_nil hne name value, rebind_ne_nil hne' name value, fun x hx => ?_⟩
    have hset := findSome?_rebind name x value base (isSome_find?_iff.mp hbound)
    have hset' := findSome?_rebind name x value base' (isSome_find?_iff.mp hbound')
    have hx : base.findSome? (fun frame => frame[x]?) = base'.findSome? fun frame => frame[x]? :=
      hfind x hx
    rw [Env.find?, Env.find?, hset, hset', hx]

end Env

/-! ## Trees in environments that agree -/

/-- A statement does the same in environments that agree on its names. -/
theorem Stmt.sim_agreeOn {V : Set String} {s : Stmt} (h : s.names ⊆ V) (budget : Nat) :
    Exec.Sim (Env.AgreeOn V) (s.exec budget) (s.exec budget) := by
  have hwithin : ∀ n ∈ s.exprNodes, n.Within (.ofNames V) :=
    Expr.within_ofNames s.closedNodes_exprNodes fun name line hmem => h ⟨line, hmem⟩
  cases hs : s.opensScope with
  | true =>
    have hsim := exec_sim_above (Env.beneath_findAlike V) (fun h => ⟨h.1, h.2.1⟩) hs hwithin budget
    -- The frames of an environment are never an empty list, so the two relations are the same.
    have hrel : (fun e e' : Env => Env.FindAlike V e.frames e'.frames) = Env.AgreeOn V := by
      funext e e'
      exact propext ⟨fun h => h.2.2, fun h => ⟨List.cons_ne_nil _ _, List.cons_ne_nil _ _, h⟩⟩
    rwa [hrel] at hsim
  | false => exact exec_sim_of_not_opensScope (Env.related_agreeOn V) hs hwithin budget

theorem Program.sim_agreeOn {V : Set String} {p : Program} (h : p.names ⊆ V) (budget : Nat) :
    Exec.Sim (Env.AgreeOn V) (p.exec budget) (p.exec budget) := by
  rw [exec_eq]
  induction p with
  | nil => exact Exec.sim_pure ()
  | cons s ss ih =>
    have hs : s.names ⊆ V := by
      rintro name ⟨line, hmem⟩
      exact h ⟨line, List.mem_append_left _ hmem⟩
    have hss : Program.names ss ⊆ V := by
      rintro name ⟨line, hmem⟩
      exact h ⟨line, List.mem_append_right _ hmem⟩
    exact (Stmt.sim_agreeOn hs budget).bind fun _ => ih hss

/-! ## Runs for any budget -/

/-- The action that a budget gives ends from both states or from neither; and then with the same
result and the same output, in environments that agree on the names of the set. -/
def Exec.AlikeOn (V : Set String) (x : Nat → Exec Unit) (m m' : Machine) : Prop :=
  ((∃ budget r k, x budget m = some (r, k)) ↔ ∃ budget r k, x budget m' = some (r, k)) ∧
    ∀ b b' r r' k k', x b m = some (r, k) → x b' m' = some (r', k') →
      r = r' ∧ k.sink = k'.sink ∧ k.env.AgreeOn V k'.env

/-- Two runs with different budgets are compared at a budget that is enough for both. -/
theorem Exec.AlikeOn.of_sim {V : Set String} {x : Nat → Exec Unit}
    (hmono : ∀ {b c}, b ≤ c → Extends (x b) (x c))
    (hsim : ∀ b, Sim (Env.AgreeOn V) (x b) (x b)) {m m' : Machine}
    (henv : m.env.AgreeOn V m'.env) (hsink : m.sink = m'.sink) : AlikeOn V x m m' := by
  have hlift : Machine.Lift (Env.AgreeOn V) m m' := ⟨henv, hsink⟩
  refine ⟨⟨?_, ?_⟩, ?_⟩
  · rintro ⟨b, r, k, hb⟩
    obtain ⟨k', hb', -⟩ := (hsim b).of_eq_some hlift hb
    exact ⟨b, r, k', hb'⟩
  · rintro ⟨b, r, k', hb'⟩
    rcases (hsim b).ends hlift with ⟨-, hnone⟩ | ⟨r', k, k'', hb, -, -⟩
    · cases hnone.symm.trans hb'
    · exact ⟨b, r', k, hb⟩
  · intro b b' r r' k k' hb hb'
    -- A budget that is enough for both runs gives both results.
    have hc := hmono (Nat.le_max_left b b') m (r, k) hb
    have hc' := hmono (Nat.le_max_right b b') m' (r', k') hb'
    obtain ⟨k'', hk'', hlift'⟩ := (hsim (max b b')).of_eq_some hlift hc
    cases hk''.symm.trans hc'
    exact ⟨rfl, hlift'.2, hlift'.1⟩

namespace Program

/-- In environments that agree on all names that a tree mentions, the tree does the same: an
expression has the same value or fault, a statement and a program end alike with the same result and
output; and the environments agree again afterwards. -/
theorem only_visible_values_matter (V : Set String) :
    (∀ e : Expr, e.names ⊆ V → ∀ env env' : Env, env.AgreeOn V env' →
        (e.eval env).1 = (e.eval env').1 ∧ (e.eval env).2.AgreeOn V (e.eval env').2) ∧
      (∀ s : Stmt, s.names ⊆ V → ∀ m m' : Machine, m.env.AgreeOn V m'.env → m.sink = m'.sink →
        Exec.AlikeOn V (fun budget => s.exec budget) m m') ∧
      ∀ p : Program, p.names ⊆ V → ∀ m m' : Machine, m.env.AgreeOn V m'.env → m.sink = m'.sink →
        Exec.AlikeOn V (fun budget => p.exec budget) m m' := by
  refine ⟨fun e he env env' henv => ?_, fun s hs m m' henv hsink => ?_,
    fun p hp m m' henv hsink => ?_⟩
  · have hwithin : ∀ n ∈ e.nodes, n.Within (.ofNames V) :=
      Expr.within_ofNames e.closedNodes_nodes fun name line hmem => he ⟨line, hmem⟩
    exact Expr.sim_eval (Env.related_agreeOn V) hwithin env env' henv
  · exact .of_sim (fun hbc => Stmt.exec_budget_mono hbc s) (Stmt.sim_agreeOn hs) henv hsink
  · exact .of_sim (fun hbc => Stmt.execAll_budget_mono hbc _) (sim_agreeOn hp) henv hsink

/-- The same values, bound in one frame on one side and in two on the other. -/
theorem only_visible_values_matter_across_frames :
    let s : Stmt := .ifThen (.binary (.var "x" 1) .assign (.num 2 1) 1)
      (.exprs [.binary (.var "y" 1) (.compound .add) (.var "x" 1) 1] 1) 1
    let V : Set String := {"x", "y"}
    let m : Machine := { env := { inner := ((∅ : Frame).insert "x" 1).insert "y" 4 } }
    let m' : Machine :=
      { env := { inner := (∅ : Frame).insert "y" 4, outer := [(∅ : Frame).insert "x" 1] } }
    s.names ⊆ V ∧ m.env.AgreeOn V m'.env ∧ m.sink = m'.sink ∧
      Exec.AlikeOn V (fun budget => s.exec budget) m m' := by
  intro s V m m'
  have hnames : s.names ⊆ V := by
    rintro name ⟨line, hmem⟩
    have hmem : name = "x" ∨ name = "y" := by
      simp [s, Stmt.exprNodes, Expr.nodes] at hmem
      grind
    exact hmem
  have hagree : m.env.AgreeOn V m'.env := by
    rintro name (rfl | rfl) <;> rfl
  exact ⟨hnames, hagree, rfl, (only_visible_values_matter V).2.1 s hnames m m' hagree rfl⟩

end Program

end Imp32
