import Mathlib.Data.Set.Insert
import Imp32.Proofs.Scopes

/-!
# Scope discipline

However a statement ends, it leaves as many scopes as it found, and every frame but the innermost
binds the names that it bound before. The innermost frame loses no name, and gains only names that
the statement assigns to; it gains none if the statement runs in a scope of its own.
-/

namespace Imp32

/-! ## Names -/

/-- The names that a frame binds. -/
def Frame.names (frame : Frame) : Set String := {name | name ∈ frame}

theorem Frame.names_insert (frame : Frame) (name : String) (value : Value) :
    Frame.names (frame.insert name value) = insert name (Frame.names frame) := by
  ext x
  change x ∈ frame.insert name value ↔ x = name ∨ x ∈ frame
  rw [Std.ExtTreeMap.mem_insert, Std.LawfulEqCmp.compare_eq_iff_eq, eq_comm]

/-- The targets of plain assignments in an expression. -/
def Expr.targets (e : Expr) : Set String :=
  {name | ∃ l right line, .binary (.var name l) .assign right line ∈ e.nodes}

/-- The targets of plain assignments in a statement. -/
def Stmt.targets (s : Stmt) : Set String :=
  {name | ∃ l right line, .binary (.var name l) .assign right line ∈ s.exprNodes}

/-- The targets of plain assignments in a program. -/
def Program.targets (p : Program) : Set String :=
  {name | ∃ l right line, .binary (.var name l) .assign right line ∈ p.exprNodes}

namespace Env

theorem map_names_rebind (name : String) (value : Value) (frames : List Frame) :
    (rebind name value frames).map Frame.names = frames.map Frame.names := by
  induction frames with
  | nil => rfl
  | cons frame frames ih =>
    rw [rebind]
    split
    · rename_i hmem
      have hsame : Frame.names (frame.insert name value) = Frame.names frame := by
        rw [Frame.names_insert, Set.insert_eq_of_mem]
        exact hmem
      rw [List.map_cons, List.map_cons, hsame]
    · rw [List.map_cons, List.map_cons, ih]

/-- The environment after a run, seen from the one before: the same scopes, the same names in all
but the innermost, and there no name lost and only targets gained. -/
structure Grows (targets : Set String) (before after : Env) : Prop where
  /-- As many scopes are open. -/
  depth : after.depth = before.depth
  /-- The outer frames bind the same names. -/
  outer : after.outer.map Frame.names = before.outer.map Frame.names
  /-- The innermost frame loses no name. -/
  kept : Frame.names before.inner ⊆ Frame.names after.inner
  /-- The innermost frame gains only targets. -/
  gained : Frame.names after.inner ⊆ Frame.names before.inner ∪ targets

namespace Grows

variable {targets targets' : Set String} {e e' e'' : Env}

theorem refl (targets : Set String) (e : Env) : Grows targets e e :=
  ⟨rfl, rfl, subset_rfl, Set.subset_union_left⟩

theorem trans (h : Grows targets e e') (h' : Grows targets e' e'') : Grows targets e e'' where
  depth := h'.depth.trans h.depth
  outer := h'.outer.trans h.outer
  kept := h.kept.trans h'.kept
  gained := h'.gained.trans (Set.union_subset h.gained Set.subset_union_right)

theorem mono (h : Grows targets e e') (hsub : targets ⊆ targets') : Grows targets' e e' :=
  ⟨h.depth, h.outer, h.kept, h.gained.trans (Set.union_subset_union_right _ hsub)⟩

/-- Environments whose frames bind the same names. -/
theorem of_map_names (h : e'.frames.map Frame.names = e.frames.map Frame.names) :
    Grows targets e e' := by
  simp only [frames, List.map_cons, List.cons.injEq] at h
  obtain ⟨hinner, houter⟩ := h
  have hlen : e'.outer.length = e.outer.length := by
    have := congrArg List.length houter
    simpa only [List.length_map] using this
  refine ⟨?_, houter, hinner.ge, hinner.le.trans Set.subset_union_left⟩
  rw [Env.depth, Env.depth, hlen]

/-- An assignment to a target, or to a name that is bound. -/
theorem assign {name : String} (h : name ∈ targets ∨ (e.get? name).isSome = true) (value : Value) :
    Grows targets e (e.assign name value) := by
  have hframes := e.frames_assign name value
  split at hframes
  · refine of_map_names ?_
    rw [hframes, map_names_rebind]
  · rename_i hbound
    have htarget : name ∈ targets := h.resolve_right hbound
    simp only [frames, declare, List.cons.injEq] at hframes
    obtain ⟨hinner, houter⟩ := hframes
    refine ⟨e.depth_assign name value, by rw [houter], ?_, ?_⟩
    · rw [hinner, Frame.names_insert]
      exact Set.subset_insert _ _
    · rw [hinner, Frame.names_insert]
      exact Set.insert_subset (.inr htarget) Set.subset_union_left

end Grows

end Env

/-! ## Expressions, and statements without a scope -/

/-- The footprint of a tree that assigns to the targets, and to other names if they are bound. -/
def Footprint.ofTargets (targets : Set String) : Footprint :=
  ⟨fun _ => True, (· ∈ targets), fun _ => True⟩

theorem Expr.within_ofTargets {targets : Set String} {e : Expr}
    (h : ∀ name l right line, e = .binary (.var name l) .assign right line → name ∈ targets) :
    e.Within (.ofTargets targets) := by
  unfold Within
  split
  case h_4 => exact h _ _ _ _ rfl
  all_goals trivial

/-- Equal environments that have grown from a given one. -/
def Env.Grown (targets : Set String) (start e e' : Env) : Prop := e = e' ∧ Grows targets start e

theorem Env.related_grown (targets : Set String) (start : Env) :
    Related (.ofTargets targets) (Grown targets start) where
  get? h _ := by rw [h.1]
  declare h hname value := ⟨by rw [h.1], h.2.trans (.assign (.inl hname) value)⟩
  update h _ hbound value := ⟨by rw [h.1], h.2.trans (.assign (.inr hbound) value)⟩

theorem Expr.grows_eval (e : Expr) (env : Env) : env.Grows e.targets (e.eval env).2 := by
  have hwithin : ∀ n ∈ e.nodes, n.Within (.ofTargets e.targets) := fun n hn =>
    within_ofTargets fun name l right line heq => ⟨l, right, line, heq ▸ hn⟩
  exact (sim_eval (Env.related_grown e.targets env) hwithin env env ⟨rfl, .refl _ _⟩).2.2

/-! ## Statements with a scope -/

/-- Equal frames that bind the given names. -/
def Env.Binding (names : List (Set String)) (base base' : List Frame) : Prop :=
  base = base' ∧ base.map Frame.names = names

theorem Env.beneath_binding (names : List (Set String)) : Beneath .all (Binding names) where
  reads _ := trivial
  find? h _ := by rw [h.1]
  rebind h _ _ value := ⟨by rw [h.1], by rw [map_names_rebind, h.2]⟩

namespace Stmt

/-- A statement that opens a scope changes the names of no frame. -/
theorem map_names_exec {s : Stmt} (hs : s.opensScope = true) {budget : Nat} {m m' : Machine}
    {r : Except Fault Unit} (h : s.exec budget m = some (r, m')) :
    m'.env.frames.map Frame.names = m.env.frames.map Frame.names := by
  have hne {base base'} (hb : Env.Binding (m.env.frames.map Frame.names) base base') :
      base ≠ [] ∧ base' ≠ [] := by
    obtain ⟨rfl, hnames⟩ := hb
    have hbase : base ≠ [] := by
      rintro rfl
      simp [Env.frames] at hnames
    exact ⟨hbase, hbase⟩
  have hsim := exec_sim_above (Env.beneath_binding _) hne hs (fun n _ => n.within_all) budget
  obtain ⟨_, _, hlift⟩ := hsim.of_eq_some ⟨⟨rfl, rfl⟩, rfl⟩ h
  exact hlift.1.2

theorem grows_exec (s : Stmt) {budget : Nat} {m m' : Machine} {r : Except Fault Unit}
    (h : s.exec budget m = some (r, m')) : m.env.Grows s.targets m'.env := by
  cases hs : s.opensScope with
  | true => exact .of_map_names (map_names_exec hs h)
  | false =>
    have hwithin : ∀ n ∈ s.exprNodes, n.Within (.ofTargets s.targets) := fun n hn =>
      Expr.within_ofTargets fun name l right line heq => ⟨l, right, line, heq ▸ hn⟩
    have hsim := exec_sim_of_not_opensScope (Env.related_grown s.targets m.env) hs hwithin budget
    obtain ⟨_, _, hlift⟩ := hsim.of_eq_some ⟨⟨rfl, .refl _ _⟩, rfl⟩ h
    exact hlift.1.2

end Stmt

/-! ## Programs -/

namespace Program

theorem targets_cons (s : Stmt) (ss : Program) :
    targets (s :: ss) = s.targets ∪ targets ss := by
  ext name
  constructor
  · rintro ⟨l, right, line, hmem⟩
    rcases List.mem_append.mp hmem with hmem | hmem
    · exact .inl ⟨l, right, line, hmem⟩
    · exact .inr ⟨l, right, line, hmem⟩
  · rintro (⟨l, right, line, hmem⟩ | ⟨l, right, line, hmem⟩)
    · exact ⟨l, right, line, List.mem_append_left _ hmem⟩
    · exact ⟨l, right, line, List.mem_append_right _ hmem⟩

theorem grows_exec (p : Program) {budget : Nat} {m m' : Machine} {r : Except Fault Unit}
    (h : p.exec budget m = some (r, m')) : m.env.Grows p.targets m'.env := by
  rw [exec_eq] at h
  induction p generalizing m with
  | nil =>
    cases h
    exact .refl _ _
  | cons s ss ih =>
    rw [targets_cons]
    rcases Exec.bind_eq_some_iff.mp h with ⟨fault, hs, rfl⟩ | ⟨_, k, hs, hss⟩
    · exact (s.grows_exec hs).mono Set.subset_union_left
    · exact ((s.grows_exec hs).mono Set.subset_union_left).trans
        ((ih hss).mono Set.subset_union_right)

/-- However an expression, a statement or a program ends, the environment has grown by targets of
its assignments only; and if a statement opens a scope, the innermost frame binds the same names. -/
theorem scopes_are_restored :
    (∀ (e : Expr) (env : Env), env.Grows e.targets (e.eval env).2) ∧
      (∀ (s : Stmt) (budget : Nat) (m : Machine) (r : Except Fault Unit) (m' : Machine),
        s.exec budget m = some (r, m') → m.env.Grows s.targets m'.env ∧
          (s.opensScope = true → Frame.names m'.env.inner = Frame.names m.env.inner)) ∧
      ∀ (p : Program) (budget : Nat) (m : Machine) (r : Except Fault Unit) (m' : Machine),
        p.exec budget m = some (r, m') → m.env.Grows p.targets m'.env := by
  refine ⟨Expr.grows_eval, fun s budget m r m' h => ⟨s.grows_exec h, fun hs => ?_⟩,
    fun p budget m r m' h => p.grows_exec h⟩
  have hnames := Stmt.map_names_exec hs h
  exact (List.cons.inj hnames).1

theorem scopes_are_restored_after_fault :
    let s : Stmt := .block
      [.exprs [.binary (.var "y" 1) .assign (.num 5 1) 1] 1,
        .exprs [.binary (.var "x" 2) .assign (.num 2 2) 2, .var "z" 2] 2] 1
    let m : Machine := { env := { inner := (∅ : Frame).insert "x" 1 } }
    let m' : Machine := { env := { inner := (∅ : Frame).insert "x" 2 } }
    s.exec 1 m = some (.error (.raised (.undefinedVariable "z") 2), m') ∧
      m.env.Grows s.targets m'.env ∧ Frame.names m'.env.inner = Frame.names m.env.inner := by
  intro s m m'
  have hexec : s.exec 1 m = some (.error (.raised (.undefinedVariable "z") 2), m') := rfl
  obtain ⟨hgrows, hinner⟩ := scopes_are_restored.2.1 s 1 m _ m' hexec
  exact ⟨hexec, hgrows, hinner rfl⟩

end Program

end Imp32
