import Imp32.Proofs.Assignments

/-!
# Written names

A tree changes the variables that it names as targets, and no others. Plain and compound
assignments have a target, and so have steps, if it is a variable. In every frame that is there
before a statement runs, and however the run ends, each name that is not a target of the statement
is bound as before (`Stmt.bindings_exec`). The frames that the run opens are gone by then, also
after a fault.
-/

namespace Imp32

/-! ## Targets -/

/-- The variable that a node stores a value in. -/
def Expr.writes? : Expr → Option String
  | .unary .increment (.var name _) _ => some name
  | .unary .decrement (.var name _) _ => some name
  | .binary (.var name _) .assign _ _ => some name
  | .binary (.var name _) (.compound _) _ _ => some name
  | _ => none

/-- The variables that an expression may store a value in. -/
def Expr.written (e : Expr) : List String := e.nodes.filterMap Expr.writes?

/-- The variables that a statement may store a value in. -/
def Stmt.written (s : Stmt) : List String := s.exprNodes.filterMap Expr.writes?

/-- The footprint of a tree that stores values in certain variables only. -/
def Footprint.writing (P : String → Prop) : Footprint := ⟨fun _ => True, P, P⟩

theorem Expr.within_writing {P : String → Prop} {n : Expr}
    (h : ∀ name, n.writes? = some name → P name) : n.Within (.writing P) := by
  unfold Within
  split
  case h_1 => trivial
  case h_6 => trivial
  all_goals exact h _ rfl

theorem Expr.within_writing_of_mem {ns : List Expr} {P : String → Prop}
    (h : ∀ name ∈ ns.filterMap Expr.writes?, P name) : ∀ n ∈ ns, n.Within (.writing P) := by
  intro n hn
  refine within_writing fun name hname => h name ?_
  exact List.mem_filterMap.mpr ⟨n, hn, hname⟩

/-! ## Bindings of other names -/

namespace Env

/-- The same environment, with the given bindings of a name below the scopes that were entered,
which do not bind it. -/
def Keeping (x : String) (bs : List (Option Value)) (n : Nat) (e e' : Env) : Prop :=
  e = e' ∧ e.bindings x = List.replicate n none ++ bs

theorem Keeping.assign {x y : String} {bs : List (Option Value)} {n : Nat} {e e' : Env}
    (h : Keeping x bs n e e') (hne : y ≠ x) (v : Value) :
    Keeping x bs n (e.assign y v) (e'.assign y v) := by
  obtain ⟨rfl, hbs⟩ := h
  exact ⟨rfl, by rw [bindings_assign_of_ne e hne, hbs]⟩

theorem bisim_keeping {x : String} {bs : List (Option Value)} (hne : bs ≠ []) :
    Bisim (.writing (· ≠ x)) (Keeping x bs) where
  related n :=
    { get? := fun h _ => by rw [h.1]
      declare := fun h hname value => h.assign hname value
      update := fun h hname _ value => h.assign hname value }
  push {n e e'} h := by
    obtain ⟨rfl, hbs⟩ := h
    refine ⟨rfl, ?_⟩
    rw [bindings_push, hbs, List.replicate_succ, List.cons_append]
  pop {n e e'} h := by
    obtain ⟨rfl, hbs⟩ := h
    rw [List.replicate_succ, List.cons_append] at hbs
    obtain ⟨inner, outer⟩ := e
    have houter : outer.map (fun frame => frame[x]?) = List.replicate n none ++ bs :=
      (List.cons.inj hbs).2
    cases outer with
    | nil => exact absurd houter.symm (by simp [hne])
    | cons frame frames => exact ⟨⟨frame, frames⟩, ⟨frame, frames⟩, rfl, rfl, rfl, houter⟩

end Env

/-- However a statement ends, a name that it does not write is bound as before in every frame. -/
theorem Stmt.bindings_exec {s : Stmt} {x : String} (hx : x ∉ s.written) {budget : Nat}
    {m m' : Machine} {r : Except Fault Unit} (h : s.exec budget m = some (r, m')) :
    m'.env.bindings x = m.env.bindings x := by
  have hne : m.env.bindings x ≠ [] := by simp [Env.bindings, Env.frames]
  have hwithin : ∀ n ∈ s.exprNodes, n.Within (.writing (· ≠ x)) := by
    refine Expr.within_writing_of_mem fun name hname heq => ?_
    rw [heq] at hname
    exact hx hname
  have hsim := exec_sim (Env.bisim_keeping hne) hwithin budget 0
  have hstart : Machine.Lift (Env.Keeping x (m.env.bindings x) 0) m m := ⟨⟨rfl, rfl⟩, rfl⟩
  obtain ⟨_, _, hlift⟩ := hsim.of_eq_some hstart h
  exact hlift.1.2

end Imp32
