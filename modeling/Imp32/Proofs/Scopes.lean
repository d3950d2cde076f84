import Imp32.Proofs.Simulation

/-!
# Scopes above a base

An environment whose inner frames were opened by scopes, above the frames that were there before. A
name that no inner frame binds is looked up and changed in the frames below, and a name that no
frame binds is declared in an inner one. So two environments with the same inner frames behave alike
if the frames below them do (`Env.bisim_above`).
-/

namespace Imp32

namespace Env

/-! ## Lists of frames -/

/-- The value of a name in the first of some frames that binds it. -/
def find? (name : String) (frames : List Frame) : Option Value :=
  frames.findSome? fun frame => frame[name]?

/-- Binds a name in the first frame. -/
def declare (name : String) (value : Value) : List Frame → List Frame
  | [] => []
  | frame :: frames => frame.insert name value :: frames

theorem get?_eq_find? (env : Env) (name : String) : env.get? name = find? name env.frames := rfl

@[simp] theorem find?_cons (name : String) (frame : Frame) (frames : List Frame) :
    find? name (frame :: frames) = frame[name]?.or (find? name frames) := by
  unfold find?
  rw [List.findSome?_cons]
  cases frame[name]? <;> rfl

theorem find?_append (name : String) (own base : List Frame) :
    find? name (own ++ base) = (find? name own).or (find? name base) :=
  List.findSome?_append

theorem isSome_find?_iff {name : String} {frames : List Frame} :
    (find? name frames).isSome = true ↔ ∃ frame ∈ frames, name ∈ frame := by
  simp [find?, List.findSome?_isSome_iff]

theorem rebind_append (name : String) (value : Value) (own base : List Frame) :
    rebind name value (own ++ base) =
      if (find? name own).isSome then rebind name value own ++ base
      else own ++ rebind name value base := by
  induction own with
  | nil => rfl
  | cons frame frames ih =>
    rw [List.cons_append, rebind, rebind, ih]
    by_cases hf : name ∈ frame
    · simp [hf]
    · simp only [if_neg hf, find?_cons, Std.ExtTreeMap.getElem?_eq_none hf, Option.none_or]
      split <;> rfl

theorem rebind_ne_nil {frames : List Frame} (h : frames ≠ []) (name : String) (value : Value) :
    rebind name value frames ≠ [] := by
  rw [← List.length_pos_iff, length_rebind, List.length_pos_iff]
  exact h

/-- An assignment changes the frame that binds the name, or else the innermost one. -/
theorem frames_assign (env : Env) (name : String) (value : Value) :
    (env.assign name value).frames =
      if (find? name env.frames).isSome then rebind name value env.frames
      else declare name value env.frames := by
  simp only [isSome_find?_iff, frames, assign]
  by_cases hinner : name ∈ env.inner
  · simp [hinner, rebind]
  · by_cases houter : ∃ frame ∈ env.outer, name ∈ frame
    · simp [hinner, houter, rebind]
    · simp [hinner, houter, declare]

theorem frames_assign_append {env : Env} {own base : List Frame} (henv : env.frames = own ++ base)
    (hown : own ≠ []) (name : String) (value : Value) :
    (env.assign name value).frames =
      if (find? name own).isSome then rebind name value own ++ base
      else if (find? name base).isSome then own ++ rebind name value base
      else declare name value own ++ base := by
  rw [frames_assign, henv, find?_append, rebind_append]
  cases find? name own with
  | some v => rfl
  | none =>
    cases find? name base with
    | some v => rfl
    | none =>
      cases own with
      | nil => exact absurd rfl hown
      | cons frame frames => rfl

theorem length_declare (name : String) (value : Value) (frames : List Frame) :
    (declare name value frames).length = frames.length := by
  cases frames <;> rfl

theorem frames_push (env : Env) : env.push.frames = ∅ :: env.frames := rfl

theorem pop_of_frames {env env' : Env} {frame : Frame} (h : env.frames = frame :: env'.frames) :
    env.pop = .ok env' := by
  obtain ⟨inner, outer⟩ := env
  cases h
  rfl

/-! ## Inner frames above a base -/

/-- What a relation between lists of frames must satisfy for scopes above them to behave alike. -/
structure Beneath (F : Footprint) (B : List Frame → List Frame → Prop) : Prop where
  /-- Names that are assigned to are also read. -/
  reads {name : String} (hname : F.declares name ∨ F.updates name) : F.reads name
  /-- Names that are read have the same value. -/
  find? {base base' : List Frame} {name : String} (h : B base base') (hname : F.reads name) :
    Env.find? name base = Env.find? name base'
  /-- Names that are bound may be assigned to. -/
  rebind {base base' : List Frame} {name : String} (h : B base base')
    (hname : F.declares name ∨ F.updates name) (hbound : (Env.find? name base).isSome = true)
    (value : Value) : B (Env.rebind name value base) (Env.rebind name value base')

/-- The same inner frames, opened by one scope and `n` more, above frames that are related. -/
def Above (B : List Frame → List Frame → Prop) (n : Nat) (e e' : Env) : Prop :=
  ∃ own base base', own.length = n + 1 ∧ e.frames = own ++ base ∧ e'.frames = own ++ base' ∧
    B base base'

variable {F : Footprint} {B : List Frame → List Frame → Prop}

theorem Above.assign (hB : Beneath F B) {n : Nat} {e e' : Env} (h : Above B n e e') {name : String}
    (hname : F.declares name ∨ F.updates name) (value : Value) :
    Above B n (e.assign name value) (e'.assign name value) := by
  obtain ⟨own, base, base', hlen, he, he', hbase⟩ := h
  have hown : own ≠ [] := List.ne_nil_of_length_eq_add_one hlen
  rw [Above, frames_assign_append he hown, frames_assign_append he' hown,
    ← hB.find? hbase (hB.reads hname)]
  -- The name is bound in a frame above, else in one below, else nowhere.
  split
  · exact ⟨_, _, _, (length_rebind name value own).trans hlen, rfl, rfl, hbase⟩
  · split
    · rename_i hbound
      exact ⟨own, _, _, hlen, rfl, rfl, hB.rebind hbase hname hbound value⟩
    · exact ⟨_, _, _, (length_declare name value own).trans hlen, rfl, rfl, hbase⟩

/-- Scopes above frames that behave alike behave alike. -/
theorem bisim_above (hB : Beneath F B) : Bisim F (Above B) where
  related n :=
    { get? := fun {e e' name} h hname => by
        obtain ⟨own, base, base', -, he, he', hbase⟩ := h
        rw [get?_eq_find?, get?_eq_find?, he, he', find?_append, find?_append,
          hB.find? hbase hname]
      declare := fun h hname value => h.assign hB (.inl hname) value
      update := fun h hname _ value => h.assign hB (.inr hname) value }
  push {n e e'} h := by
    obtain ⟨own, base, base', hlen, he, he', hbase⟩ := h
    refine ⟨∅ :: own, base, base', by rw [List.length_cons, hlen], ?_, ?_, hbase⟩
    · rw [frames_push, he, List.cons_append]
    · rw [frames_push, he', List.cons_append]
  pop {n e e'} h := by
    obtain ⟨own, base, base', hlen, he, he', hbase⟩ := h
    obtain ⟨frame, _, rfl⟩ := List.exists_cons_of_length_eq_add_one hlen
    obtain ⟨inner, outer, rfl⟩ := List.exists_cons_of_length_eq_add_one (Nat.succ.inj hlen)
    exact ⟨⟨inner, outer ++ base⟩, ⟨inner, outer ++ base'⟩, pop_of_frames he, pop_of_frames he',
      inner :: outer, base, base', Nat.succ.inj hlen, rfl, rfl, hbase⟩

end Env

/-! ## Leaving the lowest scope -/

section Leave

variable {F : Footprint} {B : List Frame → List Frame → Prop}

/-- An action in a scope of its own keeps the relation between the frames below. -/
theorem Exec.Sim.inScope_above {α : Type}
    (hne : ∀ {base base'}, B base base' → base ≠ [] ∧ base' ≠ []) {x y : Exec α}
    (hxy : Sim (Env.Above B 0) x y) :
    Sim (fun e e' => B e.frames e'.frames) (Exec.inScope x) (Exec.inScope y) := by
  intro m m' hm
  have henter : Machine.Lift (Env.Above B 0) m.enter m'.enter :=
    ⟨⟨[∅], m.env.frames, m'.env.frames, rfl, rfl, rfl, hm.1⟩, hm.2⟩
  unfold Exec.inScope
  rcases hxy.ends henter with ⟨hx, hy⟩ | ⟨r, k, k', hx, hy, habove, hsink⟩
  · rw [hx, hy]
    exact .none
  · obtain ⟨own, base, base', hlen, hk, hk', hbase⟩ := habove
    obtain ⟨frame, rfl⟩ := List.length_eq_one_iff.mp hlen
    obtain ⟨inner, outer, rfl⟩ := List.exists_cons_of_ne_nil (hne hbase).1
    obtain ⟨inner', outer', rfl⟩ := List.exists_cons_of_ne_nil (hne hbase).2
    have hpop : k.env.pop = .ok ⟨inner, outer⟩ := Env.pop_of_frames hk
    have hpop' : k'.env.pop = .ok ⟨inner', outer'⟩ := Env.pop_of_frames hk'
    rw [hx, hy]
    simp only [Machine.leave_of_pop hpop, Machine.leave_of_pop hpop']
    exact .some ⟨rfl, hbase, hsink⟩

/-- A statement that opens a scope keeps the relation between the frames it starts with. -/
theorem Stmt.exec_sim_above (hB : Env.Beneath F B)
    (hne : ∀ {base base'}, B base base' → base ≠ [] ∧ base' ≠ []) {s : Stmt}
    (hs : s.opensScope = true) (h : ∀ n ∈ s.exprNodes, n.Within F) (budget : Nat) :
    Exec.Sim (fun e e' => B e.frames e'.frames) (s.exec budget) (s.exec budget) := by
  obtain ⟨x, hx, hsim⟩ := exec_eq_inScope (Env.bisim_above hB) hs h budget
  rw [hx]
  exact (hsim 0).inScope_above hne

end Leave

end Imp32
