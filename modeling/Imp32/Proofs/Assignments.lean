import Imp32.Proofs.Scopes

/-!
# Laws of assignment

Of two assignments to one variable the later one counts, and assignments to different variables may
be exchanged. A variable that is bound in no frame is forgotten with the scope in which it was
assigned to; any other keeps its new value.

Frame by frame, an assignment changes the bindings of its own variable only (`Env.bindings`), and
how it changes them depends on nothing else.
-/

namespace Imp32

/-! ## Frames -/

theorem Frame.getElem?_insert (frame : Frame) (x y : String) (v : Value) :
    (frame.insert x v)[y]? = if x = y then some v else frame[y]? := by
  simp only [Std.ExtTreeMap.getElem?_insert, Std.LawfulEqCmp.compare_eq_iff_eq]

theorem Frame.mem_insert_of_ne (frame : Frame) {x y : String} (h : x ≠ y) (v : Value) :
    y ∈ frame.insert x v ↔ y ∈ frame := by
  rw [Std.ExtTreeMap.mem_iff_isSome_getElem?, Std.ExtTreeMap.mem_iff_isSome_getElem?,
    Frame.getElem?_insert, if_neg h]

theorem Frame.insert_insert_self (frame : Frame) (x : String) (v w : Value) :
    (frame.insert x v).insert x w = frame.insert x w := by
  refine Std.ExtTreeMap.ext_getElem? fun y => ?_
  simp only [Frame.getElem?_insert]
  split <;> rfl

theorem Frame.insert_comm (frame : Frame) {x y : String} (h : x ≠ y) (v w : Value) :
    (frame.insert x v).insert y w = (frame.insert y w).insert x v := by
  refine Std.ExtTreeMap.ext_getElem? fun z => ?_
  simp only [Frame.getElem?_insert]
  by_cases hx : x = z
  · subst hx
    rw [if_neg h.symm, if_pos rfl, if_pos rfl]
  · rw [if_neg hx, if_neg hx]

namespace Env

theorem eq_of_frames_eq {e e' : Env} (h : e.frames = e'.frames) : e = e' := by
  cases e
  cases e'
  cases h
  rfl

theorem rebind_of_mem {x : String} {frame : Frame} (h : x ∈ frame) (v : Value)
    (frames : List Frame) :
    rebind x v (frame :: frames) = frame.insert x v :: frames := by
  rw [rebind, if_pos h]

theorem rebind_of_not_mem {x : String} {frame : Frame} (h : x ∉ frame) (v : Value)
    (frames : List Frame) :
    rebind x v (frame :: frames) = frame :: rebind x v frames := by
  rw [rebind, if_neg h]

theorem rebind_rebind_self (x : String) (v w : Value) (frames : List Frame) :
    rebind x w (rebind x v frames) = rebind x w frames := by
  induction frames with
  | nil => rfl
  | cons frame frames ih =>
    by_cases hmem : x ∈ frame
    · have hmem' : x ∈ frame.insert x v := Std.ExtTreeMap.mem_insert_self
      rw [rebind_of_mem hmem, rebind_of_mem hmem, rebind_of_mem hmem', Frame.insert_insert_self]
    · rw [rebind_of_not_mem hmem, rebind_of_not_mem hmem, rebind_of_not_mem hmem, ih]

theorem rebind_comm {x y : String} (h : x ≠ y) (v w : Value) (frames : List Frame) :
    rebind y w (rebind x v frames) = rebind x v (rebind y w frames) := by
  induction frames with
  | nil => rfl
  | cons frame frames ih =>
    have hx := Frame.mem_insert_of_ne frame h.symm w
    have hy := Frame.mem_insert_of_ne frame h v
    by_cases hxmem : x ∈ frame <;> by_cases hymem : y ∈ frame
    · rw [rebind_of_mem hxmem, rebind_of_mem hymem, rebind_of_mem (hy.mpr hymem),
        rebind_of_mem (hx.mpr hxmem), Frame.insert_comm frame h]
    · rw [rebind_of_mem hxmem, rebind_of_not_mem hymem, rebind_of_mem hxmem,
        rebind_of_not_mem (mt hy.mp hymem)]
    · rw [rebind_of_not_mem hxmem, rebind_of_mem hymem, rebind_of_mem hymem,
        rebind_of_not_mem (mt hx.mp hxmem)]
    · rw [rebind_of_not_mem hxmem, rebind_of_not_mem hymem, rebind_of_not_mem hymem,
        rebind_of_not_mem hxmem, ih]

/-! ## Environments -/

theorem unbound_or_bound (env : Env) (x : String) :
    env.get? x = none ∨ (env.get? x).isSome = true := by
  cases env.get? x with
  | none => exact .inl rfl
  | some v => exact .inr rfl

theorem frames_assign_of_bound {env : Env} {x : String} (h : (env.get? x).isSome = true)
    (v : Value) : (env.assign x v).frames = rebind x v env.frames := by
  rw [get?_eq_find?] at h
  rw [frames_assign, if_pos h]

theorem frames_assign_of_unbound {env : Env} {x : String} (h : env.get? x = none) (v : Value) :
    (env.assign x v).frames = env.inner.insert x v :: env.outer := by
  rw [get?_eq_find?] at h
  rw [frames_assign, h]
  rfl

theorem get?_assign_self (env : Env) (x : String) (v : Value) :
    (env.assign x v).get? x = some v := by
  rw [get?_assign, if_pos rfl]

theorem get?_assign_of_ne (env : Env) {x y : String} (h : x ≠ y) (v : Value) :
    (env.assign x v).get? y = env.get? y := by
  rw [get?_assign, if_neg h]

/-- A later assignment to the same variable makes an earlier one void. -/
theorem assign_assign_self (env : Env) (x : String) (v w : Value) :
    (env.assign x v).assign x w = env.assign x w := by
  apply eq_of_frames_eq
  have hbound : ((env.assign x v).get? x).isSome = true := by
    rw [get?_assign_self]
    rfl
  rw [frames_assign_of_bound hbound]
  rcases env.unbound_or_bound x with hx | hx
  · have hmem : x ∈ env.inner.insert x v := Std.ExtTreeMap.mem_insert_self
    rw [frames_assign_of_unbound hx, frames_assign_of_unbound hx, rebind_of_mem hmem,
      Frame.insert_insert_self]
  · rw [frames_assign_of_bound hx, frames_assign_of_bound hx, rebind_rebind_self]

/-- One variable is declared in the innermost frame, and the other one is changed where it is. -/
theorem assign_comm_of_unbound (env : Env) {x y : String} (h : x ≠ y) (v w : Value)
    (hx : env.get? x = none) (hy : (env.get? y).isSome = true) :
    (env.assign x v).assign y w = (env.assign y w).assign x v := by
  apply eq_of_frames_eq
  have hx' : (env.assign y w).get? x = none := by rw [get?_assign_of_ne env h.symm, hx]
  have hy' : ((env.assign x v).get? y).isSome = true := by rw [get?_assign_of_ne env h, hy]
  have hframes := frames_assign_of_bound hy w
  have hmem := Frame.mem_insert_of_ne env.inner h v
  rw [frames_assign_of_bound hy', frames_assign_of_unbound hx, frames_assign_of_unbound hx']
  by_cases hinner : y ∈ env.inner
  · rw [frames, frames, rebind_of_mem hinner, List.cons.injEq] at hframes
    rw [rebind_of_mem (hmem.mpr hinner), hframes.1, hframes.2, Frame.insert_comm env.inner h]
  · rw [frames, frames, rebind_of_not_mem hinner, List.cons.injEq] at hframes
    rw [rebind_of_not_mem (mt hmem.mp hinner), hframes.1, hframes.2]

/-- Assignments to different variables may be exchanged. -/
theorem assign_comm (env : Env) {x y : String} (h : x ≠ y) (v w : Value) :
    (env.assign x v).assign y w = (env.assign y w).assign x v := by
  have hxget := get?_assign_of_ne env h.symm w
  have hyget := get?_assign_of_ne env h v
  rcases env.unbound_or_bound x with hx | hx <;> rcases env.unbound_or_bound y with hy | hy
  · have hframes := frames_assign_of_unbound hx v
    have hframes' := frames_assign_of_unbound hy w
    simp only [frames, List.cons.injEq] at hframes hframes'
    apply eq_of_frames_eq
    rw [frames_assign_of_unbound (hxget.trans hx), frames_assign_of_unbound (hyget.trans hy),
      hframes.1, hframes.2, hframes'.1, hframes'.2, Frame.insert_comm env.inner h]
  · exact assign_comm_of_unbound env h v w hx hy
  · exact (assign_comm_of_unbound env h.symm w v hy hx).symm
  · have hx' : ((env.assign y w).get? x).isSome = true := by rw [hxget, hx]
    have hy' : ((env.assign x v).get? y).isSome = true := by rw [hyget, hy]
    apply eq_of_frames_eq
    rw [frames_assign_of_bound hx', frames_assign_of_bound hy', frames_assign_of_bound hx,
      frames_assign_of_bound hy, rebind_comm h]

/-- What is assigned in a scope of its own is kept if the variable is bound outside. -/
theorem pop_assign_push (env : Env) (x : String) (v : Value) :
    (env.push.assign x v).pop = .ok (if (env.get? x).isSome then env.assign x v else env) := by
  rcases env.unbound_or_bound x with hx | hx
  · have hpush : env.push.get? x = none := by rw [get?_push, hx]
    rw [hx]
    exact pop_of_frames (frames_assign_of_unbound hpush v)
  · have hpush : (env.push.get? x).isSome = true := by rw [get?_push, hx]
    have hempty : x ∉ (∅ : Frame) := Std.ExtTreeMap.not_mem_empty
    have hframes : (env.push.assign x v).frames = ∅ :: (env.assign x v).frames := by
      rw [frames_assign_of_bound hpush, frames_push, rebind_of_not_mem hempty,
        frames_assign_of_bound hx]
    rw [if_pos hx]
    exact pop_of_frames hframes

/-! ## Bindings frame by frame -/

/-- What each frame binds a name to, innermost first. -/
def bindings (env : Env) (x : String) : List (Option Value) :=
  env.frames.map fun frame => frame[x]?

theorem get?_eq_findSome?_bindings (env : Env) (x : String) :
    env.get? x = (env.bindings x).findSome? id := by
  rw [bindings, List.findSome?_map]
  rfl

theorem get?_eq_of_bindings_eq {e e' : Env} {x : String} (h : e.bindings x = e'.bindings x) :
    e.get? x = e'.get? x := by
  rw [get?_eq_findSome?_bindings, get?_eq_findSome?_bindings, h]

theorem bindings_push (env : Env) (x : String) :
    env.push.bindings x = none :: env.bindings x := by
  simp [bindings, frames_push]

/-- Environments that bind a name alike are as deep, and do so after leaving a scope. -/
theorem exists_pop_of_bindings_eq {e e' f' : Env} {x : String} (h : e.bindings x = e'.bindings x)
    (hpop : e'.pop = .ok f') : ∃ f, e.pop = .ok f ∧ f.bindings x = f'.bindings x := by
  obtain ⟨inner', _ | ⟨frame', frames'⟩⟩ := e'
  · cases hpop
  · cases hpop
    have hrest := (List.cons.inj h).2
    obtain ⟨inner, _ | ⟨frame, frames⟩⟩ := e
    · exact absurd hrest (by simp)
    · exact ⟨⟨frame, frames⟩, rfl, hrest⟩

theorem map_rebind_of_ne {x y : String} (h : x ≠ y) (v : Value) (frames : List Frame) :
    (rebind x v frames).map (fun frame => frame[y]?) = frames.map fun frame => frame[y]? := by
  induction frames with
  | nil => rfl
  | cons frame frames ih =>
    by_cases hmem : x ∈ frame
    · rw [rebind_of_mem hmem, List.map_cons, List.map_cons, Frame.getElem?_insert, if_neg h]
    · rw [rebind_of_not_mem hmem, List.map_cons, List.map_cons, ih]

/-- An assignment to another name changes no binding of this one. -/
theorem bindings_assign_of_ne (env : Env) {x y : String} (h : x ≠ y) (v : Value) :
    (env.assign x v).bindings y = env.bindings y := by
  rcases env.unbound_or_bound x with hx | hx
  · rw [bindings, frames_assign_of_unbound hx, List.map_cons, Frame.getElem?_insert, if_neg h]
    rfl
  · rw [bindings, frames_assign_of_bound hx, map_rebind_of_ne h]
    rfl

theorem map_rebind_congr {x : String} (v : Value) {frames frames' : List Frame}
    (h : (frames.map fun frame => frame[x]?) = frames'.map fun frame => frame[x]?) :
    (rebind x v frames).map (fun frame => frame[x]?) =
      (rebind x v frames').map fun frame => frame[x]? := by
  induction frames generalizing frames' with
  | nil =>
    obtain rfl : frames' = [] := by simpa using h.symm
    rfl
  | cons frame frames ih =>
    obtain ⟨frame', frames', rfl⟩ : ∃ f fs, frames' = f :: fs := by
      cases frames' with
      | nil => cases h
      | cons f fs => exact ⟨f, fs, rfl⟩
    rw [List.map_cons, List.map_cons, List.cons.injEq] at h
    have hmem : x ∈ frame ↔ x ∈ frame' := by
      rw [Std.ExtTreeMap.mem_iff_isSome_getElem?, Std.ExtTreeMap.mem_iff_isSome_getElem?, h.1]
    by_cases hx : x ∈ frame
    · rw [rebind_of_mem hx, rebind_of_mem (hmem.mp hx), List.map_cons, List.map_cons,
        Frame.getElem?_insert, Frame.getElem?_insert, if_pos rfl, if_pos rfl, h.2]
    · rw [rebind_of_not_mem hx, rebind_of_not_mem (mt hmem.mpr hx), List.map_cons, List.map_cons,
        h.1, ih h.2]

/-- How an assignment changes the bindings of its name depends on these alone. -/
theorem bindings_assign_congr {e e' : Env} {x : String} (h : e.bindings x = e'.bindings x)
    (v : Value) : (e.assign x v).bindings x = (e'.assign x v).bindings x := by
  have hget := get?_eq_of_bindings_eq h
  rcases e.unbound_or_bound x with hx | hx
  · have hx' : e'.get? x = none := by rw [← hget, hx]
    have houter : (e.outer.map fun frame => frame[x]?) = e'.outer.map fun frame => frame[x]? :=
      (List.cons.inj h).2
    rw [bindings, bindings, frames_assign_of_unbound hx, frames_assign_of_unbound hx',
      List.map_cons, List.map_cons, Frame.getElem?_insert, Frame.getElem?_insert, if_pos rfl,
      if_pos rfl, houter]
  · have hx' : (e'.get? x).isSome = true := by rw [← hget, hx]
    rw [bindings, bindings, frames_assign_of_bound hx, frames_assign_of_bound hx']
    exact map_rebind_congr v h

end Env

end Imp32
