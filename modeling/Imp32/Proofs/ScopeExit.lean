import Mathlib.Data.List.Induction
import Imp32.Proofs.OperandOrder

/-!
# Leaving a scope

What is left of the assignments that were made in a scope, when the scope is left. Other scopes may
have been entered and left in between. Assignments to variables that were bound outside have the
effect that they have outside, and all others have none (`scope_exit_keeps_outer_writes`).

While a scope is open, the environment consists of the frames that were opened, over those that were
there before (`Env.Over`). A name is bound on one side only, and never changes sides: it is assigned
to below if it is bound there, and above if it is not.
-/

namespace Imp32

/-! ## Operations on scopes -/

/-- What can be done to an environment. -/
inductive ScopeOp where
  /-- Enters a scope. -/
  | push
  /-- Leaves the innermost scope. -/
  | pop
  /-- Gives a variable a value. -/
  | assign (name : String) (value : Value)
deriving DecidableEq, Repr

namespace ScopeOp

/-- The number of scopes that are open after some operations, if `n` are open before them. There is
none if an operation leaves a scope that is not open. -/
def openAfter : Nat → List ScopeOp → Option Nat
  | n, [] => some n
  | n, .push :: ops => openAfter (n + 1) ops
  | 0, .pop :: _ => none
  | n + 1, .pop :: ops => openAfter n ops
  | n, .assign _ _ :: ops => openAfter n ops

/-- Exactly the scopes that the operations enter are left by them. -/
def WellNested (ops : List ScopeOp) : Prop := openAfter 0 ops = some 0

instance : DecidablePred WellNested := fun ops => decEq (openAfter 0 ops) (some 0)

/-- The variable that the operation assigns to, and its value. -/
def write? : ScopeOp → Option (String × Value)
  | .assign name value => some (name, value)
  | .push | .pop => none

/-- The assignments among some operations. -/
def writes (ops : List ScopeOp) : List (String × Value) := ops.filterMap write?

end ScopeOp

open ScopeOp

namespace Env

/-- Carries out an operation. -/
def step (env : Env) : ScopeOp → Except Fault Env
  | .push => .ok env.push
  | .pop => env.pop
  | .assign name value => .ok (env.assign name value)

/-- Carries out operations one after another, up to the first that fails. -/
def run (env : Env) (ops : List ScopeOp) : Except Fault Env := ops.foldlM step env

theorem run_nil (env : Env) : env.run [] = .ok env := rfl

theorem run_cons_of_step {env mid : Env} {op : ScopeOp} (h : env.step op = .ok mid)
    (ops : List ScopeOp) : env.run (op :: ops) = mid.run ops := by
  rw [run, List.foldlM_cons, h]
  rfl

theorem run_append_of_run {env mid : Env} {ops : List ScopeOp} (h : env.run ops = .ok mid)
    (more : List ScopeOp) : env.run (ops ++ more) = mid.run more := by
  rw [run] at h
  rw [run, List.foldlM_append, h]
  rfl

/-! ## Frames over others -/

/-- The environment has the frames of `own` on top of those of `base`, and no name is bound in
both. -/
structure Over (own base env : Env) : Prop where
  frames : env.frames = own.frames ++ base.frames
  apart {x : String} (h : (own.get? x).isSome = true) : base.get? x = none

namespace Over

variable {own own' base env : Env} {x : String}

theorem not_bound (h : Over own base env) (hx : (base.get? x).isSome = true) :
    own.get? x = none := by
  rcases own.unbound_or_bound x with hown | hown
  · exact hown
  · rw [h.apart hown] at hx
    cases hx

/-- A scope that was just entered is over the environment it was entered in. -/
theorem start (env : Env) : Over {} env env.push where
  frames := rfl
  apart {x} h := by
    have hnone : ({} : Env).get? x = none := by simp [get?, Env.frames]
    rw [hnone] at h
    cases h

theorem push (h : Over own base env) : Over own.push base env.push where
  frames := by rw [frames_push, frames_push, h.frames, List.cons_append]
  apart hx := h.apart (by rwa [get?_push] at hx)

theorem pop (h : Over own base env) (hpop : own.pop = .ok own') :
    ∃ env', env.pop = .ok env' ∧ Over own' base env' := by
  obtain ⟨inner, _ | ⟨frame, frames⟩⟩ := own
  · cases hpop
  · cases hpop
    have henv : env.pop = .ok ⟨frame, frames ++ base.frames⟩ := pop_of_frames h.frames
    refine ⟨_, henv, rfl, fun {x} hx => h.apart ?_⟩
    rw [get?_eq_find?, Env.frames, find?_cons, Option.isSome_or]
    rw [get?_eq_find?, Env.frames] at hx
    rw [hx, Bool.or_true]

/-- Leaving the last scope uncovers what is below. -/
theorem pop_last (h : Over own base env) (hlast : own.outer = []) : env.pop = .ok base := by
  have hframes := h.frames
  rw [Env.frames, Env.frames, hlast] at hframes
  exact pop_of_frames hframes

/-- A name that is bound below is assigned to there. -/
theorem assign_base (h : Over own base env) (hx : (base.get? x).isSome = true) (v : Value) :
    Over own (base.assign x v) (env.assign x v) where
  frames := by
    have hown : find? x own.frames = none := h.not_bound hx
    have hbase : (find? x base.frames).isSome = true := hx
    rw [frames_assign_append h.frames (List.cons_ne_nil _ _), hown, if_neg (by simp),
      if_pos hbase, frames_assign_of_bound hx]
  apart {y} hy := by
    have hne : x ≠ y := by
      rintro rfl
      rw [h.not_bound hx] at hy
      cases hy
    rw [get?_assign_of_ne base hne, h.apart hy]

/-- Any other name is assigned to above. -/
theorem assign_own (h : Over own base env) (hx : base.get? x = none) (v : Value) :
    Over (own.assign x v) base (env.assign x v) where
  frames := by
    have hbase : find? x base.frames = none := hx
    rw [frames_assign_append h.frames (List.cons_ne_nil _ _), hbase, frames_assign own]
    split <;> rfl
  apart {y} hy := by
    by_cases hne : x = y
    · rw [← hne, hx]
    · rw [get?_assign_of_ne own hne] at hy
      exact h.apart hy

end Over

/-! ## Assignments to bound variables -/

/-- The name is bound in a frame. -/
abbrev Binds (env : Env) (x : String) : Prop := ∃ frame ∈ env.frames, x ∈ frame

theorem isSome_get?_iff_binds {env : Env} {x : String} :
    (env.get? x).isSome = true ↔ env.Binds x :=
  isSome_find?_iff

theorem get?_eq_none_iff_not_binds {env : Env} {x : String} :
    env.get? x = none ↔ ¬ env.Binds x := by
  rw [← isSome_get?_iff_binds, Option.not_isSome_iff_eq_none]

/-- The assignments to variables that the environment binds. -/
def outerWrites (env : Env) (ws : List (String × Value)) : List (String × Value) :=
  ws.filter fun w => env.Binds w.1

theorem binds_assign_iff {env : Env} {x : String} (hx : env.Binds x) (v : Value) (y : String) :
    (env.assign x v).Binds y ↔ env.Binds y := by
  by_cases hne : x = y
  · subst hne
    rw [← isSome_get?_iff_binds, get?_assign_self]
    exact iff_of_true rfl hx
  · rw [← isSome_get?_iff_binds, get?_assign_of_ne env hne, isSome_get?_iff_binds]

/-- Assignments to bound variables bind no others, so that they do not change which assignments
count. -/
theorem outerWrites_assign {env : Env} {x : String} (hx : env.Binds x) (v : Value)
    (ws : List (String × Value)) : (env.assign x v).outerWrites ws = env.outerWrites ws :=
  List.filter_congr fun w _ => decide_eq_decide.mpr (binds_assign_iff hx v w.1)

theorem outerWrites_cons_of_binds {env : Env} {x : String} (hx : env.Binds x) (v : Value)
    (ws : List (String × Value)) :
    env.assignAll (env.outerWrites ((x, v) :: ws)) =
      (env.assign x v).assignAll ((env.assign x v).outerWrites ws) := by
  rw [outerWrites_assign hx, ← assignAll_cons env (x, v)]
  exact congrArg env.assignAll (List.filter_cons_of_pos (decide_eq_true hx))

theorem outerWrites_cons_of_not_binds {env : Env} {x : String} (hx : ¬ env.Binds x) (v : Value)
    (ws : List (String × Value)) : env.outerWrites ((x, v) :: ws) = env.outerWrites ws :=
  List.filter_cons_of_neg (by simpa using hx)

/-! ## Runs above a base -/

/-- Operations that leave only what was entered succeed. Above the base, one frame remains; below,
the assignments to variables that are bound there have been made. -/
theorem Over.run {own base env : Env} {ops : List ScopeOp} (h : Over own base env)
    (hops : openAfter own.outer.length ops = some 0) :
    ∃ own' env', env.run ops = .ok env' ∧ own'.outer = [] ∧
      Over own' (base.assignAll (base.outerWrites (writes ops))) env' := by
  induction ops generalizing own base env with
  | nil =>
    have hlast : own.outer = [] := List.length_eq_zero_iff.mp (Option.some.inj hops)
    exact ⟨own, env, rfl, hlast, h⟩
  | cons op ops ih =>
    cases op with
    | push =>
      rw [run_cons_of_step rfl]
      exact ih h.push hops
    | pop =>
      obtain ⟨inner, _ | ⟨frame, frames⟩⟩ := own
      · cases hops
      · obtain ⟨env', hpop, h'⟩ := h.pop rfl
        have hstep : env.step .pop = .ok env' := hpop
        rw [run_cons_of_step hstep]
        exact ih h' hops
    | assign x v =>
      rw [run_cons_of_step rfl]
      change ∃ own' env', (env.assign x v).run ops = .ok env' ∧ own'.outer = [] ∧
        Over own' (base.assignAll (base.outerWrites ((x, v) :: writes ops))) env'
      -- The base binds the same names throughout, so it tells on which side each name is.
      by_cases hx : base.Binds x
      · rw [outerWrites_cons_of_binds hx]
        exact ih (h.assign_base (isSome_get?_iff_binds.mpr hx) v) hops
      · rw [outerWrites_cons_of_not_binds hx]
        have hdepth : (own.assign x v).outer.length = own.outer.length :=
          Nat.succ.inj (own.depth_assign x v)
        refine ih (h.assign_own (get?_eq_none_iff_not_binds.mpr hx) v) ?_
        rw [hdepth]
        exact hops

/-! ## What the assignments leave -/

/-- Of the assignments to a variable, the last one counts. -/
theorem get?_assignAll (env : Env) (ws : List (String × Value)) (x : String) :
    (env.assignAll ws).get? x = (ws.reverse.lookup x).or (env.get? x) := by
  induction ws using List.reverseRecOn with
  | nil => rfl
  | append_singleton ws w ih =>
    rw [assignAll_concat, get?_assign, List.reverse_append, List.reverse_singleton,
      List.singleton_append, List.lookup_cons, ih]
    by_cases hw : w.1 = x
    · simp [hw]
    · have hne : (x == w.1) = false := by simpa using Ne.symm hw
      simp [hw, hne]

theorem lookup_filter_binds {env : Env} {x : String} (hx : env.Binds x)
    (ws : List (String × Value)) :
    (ws.filter fun w => env.Binds w.1).lookup x = ws.lookup x := by
  induction ws with
  | nil => rfl
  | cons w ws ih =>
    obtain ⟨y, v⟩ := w
    by_cases hy : x = y
    · subst hy
      simp [hx]
    · have hne : (x == y) = false := by simpa using hy
      by_cases hbinds : env.Binds y <;> simp [hbinds, List.lookup_cons, hne, ih]

theorem map_names_assignAll {env : Env} {ws : List (String × Value)}
    (h : ∀ w ∈ ws, env.Binds w.1) :
    (env.assignAll ws).frames.map Frame.names = env.frames.map Frame.names := by
  induction ws generalizing env with
  | nil => rfl
  | cons w ws ih =>
    rw [List.forall_mem_cons] at h
    have hbound : (env.get? w.1).isSome = true := isSome_get?_iff_binds.mpr h.1
    rw [assignAll_cons, ih fun u hu => (binds_assign_iff h.1 w.2 u.1).mpr (h.2 u hu),
      frames_assign_of_bound hbound, map_names_rebind]

end Env

/-- After a scope was entered, operations were carried out that leave all scopes they enter, and the
scope was left, the environment is the same as after only those of the assignments, in order, that
are to variables bound at the start. So every frame binds the names that it did; and each variable
that was bound has the value that was last assigned to it, if any was. -/
theorem scope_exit_keeps_outer_writes (env : Env) {ops : List ScopeOp} (h : WellNested ops) :
    let outer := (writes ops).filter fun w => ∃ frame ∈ env.frames, w.1 ∈ frame
    let env' := env.assignAll outer
    env.run (.push :: ops ++ [.pop]) = .ok env' ∧
    env'.frames.map Frame.names = env.frames.map Frame.names ∧
    ∀ x, (∃ frame ∈ env.frames, x ∈ frame) →
      env'.get? x = ((writes ops).reverse.lookup x).or (env.get? x) := by
  intro outer env'
  obtain ⟨own, inside, hrun, hlast, hover⟩ := (Env.Over.start env).run h
  have hpop : inside.step .pop = .ok env' := hover.pop_last hlast
  refine ⟨?_, Env.map_names_assignAll fun w hw => ?_, fun x hx => ?_⟩
  · have hpush : env.step .push = .ok env.push := rfl
    rw [List.cons_append, Env.run_cons_of_step hpush, Env.run_append_of_run hrun,
      Env.run_cons_of_step hpop, Env.run_nil]
  · exact of_decide_eq_true (List.mem_filter.mp hw).2
  · rw [Env.get?_assignAll, ← List.filter_reverse, Env.lookup_filter_binds hx]

/-- Two variables are declared in scopes and declared again; two are bound outside, one of them in
both frames. -/
theorem scope_exit_keeps_outer_writes_nested :
    let env : Env := { inner := (∅ : Frame).insert "x" 1,
                       outer := [((∅ : Frame).insert "x" 9).insert "y" 2] }
    let ops : List ScopeOp := [.assign "t" 5, .push, .assign "x" 3, .assign "u" 4, .pop,
      .assign "u" 6, .push, .assign "y" 7, .push, .assign "t" 8, .pop, .pop, .assign "x" 4]
    let env' : Env := { inner := (∅ : Frame).insert "x" 4,
                        outer := [((∅ : Frame).insert "x" 9).insert "y" 7] }
    WellNested ops ∧ env.run (.push :: ops ++ [.pop]) = .ok env' ∧
      env'.get? "x" = ((writes ops).reverse.lookup "x").or (env.get? "x") := by
  intro env ops env'
  have hops : WellNested ops := by decide
  obtain ⟨hrun, -, hget⟩ := scope_exit_keeps_outer_writes env hops
  have henv' : env.assignAll ((writes ops).filter fun w => ∃ frame ∈ env.frames, w.1 ∈ frame) =
    env' := rfl
  rw [henv'] at hrun hget
  exact ⟨hops, hrun, hget "x" ⟨env.inner, List.mem_cons_self, by decide⟩⟩

end Imp32
