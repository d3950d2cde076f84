import Imp32.Proofs.ScopeDiscipline

/-!
# No frame hides a binding of another

Whatever is done with an environment from the start on, no name is ever bound in two frames
(`no_frame_hides_another`). So it does not matter from which end frames are searched.

The operations are all that a caller may do: assigning, entering and leaving scopes, evaluating and
running trees, and doing any of this in a scope, which is left at the end. Nothing obliges the
caller to leave as many scopes as were entered, inside a scope or outside, and what follows an
operation does not depend on whether it succeeded.
-/

namespace Imp32

/-! ## Operations -/

/-- An operation on a machine. -/
inductive Op where
  /-- Gives a variable a value. -/
  | assign (name : String) (value : Value)
  /-- Enters a scope. -/
  | push
  /-- Leaves the innermost scope. -/
  | pop
  /-- Evaluates an expression. -/
  | eval (e : Expr)
  /-- Tests a condition. -/
  | condition (e : Expr)
  /-- Runs a statement. -/
  | statement (s : Stmt)
  /-- Runs statements in a scope. -/
  | block (body : List Stmt)
  /-- Runs a program. -/
  | program (p : Program)
  /-- Does something in a scope, and ends with the given result. -/
  | scoped (ops : List Op) (result : Except Fault Unit)

/-- Runs an action whose fault, if it has one, is ignored. -/
def Exec.attempt (x : Exec Unit) : Exec Unit := fun m =>
  match x m with
  | some (_, m) => some (.ok (), m)
  | none => none

namespace Op

mutual

/-- Runs an operation. -/
def exec (budget : Nat) : Op → Exec Unit
  | .assign name value => fun m => some (.ok (), { m with env := m.env.assign name value })
  | .push => fun m => some (.ok (), m.enter)
  | .pop => fun m => some (m.leave (.ok ()))
  | .eval e => .perform e
  | .condition e => do let _ ← .test e
  | .statement s => s.exec budget
  | .block body => .inScope (Stmt.execAll budget body)
  | .program p => p.exec budget
  | .scoped ops result => .inScope do
    execAll budget ops
    liftM result

/-- Runs operations one after another, whatever their results are. -/
def execAll (budget : Nat) : List Op → Exec Unit
  | [] => return
  | op :: ops => do
    (op.exec budget).attempt
    execAll budget ops

end

end Op

/-! ## Invariants of environments -/

/-- A property that no change to an environment destroys. -/
structure Env.Invariant (I : Env → Prop) : Prop where
  assign {env : Env} (h : I env) (name : String) (value : Value) : I (env.assign name value)
  push {env : Env} (h : I env) : I env.push
  pop {env env' : Env} (h : I env) (hpop : env.pop = .ok env') : I env'

/-- The same environment, with the property and with more scopes than were entered. -/
def Env.Holding (I : Env → Prop) (n : Nat) (e e' : Env) : Prop := e = e' ∧ I e ∧ n < e.depth

theorem Env.bisim_holding {I : Env → Prop} (hI : Invariant I) : Bisim .all (Holding I) where
  related n :=
    { get? := fun h _ => by rw [h.1]
      declare := fun h _ value => ⟨by rw [h.1], hI.assign h.2.1 _ value, by
        rw [depth_assign]
        exact h.2.2⟩
      update := fun h _ _ value => ⟨by rw [h.1], hI.assign h.2.1 _ value, by
        rw [depth_assign]
        exact h.2.2⟩ }
  push {n e e'} h := by
    obtain ⟨rfl, he, hdepth⟩ := h
    exact ⟨rfl, hI.push he, Nat.succ_lt_succ hdepth⟩
  pop {n e e'} h := by
    obtain ⟨rfl, he, hdepth⟩ := h
    obtain ⟨inner, _ | ⟨frame, frames⟩⟩ := e
    · exact absurd hdepth (by simp [depth])
    · exact ⟨⟨frame, frames⟩, ⟨frame, frames⟩, rfl, rfl, rfl, hI.pop he rfl,
        Nat.lt_of_succ_lt_succ hdepth⟩

namespace Exec

variable {α β : Type} {I : Env → Prop}

/-- However the action ends, the environment keeps the property. -/
def Keeps (I : Env → Prop) (x : Exec α) : Prop :=
  ∀ m r m', I m.env → x m = some (r, m') → I m'.env

theorem Keeps.of_sim {x : Exec α} (h : Sim (Env.Holding I 0) x x) : Keeps I x := by
  intro m r m' hm hx
  have hstart : Machine.Lift (Env.Holding I 0) m m := ⟨⟨rfl, hm, Nat.succ_pos _⟩, rfl⟩
  obtain ⟨k, -, hk⟩ := h.of_eq_some hstart hx
  exact hk.1.2.1

theorem keeps_pure (a : α) : Keeps I (pure a) := by
  intro m r m' hm hx
  cases hx
  exact hm

theorem Keeps.bind {x : Exec α} {f : α → Exec β} (hx : Keeps I x) (hf : ∀ a, Keeps I (f a)) :
    Keeps I (x >>= f) := by
  intro m r m' hm h
  rcases bind_eq_some_iff.mp h with ⟨fault, hfault, -⟩ | ⟨a, k, hk, hm'⟩
  · exact hx m _ m' hm hfault
  · exact hf a k r m' (hx m _ k hm hk) hm'

theorem Keeps.attempt {x : Exec Unit} (hx : Keeps I x) : Keeps I x.attempt := by
  intro m r m' hm h
  unfold Exec.attempt at h
  cases hend : x m with
  | none =>
    rw [hend] at h
    cases h
  | some p =>
    obtain ⟨result, k⟩ := p
    rw [hend] at h
    cases h
    exact hx m _ _ hm hend

/-- Leaving a scope fails if there is none to leave, and then changes nothing. -/
theorem keeps_leave (hI : Env.Invariant I) {m : Machine} (hm : I m.env) (result : Except Fault α) :
    I (m.leave result).2.env := by
  unfold Machine.leave
  split
  · rename_i env hpop
    exact hI.pop hm hpop
  · cases result <;> exact hm

theorem Keeps.inScope (hI : Env.Invariant I) {x : Exec α} (hx : Keeps I x) :
    Keeps I (Exec.inScope x) := by
  intro m r m' hm h
  unfold Exec.inScope at h
  cases hend : x m.enter with
  | none =>
    rw [hend] at h
    cases h
  | some p =>
    obtain ⟨result, k⟩ := p
    rw [hend] at h
    have hk := hx m.enter result k (hI.push hm) hend
    have hleave := keeps_leave hI hk result
    rw [Option.some.inj h] at hleave
    exact hleave

end Exec

open Exec

namespace Op

mutual

/-- An operation keeps what no change to an environment destroys. -/
theorem keeps_exec {I : Env → Prop} (hI : Env.Invariant I) (budget : Nat) (op : Op) :
    Keeps I (op.exec budget) := by
  have hsim := Env.bisim_holding hI
  match op with
  | .assign name value =>
    intro m r m' hm h
    cases h
    exact hI.assign hm name value
  | .push =>
    intro m r m' hm h
    cases h
    exact hI.push hm
  | .pop =>
    intro m r m' hm h
    have hleave := keeps_leave hI hm (.ok ())
    rw [Option.some.inj h] at hleave
    exact hleave
  | .eval e => exact .of_sim (Stmt.sim_perform (hsim.related 0) fun n _ => n.within_all)
  | .condition e =>
    have htest := Stmt.sim_test (hsim.related 0) fun n (_ : n ∈ e.nodes) => n.within_all
    exact (Keeps.of_sim htest).bind fun _ => keeps_pure ()
  | .statement s => exact .of_sim (Stmt.exec_sim hsim (fun n _ => n.within_all) budget 0)
  | .block body =>
    have hbody := Stmt.execAll_sim hsim (fun n (_ : n ∈ Stmt.exprNodesAll body) => n.within_all)
      budget 0
    exact (Keeps.of_sim hbody).inScope hI
  | .program p => exact .of_sim (Stmt.execAll_sim hsim (fun n _ => n.within_all) budget 0)
  | .scoped ops result =>
    refine ((keeps_execAll hI budget ops).bind fun _ => ?_).inScope hI
    intro m r m' hm h
    cases h
    exact hm

/-- So do operations one after another. -/
theorem keeps_execAll {I : Env → Prop} (hI : Env.Invariant I) (budget : Nat) (ops : List Op) :
    Keeps I (execAll budget ops) := by
  match ops with
  | [] => exact keeps_pure ()
  | op :: ops =>
    exact (keeps_exec hI budget op).attempt.bind fun _ => keeps_execAll hI budget ops

end

end Op

/-! ## Names bound once -/

namespace Env

/-- No name is bound in more than one frame. -/
def Unshadowed (env : Env) : Prop :=
  ∀ name, env.frames.countP (fun frame => name ∈ frame) ≤ 1

theorem mem_insert_iff {frame : Frame} {name other : String} {value : Value} :
    other ∈ frame.insert name value ↔ other = name ∨ other ∈ frame :=
  Set.ext_iff.mp (Frame.names_insert frame name value) other

theorem countP_rebind (name other : String) (value : Value) (frames : List Frame) :
    (rebind name value frames).countP (fun frame => other ∈ frame) =
      frames.countP fun frame => other ∈ frame := by
  classical
  have hcount (fs : List Frame) : fs.countP (fun frame => other ∈ frame) =
      (fs.map Frame.names).countP fun names => other ∈ names := by
    rw [List.countP_map]
    refine List.countP_congr fun frame _ => ?_
    simp only [Function.comp_apply, decide_eq_true_eq]
    rfl
  rw [hcount, hcount, map_names_rebind]

theorem countP_eq_zero_of_find?_eq_none {name : String} {frames : List Frame}
    (h : ¬ (find? name frames).isSome = true) :
    frames.countP (fun frame => name ∈ frame) = 0 := by
  rw [isSome_find?_iff] at h
  refine List.countP_eq_zero.mpr fun frame hframe hmem => h ⟨frame, hframe, ?_⟩
  exact of_decide_eq_true hmem

theorem Unshadowed.assign {env : Env} (h : env.Unshadowed) (name : String) (value : Value) :
    (env.assign name value).Unshadowed := by
  intro other
  rw [frames_assign]
  split
  · rw [countP_rebind]
    exact h other
  · rename_i hfree
    -- the name was bound nowhere, so that the innermost frame is the only one to bind it now
    have hzero := countP_eq_zero_of_find?_eq_none hfree
    have hother := h other
    rw [frames, List.countP_cons] at hzero hother
    rw [frames, declare, List.countP_cons]
    by_cases heq : other = name
    · subst heq
      split <;> omega
    · have hsame : other ∈ env.inner.insert name value ↔ other ∈ env.inner := by
        rw [mem_insert_iff]
        exact or_iff_right heq
      rw [decide_eq_decide.mpr hsame]
      exact hother

theorem invariant_unshadowed : Invariant Unshadowed where
  assign h name value := h.assign name value
  push {env} h := by
    intro name
    rw [frames_push, List.countP_cons_of_neg (by simp)]
    exact h name
  pop {env env'} h hpop := by
    intro name
    obtain ⟨inner, _ | ⟨frame, frames⟩⟩ := env
    · cases hpop
    · cases hpop
      have hall := h name
      rw [Env.frames, List.countP_cons] at hall
      exact Nat.le_trans (Nat.le_add_right _ _) hall

theorem unshadowed_empty : ({} : Env).Unshadowed := fun _ => List.countP_le_length

theorem find?_reverse {name : String} {frames : List Frame}
    (h : frames.countP (fun frame => name ∈ frame) ≤ 1) :
    find? name frames.reverse = find? name frames := by
  induction frames with
  | nil => rfl
  | cons frame frames ih =>
    rw [List.countP_cons] at h
    rw [List.reverse_cons, find?_append, ih (by omega), find?_cons, find?_cons]
    cases hframe : frame[name]? with
    | none => simp [find?]
    | some value =>
      have hmem : name ∈ frame := by
        rw [Std.ExtTreeMap.mem_iff_isSome_getElem?, hframe]
        rfl
      rw [if_pos (decide_eq_true hmem)] at h
      have hzero : frames.countP (fun frame => name ∈ frame) = 0 := by omega
      have hnone : find? name frames = none := by
        rw [← Option.not_isSome_iff_eq_none, isSome_find?_iff]
        rintro ⟨other, hother, hbound⟩
        exact List.countP_eq_zero.mp hzero other hother (decide_eq_true hbound)
      rw [hnone]
      rfl

end Env

/-- After any operations on a fresh environment, there is a frame, and each name is bound in at most
one. Leaving the only scope fails and changes nothing. A variable has the value that a search from
the outermost frame inwards finds. -/
theorem no_frame_hides_another {budget : Nat} {ops : List Op} {sink : Sink}
    {r : Except Fault Unit} {m : Machine} (h : Op.execAll budget ops { sink } = some (r, m)) :
    1 ≤ m.env.depth ∧
    (∀ name, m.env.frames.countP (fun frame => name ∈ frame) ≤ 1) ∧
    (m.env.depth = 1 → Op.pop.exec budget m = some (.error .scopeUnderflow, m)) ∧
    ∀ name, m.env.get? name = m.env.frames.reverse.findSome? fun frame => frame[name]? := by
  have hunshadowed : m.env.Unshadowed :=
    Op.keeps_execAll Env.invariant_unshadowed budget ops { sink } r m Env.unshadowed_empty h
  refine ⟨Nat.succ_pos _, hunshadowed, fun hdepth => ?_, fun name => ?_⟩
  · obtain ⟨⟨inner, outer⟩, sink⟩ := m
    obtain rfl : outer = [] := List.length_eq_zero_iff.mp (Nat.succ.inj hdepth)
    rfl
  · exact (Env.find?_reverse (hunshadowed name)).symm

/-- Scopes that are left twice, one that is entered and not left, and a run that fails midway. -/
theorem no_frame_hides_another_unbalanced :
    let fails : Stmt := .block [.exprs [.binary (.var "z" 1) .assign (.num 5 1) 1] 1,
      .exprs [.binary (.var "x" 2) .assign (.num 3 2) 2, .var "w" 2] 2] 1
    let ops : List Op := [.assign "x" 1, .push, .assign "y" 2,
      .scoped [.pop, .pop, .assign "y" 4] (.error .scopeUnderflow), .push, .statement fails, .pop]
    let m : Machine := { env := { inner := ((∅ : Frame).insert "x" 3).insert "y" 4 } }
    Op.execAll 1 ops {} = some (.ok (), m) ∧
      (∀ name, m.env.frames.countP (fun frame => name ∈ frame) ≤ 1) ∧
      Op.pop.exec 1 m = some (.error .scopeUnderflow, m) := by
  intro fails ops m
  have hm : Op.execAll 1 ops {} = some (.ok (), m) := rfl
  obtain ⟨-, hcount, hpop, -⟩ := no_frame_hides_another hm
  exact ⟨hm, hcount, hpop rfl⟩

end Imp32
