import Imp32.Stmt.Budget
import Imp32.Proofs.FaultOrigins
import Imp32.Proofs.Scopes

/-!
# Laws of loops

Each loop can be written with another one: `do b while (c);` as `{ b while (c) b }`, `while (c) b`
as `if (c) do b while (c);`, and `for (i c; t) es;` as `{ i while (c) es, t; }`. The sides of a law
open different scopes. On one side there is a single scope for all that runs, on the other side the
loop has one of its own inside another.

So a variable that the loop declares lives in one frame on one side, and in either of two on the
other. The frames below never tell the difference (`Env.Split`): a name is bound in the one frame
exactly if it is bound in one of the two, and then with the same value. When all scopes are left,
the environments are the same.
-/

namespace Imp32

/-! ## One frame split in two -/

namespace Env

/-- The frame on top of some frames is split in two. -/
def Split (frames frames' : List Frame) : Prop :=
  ∃ frame inner outer base, frames = frame :: base ∧ frames' = inner :: outer :: base ∧
    base ≠ [] ∧ ∀ name : String, frame[name]? = inner[name]?.or outer[name]?

theorem split_push {env : Env} (h : env.outer ≠ []) : Split env.frames env.push.frames := by
  refine ⟨env.inner, ∅, env.inner, env.outer, rfl, rfl, h, fun name => ?_⟩
  simp

theorem Split.declare {frames frames' : List Frame} (h : Split frames frames') (name : String)
    (value : Value) : Split (declare name value frames) (declare name value frames') := by
  obtain ⟨frame, inner, outer, base, rfl, rfl, hbase, hsplit⟩ := h
  refine ⟨_, _, outer, base, rfl, rfl, hbase, fun x => ?_⟩
  by_cases hx : name = x
  · simp [hx]
  · simp [Std.ExtTreeMap.getElem?_insert, hx, hsplit x]

theorem Split.rebind {frames frames' : List Frame} (h : Split frames frames') (name : String)
    (value : Value) : Split (rebind name value frames) (rebind name value frames') := by
  obtain ⟨frame, inner, outer, base, rfl, rfl, hbase, hsplit⟩ := h
  have hmem : name ∈ frame ↔ name ∈ inner ∨ name ∈ outer := by
    simp only [Std.ExtTreeMap.mem_iff_isSome_getElem?, hsplit name, Option.isSome_or,
      Bool.or_eq_true]
  -- The name is bound in the inner frame, else in the outer one, else in none of the three.
  by_cases hinner : name ∈ inner
  · rw [Env.rebind, if_pos (hmem.mpr (.inl hinner)), Env.rebind, if_pos hinner]
    refine ⟨_, _, outer, base, rfl, rfl, hbase, fun x => ?_⟩
    by_cases hx : name = x
    · simp [hx]
    · simp [Std.ExtTreeMap.getElem?_insert, hx, hsplit x]
  by_cases houter : name ∈ outer
  · rw [Env.rebind, if_pos (hmem.mpr (.inr houter)), Env.rebind, if_neg hinner, Env.rebind,
      if_pos houter]
    refine ⟨_, inner, _, base, rfl, rfl, hbase, fun x => ?_⟩
    by_cases hx : name = x
    · subst hx
      simp [Std.ExtTreeMap.getElem?_eq_none hinner]
    · simp [Std.ExtTreeMap.getElem?_insert, hx, hsplit x]
  · have hframe : name ∉ frame := fun h => (hmem.mp h).elim hinner houter
    rw [Env.rebind, if_neg hframe, Env.rebind, if_neg hinner, Env.rebind, if_neg houter]
    exact ⟨frame, inner, outer, _, rfl, rfl, rebind_ne_nil hbase name value, hsplit⟩

theorem beneath_split : Beneath .all Split where
  reads _ := trivial
  find? {frames frames' name} h _ := by
    obtain ⟨frame, inner, outer, base, rfl, rfl, -, hsplit⟩ := h
    simp only [find?_cons, hsplit name, Option.or_assoc]
  rebind h _ _ value := h.rebind _ value

/-- The frames are related, with the same frames above them for the scopes that were entered. -/
def OnOrAbove (B : List Frame → List Frame → Prop) : Nat → Env → Env → Prop
  | 0, e, e' => B e.frames e'.frames
  | n + 1, e, e' => Above B n e e'

theorem Split.assign {e e' : Env} (h : Split e.frames e'.frames) (name : String) (value : Value) :
    Split (e.assign name value).frames (e'.assign name value).frames := by
  rw [frames_assign, frames_assign, ← beneath_split.find? h trivial]
  split
  · exact h.rebind name value
  · exact h.declare name value

theorem bisim_split : Bisim .all (OnOrAbove Split) where
  related n :=
    match n with
    | 0 =>
      { get? := fun {_ _ _} h hname => beneath_split.find? h hname
        declare := fun {_ _ _} h _ value => Split.assign h _ value
        update := fun {_ _ _} h _ _ value => Split.assign h _ value }
    | n + 1 => (bisim_above beneath_split).related n
  push {n e e'} h :=
    match n with
    | 0 => ⟨[∅], e.frames, e'.frames, rfl, rfl, rfl, h⟩
    | n + 1 => (bisim_above beneath_split).push h
  pop {n e e'} h := by
    match n with
    | n + 1 => exact (bisim_above beneath_split).pop h
    | 0 =>
      obtain ⟨own, base, base', hlen, he, he', hbase⟩ := h
      obtain ⟨frame, rfl⟩ := List.length_eq_one_iff.mp hlen
      obtain ⟨top, inner, outer, below, rfl, rfl, -, -⟩ := id hbase
      exact ⟨⟨top, below⟩, ⟨inner, outer :: below⟩, pop_of_frames he, pop_of_frames he', hbase⟩

end Env

/-! ## A scope at the end of a scope -/

namespace Exec

variable {α β : Type}

/-- The action does the same whether or not the frame on top is split in two. -/
def Unsplit (x : Exec α) : Prop := Sim (Env.OnOrAbove Env.Split 0) x x

theorem inScope_apply (x : Exec α) (m : Machine) :
    inScope x m = (x m.enter).map fun p => p.2.leave p.1 := by
  unfold inScope
  cases x m.enter <;> rfl

/-- Leaving one scope more, after a scope around the action, leads to the same. -/
theorem leave_inScope {x : Exec α} (hx : Unsplit x) {m : Machine} (hm : m.env.outer ≠ []) :
    ((inScope x m).map fun p => p.2.leave p.1) = (x m).map fun p => p.2.leave p.1 := by
  have henter : Machine.Lift (Env.OnOrAbove Env.Split 0) m m.enter := ⟨Env.split_push hm, rfl⟩
  rw [inScope_apply]
  rcases hx.ends henter with ⟨hnone, hnone'⟩ | ⟨r, k, k', hk, hk', hsplit, hsink⟩
  · rw [hnone, hnone']
    rfl
  · obtain ⟨frame, inner, outer, base, hframes, hframes', hbase, -⟩ := hsplit
    obtain ⟨top, below, rfl⟩ := List.exists_cons_of_ne_nil hbase
    have hpop : k.env.pop = .ok ⟨top, below⟩ := Env.pop_of_frames hframes
    have hpop' : k'.env.pop = .ok ⟨outer, top :: below⟩ := Env.pop_of_frames hframes'
    rw [hk, hk']
    simp only [Option.map_some, Machine.leave_of_pop hpop, Machine.leave_of_pop hpop', hsink]
    rfl

/-- What runs last in a scope needs no scope of its own. -/
theorem inScope_bind_inScope {P : Fault → Prop} {x : Exec α} {f : α → Exec β}
    (hx : Confined P x) (hf : ∀ a, Unsplit (f a)) :
    inScope (x >>= fun a => inScope (f a)) = inScope (x >>= f) := by
  funext m
  rw [inScope_apply, inScope_apply]
  change ((x m.enter).bind fun p => ExceptT.bindCont (fun a => inScope (f a)) p.1 p.2).map _ =
    ((x m.enter).bind fun p => ExceptT.bindCont f p.1 p.2).map _
  cases hrun : x m.enter with
  | none => rfl
  | some p =>
    obtain ⟨r, k⟩ := p
    cases r with
    | error fault => rfl
    | ok a =>
      have hdepth : k.env.outer.length = m.env.outer.length + 1 :=
        Nat.succ.inj (hx m.enter _ k hrun).1
      have houter : k.env.outer ≠ [] := List.ne_nil_of_length_eq_add_one hdepth
      exact leave_inScope (hf a) houter

end Exec

/-! ## Loops -/

namespace Stmt

open Exec

/-- From every state, the statements end with the same results in the same states. -/
def BehavesAs (s t : Stmt) : Prop :=
  ∀ (m : Machine) (r : Except Fault Unit) (m' : Machine), s.Ends m r m' ↔ t.Ends m r m'

theorem unsplit_exec (s : Stmt) (budget : Nat) : Unsplit (s.exec budget) :=
  exec_sim Env.bisim_split (fun n _ => n.within_all) budget 0

theorem unsplit_test (condition : Expr) : Unsplit (test condition) :=
  sim_test (Env.bisim_split.related 0) fun n _ => n.within_all

theorem closes_exec (s : Stmt) (budget : Nat) : Confined (fun _ => True) (s.exec budget) :=
  confined_exec (fun _ _ _ _ => trivial) (fun _ _ _ _ => trivial) budget

theorem closes_test (condition : Expr) : Confined (fun _ => True) (test condition) :=
  confined_test fun _ _ _ _ => trivial

theorem execAll_pair (budget : Nat) (s t : Stmt) :
    execAll budget [s, t] = s.exec budget >>= fun _ => t.exec budget := by
  simp [execAll]

theorem BehavesAs.of_exec_eq {s t : Stmt} (h : ∀ budget, s.exec budget = t.exec budget) :
    s.BehavesAs t := by
  intro m r m'
  simp only [Ends, h]

/-- A loop in a scope, after something else, needs no scope of its own. -/
theorem exec_block_whileDo (s body : Stmt) (condition : Expr) (budget l line : Nat) :
    (block [s, .whileDo condition body l] line).exec budget = inScope (do
      s.exec budget
      repeatWhile (test condition) (body.exec budget) budget) := by
  rw [exec, execAll_pair, exec]
  refine inScope_bind_inScope (closes_exec s budget) fun _ => ?_
  exact Sim.repeatWhile (unsplit_test condition) (unsplit_exec body budget) budget

theorem doWhile_behavesAs (body : Stmt) (condition : Expr) (line line' l : Nat) :
    (doWhile body condition line).BehavesAs
      (.block [body, .whileDo condition body l] line') := by
  refine .of_exec_eq fun budget => ?_
  rw [exec_block_whileDo, exec_doWhile]

theorem exec_exprs_snoc (list : List Expr) (e : Expr) (budget l line : Nat) :
    (exprs (list ++ [e]) line).exec budget = (do
      (exprs list l).exec budget
      perform e) := by
  simp [exec, List.forM_eq_forM]

theorem forDo_behavesAs (init : Stmt) (condition step : Expr) (list : List Expr)
    (line line' l l' l'' : Nat) :
    (forDo init condition step (.exprs list l) line).BehavesAs
      (.block [init, .whileDo condition (.exprs (list ++ [step]) l') l''] line') := by
  refine .of_exec_eq fun budget => ?_
  rw [exec_block_whileDo, exec, exec_exprs_snoc list step budget l]

/-- The first test of a loop, apart from the others. -/
def firstRound (condition : Expr) (body : Stmt) (budget budget' : Nat) : Exec Unit := do
  if ← test condition then
    body.exec budget
    repeatWhile (test condition) (body.exec budget) budget'

theorem exec_whileDo_succ (condition : Expr) (body : Stmt) (budget line : Nat) :
    (whileDo condition body line).exec (budget + 1) =
      inScope (firstRound condition body (budget + 1) budget) := by
  rw [exec, repeatWhile, firstRound]

theorem exec_ifThen_doWhile (condition : Expr) (body : Stmt) (budget l line : Nat) :
    (ifThen condition (.doWhile body condition l) line).exec budget =
      inScope (firstRound condition body budget budget) := by
  have hloop : Unsplit (do
      body.exec budget
      repeatWhile (test condition) (body.exec budget) budget) :=
    (unsplit_exec body budget).bind fun _ =>
      (unsplit_test condition).repeatWhile (unsplit_exec body budget) budget
  rw [firstRound, ← inScope_bind_inScope (closes_test condition), exec, exec_doWhile]
  · congr 2
    funext holds
    cases holds <;> rfl
  · intro holds
    cases holds with
    | true => exact hloop
    | false => exact sim_pure ()

theorem firstRound_mono (condition : Expr) (body : Stmt) {b c b' c' : Nat} (h : b ≤ c)
    (h' : b' ≤ c') :
    Extends (inScope (firstRound condition body b b'))
      (inScope (firstRound condition body c c')) := by
  refine .inScope (.bind (.refl _) fun holds => ?_)
  cases holds with
  | true => exact .bind (exec_budget_mono h body) fun _ => .repeatWhile (exec_budget_mono h body) h'
  | false => exact .refl _

/-- The sides take different numbers of tests, so each is run with a budget that is enough for the
other. -/
theorem whileDo_behavesAs (condition : Expr) (body : Stmt) (line line' l : Nat) :
    (whileDo condition body line).BehavesAs
      (.ifThen condition (.doWhile body condition l) line') := by
  intro m r m'
  constructor
  · rintro ⟨budget, h⟩
    cases budget with
    | zero => cases h
    | succ budget =>
      refine ⟨budget + 1, ?_⟩
      rw [exec_whileDo_succ] at h
      rw [exec_ifThen_doWhile]
      exact firstRound_mono condition body (Nat.le_refl _) (Nat.le_succ budget) m _ h
  · rintro ⟨budget, h⟩
    refine ⟨budget + 1, ?_⟩
    rw [exec_ifThen_doWhile] at h
    rw [exec_whileDo_succ]
    exact firstRound_mono condition body (Nat.le_succ budget) (Nat.le_refl _) m _ h

/-- From every state, each loop ends exactly as its other form does: with the same result, the line
of a fault included, and in the same state. -/
theorem loops_agree (condition : Expr) (body : Stmt) (init : Stmt) (list : List Expr) (step : Expr)
    (line line' l l' l'' : Nat) :
    (doWhile body condition line).BehavesAs (.block [body, .whileDo condition body l] line') ∧
      (whileDo condition body line).BehavesAs
        (.ifThen condition (.doWhile body condition l) line') ∧
      (forDo init condition step (.exprs list l) line).BehavesAs
        (.block [init, .whileDo condition (.exprs (list ++ [step]) l') l''] line') :=
  ⟨doWhile_behavesAs body condition line line' l, whileDo_behavesAs condition body line line' l,
    forDo_behavesAs init condition step list line line' l l' l''⟩

end Stmt

end Imp32
