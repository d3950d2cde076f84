import Imp32.Proofs.FaultOrigins
import Imp32.Stmt.Budget

/-!
# Behaviours

What a statement does, told without a budget and without an output: from an environment, it carries
out some prints, ends with a result, and leaves an environment. A behaviour is a relation between
these four. A sequence, a scope and a loop have rules of their own; a run that does not end has no
behaviour.

Running a statement agrees with its behaviour (`Stmt.realises`). If the output takes everything, a
run ends for some budget exactly if the behaviour says so, and then as it says. Otherwise the run
goes as the behaviour says up to the first print that the output does not take, and ends there with
its fault.
-/

namespace Imp32

/-- A print that was carried out. -/
structure Print where
  /-- The value that was to be written. -/
  value : Value
  /-- The line of the statement. -/
  line : Nat
deriving DecidableEq, Repr

/-- What is written for a print. -/
def Print.text (print : Print) : String := print.value.decimal ++ "\n"

/-! ## Rules -/

/-- The ways in which an action may go: the environment it starts from, the prints it carries out,
its result, and the environment it leaves. -/
abbrev Behaviour (α : Type) := Env → List Print → Except Fault α → Env → Prop

namespace Behaviour

variable {α β : Type}

/-- Nothing is done but to evaluate. -/
def ofEval (x : Eval α) : Behaviour α := fun env prints r env' => prints = [] ∧ x env = (r, env')

/-- A condition is tested. -/
def test (condition : Expr) : Behaviour Bool := ofEval do return (← condition.eval).truth

/-- An expression is evaluated for its effect. -/
def perform (e : Expr) : Behaviour Unit := ofEval do
  let _ ← e.eval
  return

/-- One print is carried out. -/
def print (value : Value) (line : Nat) : Behaviour Unit := fun env prints r env' =>
  prints = [⟨value, line⟩] ∧ r = .ok () ∧ env' = env

/-- One action after another. -/
inductive Seq (x : Behaviour α) (f : α → Behaviour β) :
    Env → List Print → Except Fault β → Env → Prop where
  /-- The first action fails. -/
  | fault {env prints fault env'} (h : x env prints (.error fault) env') :
    Seq x f env prints (.error fault) env'
  /-- The first action ends well, and the second one goes on. -/
  | next {env prints a mid prints' r env'} (h : x env prints (.ok a) mid)
      (h' : f a mid prints' r env') : Seq x f env (prints ++ prints') r env'

/-- An action in a scope of its own. -/
inductive Scoped (x : Behaviour α) : Env → List Print → Except Fault α → Env → Prop where
  /-- The scope is left, however the action ends. -/
  | leave {env prints r mid env'} (h : x env.push prints r mid) (hpop : mid.pop = .ok env') :
    Scoped x env prints r env'

/-- An action as long as a condition holds before it. -/
inductive Loop (c : Behaviour Bool) (x : Behaviour Unit) :
    Env → List Print → Except Fault Unit → Env → Prop where
  /-- The test fails. -/
  | testFault {env prints fault env'} (h : c env prints (.error fault) env') :
    Loop c x env prints (.error fault) env'
  /-- The condition does not hold. -/
  | stop {env prints env'} (h : c env prints (.ok false) env') : Loop c x env prints (.ok ()) env'
  /-- The condition holds, and the action fails. -/
  | fault {env prints mid prints' fault env'} (h : c env prints (.ok true) mid)
      (h' : x mid prints' (.error fault) env') :
    Loop c x env (prints ++ prints') (.error fault) env'
  /-- The condition holds, the action ends well, and the loop goes on. -/
  | again {env prints mid prints' mid' prints'' r env'} (h : c env prints (.ok true) mid)
      (h' : x mid prints' (.ok ()) mid') (h'' : Loop c x mid' prints'' r env') :
    Loop c x env (prints ++ (prints' ++ prints'')) r env'

end Behaviour

namespace Stmt

mutual

/-- The behaviour of a statement. -/
def behaviour : Stmt → Behaviour Unit
  | .empty _ => .ofEval (pure ())
  | .block body _ => .Scoped (behaviourAll body)
  | .ifThen condition thenBranch _ => .Scoped (.Seq (.test condition) fun holds =>
    if holds then thenBranch.behaviour else .ofEval (pure ()))
  | .ifElse condition thenBranch elseBranch _ => .Scoped (.Seq (.test condition) fun holds =>
    if holds then thenBranch.behaviour else elseBranch.behaviour)
  | .whileDo condition body _ => .Scoped (.Loop (.test condition) body.behaviour)
  | .doWhile body condition _ => .Scoped (.Seq body.behaviour fun _ =>
    .Loop (.test condition) body.behaviour)
  | .forDo init condition step body _ => .Scoped (.Seq init.behaviour fun _ =>
    .Loop (.test condition) (.Seq body.behaviour fun _ => .perform step))
  | .exprs list _ => list.foldr (fun e rest => .Seq (.perform e) fun _ => rest) (.ofEval (pure ()))
  | .print value line => .Seq (.ofEval value.eval) fun v => .print v line

/-- The behaviour of statements one after another. -/
def behaviourAll : List Stmt → Behaviour Unit
  | [] => .ofEval (pure ())
  | s :: ss => .Seq s.behaviour fun _ => behaviourAll ss

end

end Stmt

/-! ## Recording prints -/

/-- Writes the texts of prints one after another, up to the first one that does not fit. -/
def Sink.record (sink : Sink) : List Print → Except Fault Unit × Sink
  | [] => (.ok (), sink)
  | print :: prints =>
    match sink.write print.text with
    | (.ok (), sink) => sink.record prints
    | (.error refusal, sink) => (.error (.raised (.output refusal.reason) print.line), sink)

/-- Prints are recorded one after another, and nothing is written after the first one that is
refused. -/
theorem Sink.record_append (sink : Sink) (prints prints' : List Print) :
    sink.record (prints ++ prints') =
      match sink.record prints with
      | (.ok (), sink) => sink.record prints'
      | (.error fault, sink) => (.error fault, sink) := by
  induction prints generalizing sink with
  | nil => rfl
  | cons print prints ih =>
    rw [List.cons_append, record, record]
    rcases sink.write print.text with ⟨_ | _, after⟩
    · rfl
    · exact ih after

/-! ## Actions that go as told -/

namespace Exec

variable {α β : Type}

/-- From the environment, the action goes as told, whatever the output is. -/
structure Goes (x : Exec α) (env : Env) (prints : List Print) (r : Except Fault α) (env' : Env) :
    Prop where
  /-- If the output takes all prints, the action ends with the result. -/
  whole {sink sink' : Sink} (h : sink.record prints = (.ok (), sink')) :
    x ⟨env, sink⟩ = some (r, ⟨env', sink'⟩)
  /-- If not, it ends with the fault of the first print that is not taken. -/
  cut {sink sink' : Sink} {fault : Fault} (h : sink.record prints = (.error fault, sink')) :
    ∃ k, x ⟨env, sink⟩ = some (.error fault, ⟨k, sink'⟩)

namespace Goes

variable {env env' mid : Env} {prints prints' : List Print} {fault : Fault}

theorem ofEval (x : Eval α) (env : Env) : Goes (ofEval x) env [] (x env).1 (x env).2 where
  whole h := by
    cases h
    rfl
  cut h := by cases h

theorem pure (a : α) (env : Env) : Goes (pure a) env [] (.ok a) env where
  whole h := by
    cases h
    rfl
  cut h := by cases h

theorem write (value : Value) (line : Nat) (env : Env) :
    Goes (write value line) env [⟨value, line⟩] (.ok ()) env where
  whole {sink sink'} h := by
    unfold Exec.write
    rw [Sink.record, Print.text, ← Sink.writeLine_eq] at h
    split at h
    · rename_i hwrite
      cases h
      rw [hwrite]
    · cases h
  cut {sink sink' fault} h := by
    unfold Exec.write
    rw [Sink.record, Print.text, ← Sink.writeLine_eq] at h
    split at h
    · cases h
    · rename_i hwrite
      cases h
      exact ⟨env, by rw [hwrite]⟩

/-- An action that ends whenever another one does goes as that one does. -/
theorem mono {x y : Exec α} {r : Except Fault α} (h : Goes x env prints r env')
    (hxy : Extends x y) : Goes y env prints r env' where
  whole hsink := hxy _ _ (h.whole hsink)
  cut hsink := by
    obtain ⟨k, hk⟩ := h.cut hsink
    exact ⟨k, hxy _ _ hk⟩

theorem bind_fault {x : Exec α} (h : Goes x env prints (.error fault) env') (f : α → Exec β) :
    Goes (x >>= f) env prints (.error fault) env' where
  whole hsink := bind_eq_some_iff.mpr (.inl ⟨fault, h.whole hsink, rfl⟩)
  cut hsink := by
    obtain ⟨k, hk⟩ := h.cut hsink
    exact ⟨k, bind_eq_some_iff.mpr (.inl ⟨_, hk, rfl⟩)⟩

/-- What is printed after the first action comes after what it prints. -/
theorem bind {x : Exec α} {f : α → Exec β} {a : α} {r : Except Fault β}
    (hx : Goes x env prints (.ok a) mid) (hf : Goes (f a) mid prints' r env') :
    Goes (x >>= f) env (prints ++ prints') r env' where
  whole {sink sink'} hsink := by
    rw [Sink.record_append] at hsink
    split at hsink
    · rename_i between hbetween
      exact bind_eq_some_iff.mpr (.inr ⟨a, _, hx.whole hbetween, hf.whole hsink⟩)
    · cases hsink
  cut {sink sink' fault} hsink := by
    rw [Sink.record_append] at hsink
    split at hsink
    · rename_i between hbetween
      obtain ⟨k, hk⟩ := hf.cut hsink
      exact ⟨k, bind_eq_some_iff.mpr (.inr ⟨a, _, hx.whole hbetween, hk⟩)⟩
    · rename_i hcut
      cases hsink
      obtain ⟨k, hk⟩ := hx.cut hcut
      exact ⟨k, bind_eq_some_iff.mpr (.inl ⟨_, hk, rfl⟩)⟩

/-- A print that is refused ends the action in its scope, and its fault is that of the whole. -/
theorem inScope {x : Exec α} {r : Except Fault α} (h : Goes x env.push prints r mid)
    (hpop : mid.pop = .ok env') : Goes (inScope x) env prints r env' where
  whole {sink sink'} hsink := by
    have hx : x (Machine.enter ⟨env, sink⟩) = some (r, ⟨mid, sink'⟩) := h.whole hsink
    have hleave : Machine.leave r ⟨mid, sink'⟩ = (r, ⟨env', sink'⟩) :=
      Machine.leave_of_pop hpop r
    rw [Exec.inScope, hx]
    simp only [hleave]
  cut {sink sink' fault} hsink := by
    obtain ⟨k, hk⟩ := h.cut hsink
    have hx : x (Machine.enter ⟨env, sink⟩) = some (.error fault, ⟨k, sink'⟩) := hk
    rw [Exec.inScope, hx]
    -- A fault of the action is reported whether or not the scope can be left.
    cases hpop : k.pop with
    | ok below => exact ⟨below, by simp only [Machine.leave, hpop]⟩
    | error _ => exact ⟨k, by simp only [Machine.leave, hpop]⟩

section Loop

variable {c : Exec Bool} {x : Exec Unit} {mid' : Env} {prints'' : List Print} {b : Nat}

theorem loop_stop (hc : Goes c env prints (.ok false) env') (x : Exec Unit) (b : Nat) :
    Goes (repeatWhile c x (b + 1)) env prints (.ok ()) env' := by
  have hstop : Goes (repeatWhile c x (b + 1)) env (prints ++ []) (.ok ()) env' :=
    hc.bind (.pure () env')
  rwa [List.append_nil] at hstop

theorem loop_fault (hc : Goes c env prints (.ok true) mid)
    (hx : Goes x mid prints' (.error fault) env') (b : Nat) :
    Goes (repeatWhile c x (b + 1)) env (prints ++ prints') (.error fault) env' :=
  hc.bind (hx.bind_fault fun _ => repeatWhile c x b)

theorem loop_again {r : Except Fault Unit} (hc : Goes c env prints (.ok true) mid)
    (hx : Goes x mid prints' (.ok ()) mid')
    (hrest : Goes (repeatWhile c x b) mid' prints'' r env') :
    Goes (repeatWhile c x (b + 1)) env (prints ++ (prints' ++ prints'')) r env' :=
  hc.bind (hx.bind hrest)

end Loop

end Goes

/-- The action that a budget gives behaves as told. -/
structure Realises (x : Nat → Exec α) (B : Behaviour α) : Prop where
  /-- A larger budget changes nothing in a run that ends. -/
  mono {b c : Nat} (h : b ≤ c) : Extends (x b) (x c)
  /-- The scopes that are opened are closed. -/
  depth {env prints r env'} (h : B env prints r env') : env'.depth = env.depth
  /-- What is told happens, for some budget. -/
  goes {env prints r env'} (h : B env prints r env') : ∃ b, Goes (x b) env prints r env'
  /-- What happens if the output takes everything is told. -/
  told {b env sink r m'} (h : x b ⟨env, sink⟩ = some (r, m')) (hroom : sink.room = none) :
    m'.sink.room = none ∧ ∃ prints, B env prints r m'.env

theorem Realises.ofEval {P : Fault → Prop} {x : Eval α} (hx : Eval.Confined P x) :
    Realises (fun _ => ofEval x) (.ofEval x) where
  mono _ := .refl _
  depth {env _ _ _} h := by
    have hdepth := (hx env).1
    rwa [h.2] at hdepth
  goes {env _ _ _} h := by
    obtain ⟨rfl, hx⟩ := h
    have hgoes := Goes.ofEval x env
    rw [hx] at hgoes
    exact ⟨0, hgoes⟩
  told h hroom := by
    cases h
    exact ⟨hroom, [], rfl, rfl⟩

theorem Realises.write (value : Value) (line : Nat) :
    Realises (fun _ => write value line) (.print value line) where
  mono _ := .refl _
  depth h := by rw [h.2.2]
  goes h := by
    obtain ⟨rfl, rfl, rfl⟩ := h
    exact ⟨0, .write value line _⟩
  told {b env sink r m'} h hroom := by
    simp only [Exec.write, Sink.writeLine_eq, Sink.write_of_unlimited hroom] at h
    cases h
    exact ⟨hroom, _, rfl, rfl, rfl⟩

/-- Both parts are run with one budget that is enough for each. -/
theorem Realises.bind {x : Nat → Exec α} {f : α → Nat → Exec β} {B : Behaviour α}
    {C : α → Behaviour β} (hx : Realises x B) (hf : ∀ a, Realises (f a) (C a)) :
    Realises (fun b => x b >>= fun a => f a b) (.Seq B C) where
  mono h := (hx.mono h).bind fun a => (hf a).mono h
  depth h := by
    cases h with
    | fault h => exact hx.depth h
    | next h h' => exact ((hf _).depth h').trans (hx.depth h)
  goes h := by
    cases h with
    | fault h =>
      obtain ⟨b, hb⟩ := hx.goes h
      exact ⟨b, hb.bind_fault _⟩
    | next h h' =>
      obtain ⟨b, hb⟩ := hx.goes h
      obtain ⟨c, hc⟩ := (hf _).goes h'
      have hb' := hb.mono (hx.mono (Nat.le_max_left b c))
      have hc' := hc.mono ((hf _).mono (Nat.le_max_right b c))
      exact ⟨max b c, hb'.bind hc'⟩
  told h hroom := by
    rcases bind_eq_some_iff.mp h with ⟨fault, hfault, rfl⟩ | ⟨a, ⟨mid, sink'⟩, ha, hrest⟩
    · obtain ⟨hroom', prints, hB⟩ := hx.told hfault hroom
      exact ⟨hroom', prints, .fault hB⟩
    · obtain ⟨hroom', prints, hB⟩ := hx.told ha hroom
      obtain ⟨hroom'', prints', hC⟩ := (hf a).told hrest hroom'
      exact ⟨hroom'', prints ++ prints', .next hB hC⟩

/-- A scope that was entered can be left after an action that closes its own scopes. -/
theorem Realises.exists_pop {x : Nat → Exec α} {B : Behaviour α} (hx : Realises x B) {env mid : Env}
    {prints : List Print} {r : Except Fault α} (h : B env.push prints r mid) :
    ∃ env', mid.pop = .ok env' ∧ env'.depth = env.depth := by
  have hdepth : mid.depth = env.outer.length + 2 := hx.depth h
  exact Env.exists_pop hdepth

theorem Realises.inScope {x : Nat → Exec α} {B : Behaviour α} (hx : Realises x B) :
    Realises (fun b => inScope (x b)) (.Scoped B) where
  mono h := .inScope (hx.mono h)
  depth h := by
    obtain ⟨h, hpop⟩ := h
    obtain ⟨env', hpop', hdepth⟩ := hx.exists_pop h
    cases hpop.symm.trans hpop'
    exact hdepth
  goes h := by
    obtain ⟨h, hpop⟩ := h
    obtain ⟨b, hb⟩ := hx.goes h
    exact ⟨b, hb.inScope hpop⟩
  told {b env sink r m'} h hroom := by
    unfold Exec.inScope at h
    split at h
    · rename_i result k hk
      have hrun : x b ⟨env.push, sink⟩ = some (result, k) := hk
      obtain ⟨hroom', prints, hB⟩ := hx.told hrun hroom
      obtain ⟨env', hpop, -⟩ := hx.exists_pop hB
      rw [Machine.leave_of_pop hpop] at h
      cases h
      exact ⟨hroom', prints, .leave hB hpop⟩
    · cases h

section Loop

variable {c : Exec Bool} {C : Behaviour Bool} {x : Nat → Exec Unit} {B : Behaviour Unit}

/-- A loop that is told goes as told, round by round. -/
theorem Realises.goes_loop (hc : Realises (fun _ => c) C) (hx : Realises x B) {env env' : Env}
    {prints : List Print} {r : Except Fault Unit} (h : Behaviour.Loop C B env prints r env') :
    ∃ b, Goes (repeatWhile c (x b) b) env prints r env' := by
  induction h with
  | testFault h =>
    obtain ⟨-, hgoes⟩ := hc.goes h
    exact ⟨1, hgoes.bind_fault _⟩
  | stop h =>
    obtain ⟨-, hgoes⟩ := hc.goes h
    exact ⟨1, hgoes.loop_stop (x 1) 0⟩
  | fault h h' =>
    obtain ⟨-, hgoes⟩ := hc.goes h
    obtain ⟨b, hb⟩ := hx.goes h'
    exact ⟨b + 1, hgoes.loop_fault (hb.mono (hx.mono (Nat.le_succ b))) b⟩
  | again h h' _ ih =>
    obtain ⟨-, hgoes⟩ := hc.goes h
    obtain ⟨b, hb⟩ := hx.goes h'
    obtain ⟨b', hb'⟩ := ih
    -- One more test than the rest of the loop needs, with a budget that is enough for all rounds.
    have hround : Goes (x (max b b' + 1)) _ _ _ _ := hb.mono (hx.mono (by omega))
    have hrest : Goes (repeatWhile c (x (max b b' + 1)) (max b b')) _ _ _ _ :=
      hb'.mono (.repeatWhile (hx.mono (by omega)) (by omega))
    exact ⟨max b b' + 1, hgoes.loop_again hround hrest⟩

/-- A run of a loop that ends tells its rounds, by induction on the tests that were allowed. -/
theorem Realises.told_loop (hc : Realises (fun _ => c) C) (hx : Realises x B) {b n : Nat}
    {env : Env} {sink : Sink} {r : Except Fault Unit} {m' : Machine}
    (h : repeatWhile c (x b) n ⟨env, sink⟩ = some (r, m')) (hroom : sink.room = none) :
    m'.sink.room = none ∧ ∃ prints, Behaviour.Loop C B env prints r m'.env := by
  induction n generalizing env sink with
  | zero => cases h
  | succ n ih =>
    rcases bind_eq_some_iff.mp h with ⟨fault, hfault, rfl⟩ | ⟨holds, ⟨mid, sink₁⟩, hholds, hrest⟩
    · obtain ⟨hroom', prints, hC⟩ := hc.told (b := 0) hfault hroom
      exact ⟨hroom', prints, .testFault hC⟩
    obtain ⟨hroom₁, prints, hC⟩ := hc.told (b := 0) hholds hroom
    cases holds with
    | false =>
      cases hrest
      exact ⟨hroom₁, prints, .stop hC⟩
    | true =>
      rcases bind_eq_some_iff.mp hrest with ⟨fault, hfault, rfl⟩ | ⟨_, ⟨mid', sink₂⟩, hround, hloop⟩
      · obtain ⟨hroom', prints', hB⟩ := hx.told hfault hroom₁
        exact ⟨hroom', _, .fault hC hB⟩
      · obtain ⟨hroom₂, prints', hB⟩ := hx.told hround hroom₁
        obtain ⟨hroom', prints'', hL⟩ := ih hloop hroom₂
        exact ⟨hroom', _, .again hC hB hL⟩

theorem Realises.repeatWhile (hc : Realises (fun _ => c) C) (hx : Realises x B) :
    Realises (fun b => repeatWhile c (x b) b) (.Loop C B) where
  mono h := .repeatWhile (hx.mono h) h
  depth h := by
    induction h with
    | testFault h => exact hc.depth h
    | stop h => exact hc.depth h
    | fault h h' => exact (hx.depth h').trans (hc.depth h)
    | again h h' _ ih => exact ih.trans ((hx.depth h').trans (hc.depth h))
  goes h := hc.goes_loop hx h
  told h hroom := hc.told_loop hx h hroom

end Loop

end Exec

/-! ## Statements and programs -/

theorem Expr.closes_eval (e : Expr) : Eval.Confined (fun _ => True) e.eval :=
  confined_eval fun _ _ _ _ => trivial

namespace Stmt

open Exec

theorem realises_pure : Realises (fun _ => pure ()) (.ofEval (pure ())) :=
  .ofEval (Eval.confined_pure (P := fun _ => True) ())

theorem realises_test (condition : Expr) : Realises (fun _ => test condition) (.test condition) :=
  .ofEval (condition.closes_eval.bind fun value => Eval.confined_pure value.truth)

theorem realises_perform (e : Expr) : Realises (fun _ => perform e) (.perform e) := by
  simp only [perform_eq]
  exact .ofEval (e.closes_eval.bind fun _ => Eval.confined_pure ())

theorem realises_forM_perform (list : List Expr) :
    Realises (fun _ => list.forM perform)
      (list.foldr (fun e rest => .Seq (.perform e) fun _ => rest) (.ofEval (pure ()))) := by
  induction list with
  | nil => exact realises_pure
  | cons e es ih => exact (realises_perform e).bind fun _ => ih

mutual

/-- A statement behaves as told. -/
theorem realises (s : Stmt) : Realises (fun b => s.exec b) s.behaviour := by
  match s with
  | .empty _ => exact realises_pure
  | .block body _ => exact (realisesAll body).inScope
  | .ifThen condition thenBranch _ =>
    refine Realises.inScope ((realises_test condition).bind fun holds => ?_)
    cases holds with
    | true => exact realises thenBranch
    | false => exact realises_pure
  | .ifElse condition thenBranch elseBranch _ =>
    refine Realises.inScope ((realises_test condition).bind fun holds => ?_)
    cases holds with
    | true => exact realises thenBranch
    | false => exact realises elseBranch
  | .whileDo condition body _ =>
    exact ((realises_test condition).repeatWhile (realises body)).inScope
  | .doWhile body condition _ =>
    have hloop := (realises_test condition).repeatWhile (realises body)
    simp only [exec_doWhile]
    exact ((realises body).bind fun _ => hloop).inScope
  | .forDo init condition step body _ =>
    have hround := (realises body).bind fun _ => realises_perform step
    have hloop := (realises_test condition).repeatWhile hround
    exact ((realises init).bind fun _ => hloop).inScope
  | .exprs list _ => exact realises_forM_perform list
  | .print value line => exact (Realises.ofEval value.closes_eval).bind fun v => .write v line

theorem realisesAll (ss : List Stmt) : Realises (fun b => execAll b ss) (behaviourAll ss) := by
  match ss with
  | [] => exact realises_pure
  | s :: ss => exact (realises s).bind fun _ => realisesAll ss

end

end Stmt

/-- The behaviour of a program. -/
def Program.behaviour (p : Program) : Behaviour Unit := Stmt.behaviourAll p

/-- A program behaves as told. -/
theorem Program.realises (p : Program) : Exec.Realises (fun b => p.exec b) p.behaviour := by
  simp only [exec_eq]
  exact Stmt.realisesAll p

end Imp32
