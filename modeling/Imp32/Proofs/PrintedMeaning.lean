import Imp32.Stmt.Budget
import Imp32.Proofs.FaultLines
import Imp32.Proofs.Reparse
import Imp32.Proofs.Scopes

/-!
# The meaning of a printed program

A program that is printed and parsed again does the same, up to the lines of its faults. The parsed
program is the normal form of the printed one, so what is to be shown is that normalising changes
nothing. A negation stands for a negative literal, and an empty statement for an empty list. The
braces around a branch open one more scope; but such a branch opens a scope itself, and the
variables that it declares live there, so the scope around it stays empty.
-/

namespace Imp32

/-! ## A scope within a scope -/

/-- An empty frame lies above the frames. -/
def Env.Padded (base base' : List Frame) : Prop := base ≠ [] ∧ base' = ∅ :: base

theorem Env.beneath_padded : Beneath .all Padded where
  reads _ := trivial
  find? {base base' name} h _ := by
    simp [h.2]
  rebind {base base' name} h _ _ value := by
    obtain ⟨hne, rfl⟩ := h
    refine ⟨rebind_ne_nil hne name value, ?_⟩
    rw [Env.rebind, if_neg (by simp)]

namespace Exec

/-- An action in a scope within a scope is an action in a scope. -/
theorem inScope_inScope {x : Exec Unit} (h : Sim (Env.Above Env.Padded 0) x x) :
    inScope (inScope x) = inScope x := by
  funext m
  -- The inner scope runs alike with and without the empty frame of the outer one below it.
  have hsim := h.inScope_above fun h => ⟨h.1, by rw [h.2]; exact List.cons_ne_nil _ _⟩
  have henter : Machine.Lift (fun e e' => Env.Padded e.frames e'.frames) m m.enter :=
    ⟨⟨List.cons_ne_nil _ _, rfl⟩, rfl⟩
  rw [inScope.eq_def (inScope x)]
  rcases hsim.ends henter with ⟨hx, hx'⟩ | ⟨r, k, k', hx, hx', ⟨-, hframes⟩, hsink⟩
  · rw [hx, hx']
  · -- What the outer scope still has to leave is the empty frame.
    have hpop : k'.env.pop = .ok k.env := Env.pop_of_frames hframes
    rw [hx, hx']
    simp only [Machine.leave_of_pop hpop, ← hsink]

end Exec

/-! ## Normal trees -/

namespace Expr

theorem target_normalize (operator : String) (line : Nat) (e : Expr) :
    e.normalize.target operator line = e.target operator line := by
  cases e with
  | num value l =>
    rw [normalize]
    split <;> rfl
  | _ => rfl

theorem eval_normalize (e : Expr) : e.normalize.eval = e.eval := by
  induction e with
  | num value line =>
    rw [normalize]
    split
    · change (pure (- -value) : Eval Value) = pure value
      rw [Int32.neg_neg]
    · rfl
  | var name line => rfl
  | unary op operand line ih =>
    cases op with
    | increment | decrement => simp only [normalize, eval, advance, target_normalize]
    | negate | complement => simp only [normalize, eval, ih]
  | binary left op right line ihl ihr =>
    cases op with
    | assign => simp only [normalize, eval, store, target_normalize, ihr]
    | _ => simp only [normalize, eval, storeComputed, target_normalize, ihl, ihr]

end Expr

namespace Stmt

open Exec

theorem test_normalize (condition : Expr) : test condition.normalize = test condition := by
  simp only [test, Expr.eval_normalize]

theorem perform_normalize (e : Expr) : perform e.normalize = perform e := by
  simp only [perform, Expr.eval_normalize]

theorem opensScope_of_endsOpen {s : Stmt} (h : s.endsOpen = true) : s.opensScope = true := by
  cases s <;> first | rfl | cases h

theorem execAll_singleton (budget : Nat) (s : Stmt) : execAll budget [s] = s.exec budget := by
  simp [execAll]

/-- A statement that ends in an open `if` may be put in braces. -/
theorem inScope_exec {s : Stmt} (h : s.endsOpen = true) (budget : Nat) :
    inScope (s.exec budget) = s.exec budget := by
  obtain ⟨x, hx, hsim⟩ := exec_eq_inScope (Env.bisim_above Env.beneath_padded)
    (opensScope_of_endsOpen h) (fun n _ => n.within_all) budget
  rw [hx, inScope_inScope (hsim 0)]

theorem forM_perform_normalize (list : List Expr) :
    (list.map Expr.normalize).forM perform = list.forM perform := by
  induction list with
  | nil => rfl
  | cons e es ih =>
    change (perform e.normalize >>= fun _ => (es.map Expr.normalize).forM perform) =
      perform e >>= fun _ => es.forM perform
    rw [perform_normalize, ih]

mutual

/-- Normalising changes nothing in what a statement does. -/
theorem exec_normalize (budget : Nat) (s : Stmt) : s.normalize.exec budget = s.exec budget := by
  match s with
  | .empty _ => rfl
  | .block body _ => rw [normalize, exec, exec, execAll_normalizeAll budget body]
  | .ifThen condition thenBranch _ =>
    rw [normalize, exec, exec, test_normalize, exec_normalize budget thenBranch]
  | .ifElse condition thenBranch elseBranch line =>
    have hthen : (if thenBranch.endsOpen then Stmt.block [thenBranch.normalize] line
        else thenBranch.normalize).exec budget = thenBranch.exec budget := by
      split
      · rename_i hopen
        rw [exec, execAll_singleton, exec_normalize budget thenBranch, inScope_exec hopen]
      · exact exec_normalize budget thenBranch
    rw [normalize, exec, exec, test_normalize, hthen, exec_normalize budget elseBranch]
  | .whileDo condition body _ =>
    rw [normalize, exec, exec, test_normalize, exec_normalize budget body]
  | .doWhile body condition _ =>
    rw [normalize, exec, exec, test_normalize, exec_normalize budget body]
  | .forDo init condition step body _ =>
    rw [normalize, exec, exec, test_normalize, perform_normalize, exec_normalize budget init,
      exec_normalize budget body]
  | .exprs [] _ => rfl
  | .exprs (e :: es) _ => exact forM_perform_normalize (e :: es)
  | .print value _ => rw [normalize, exec, exec, Expr.eval_normalize]

theorem execAll_normalizeAll (budget : Nat) (ss : List Stmt) :
    execAll budget (normalizeAll ss) = execAll budget ss := by
  match ss with
  | [] => rfl
  | s :: ss =>
    rw [normalizeAll, execAll, execAll, exec_normalize budget s, execAll_normalizeAll budget ss]

end

end Stmt

/-! ## Programs that are printed and parsed -/

theorem Exec.eq_some_of_adapt_eq {x y : Exec Unit} {g : Fault → Fault}
    (h : ExceptT.adapt g x = ExceptT.adapt g y) {m k : Machine} {r : Except Fault Unit}
    (hx : x m = some (r, k)) : ∃ r', y m = some (r', k) ∧ r'.mapError g = r.mapError g := by
  have hm := congrFun h m
  rw [adapt_apply, adapt_apply, hx, Option.map_some] at hm
  obtain ⟨⟨r', k'⟩, hy, heq⟩ := Option.map_eq_some_iff.mp hm.symm
  obtain ⟨hr, rfl⟩ := Prod.mk.inj heq
  exact ⟨r', hy, hr⟩

/-- The fault with line zero. -/
def Fault.eraseLine (fault : Fault) : Fault := fault.mapLine fun _ => 0

namespace Program

theorem exec_normalize (budget : Nat) (p : Program) : p.normalize.exec budget = p.exec budget := by
  rw [exec_eq, exec_eq, normalize, ← Stmt.normalizeAll_eq_map]
  exact Stmt.execAll_normalizeAll budget p

theorem exec_eraseLines (budget : Nat) (p : Program) :
    p.eraseLines.exec budget = ExceptT.adapt Fault.eraseLine (p.exec budget) :=
  p.exec_mapLines (fun _ => 0) budget

theorem adapt_exec_of_parse_render {p p' : Program} (hnamed : ∀ n ∈ p.exprNodes, n.Named)
    (h : parse p.render = .ok p') (budget : Nat) :
    ExceptT.adapt Fault.eraseLine (p.exec budget) =
      ExceptT.adapt Fault.eraseLine (p'.exec budget) := by
  calc
    _ = ExceptT.adapt Fault.eraseLine (p.normalize.exec budget) := by rw [exec_normalize]
    _ = p.normalize.eraseLines.exec budget := (exec_eraseLines budget p.normalize).symm
    _ = p'.eraseLines.exec budget := by rw [eraseLines_of_parse_render hnamed h]
    _ = _ := exec_eraseLines budget p'

/-- If a program is parsed from the text of another one, then from the same state either both end or
neither does; and they end in the same state, both well or with faults that are equal up to lines.
-/
theorem printing_preserves_meaning {p p' : Program} (hnamed : ∀ n ∈ p.exprNodes, n.Named)
    (h : parse p.render = .ok p') (m : Machine) :
    ((∃ r k, p.Ends m r k) ↔ ∃ r k, p'.Ends m r k) ∧
      ∀ r k r' k', p.Ends m r k → p'.Ends m r' k' →
        k = k' ∧ r.mapError Fault.eraseLine = r'.mapError Fault.eraseLine := by
  have hadapt := adapt_exec_of_parse_render hnamed h
  refine ⟨⟨?_, ?_⟩, ?_⟩
  · rintro ⟨r, k, budget, hr⟩
    obtain ⟨r', hr', -⟩ := Exec.eq_some_of_adapt_eq (hadapt budget) hr
    exact ⟨r', k, budget, hr'⟩
  · rintro ⟨r', k, budget, hr'⟩
    obtain ⟨r, hr, -⟩ := Exec.eq_some_of_adapt_eq (hadapt budget).symm hr'
    exact ⟨r, k, budget, hr⟩
  · rintro r k r' k' ⟨b, hr⟩ ⟨b', hr'⟩
    obtain ⟨s, hs, hsr⟩ := Exec.eq_some_of_adapt_eq (hadapt (max b b'))
      (exec_budget_mono (Nat.le_max_left b b') hr)
    cases hs.symm.trans (exec_budget_mono (Nat.le_max_right b b') hr')
    exact ⟨rfl, hsr.symm⟩

theorem printing_preserves_meaning_hand_built :
    let p : Program :=
      [.exprs [] 1,
        .ifElse (.num (-1) 1) (.ifThen (.var "x" 1) (.print (.num (-5) 1) 1) 1) (.empty 1) 1]
    (∀ n ∈ p.exprNodes, n.Named) ∧ ∃ p', parse p.render = .ok p' ∧ ∀ m : Machine,
      ((∃ r k, p.Ends m r k) ↔ ∃ r k, p'.Ends m r k) ∧
        ∀ r k r' k', p.Ends m r k → p'.Ends m r' k' →
          k = k' ∧ r.mapError Fault.eraseLine = r'.mapError Fault.eraseLine := by
  intro p
  have hnamed : ∀ n ∈ p.exprNodes, n.Named := by
    simp [p, exprNodes, Stmt.exprNodes, Expr.nodes, Expr.Named]
    decide
  have hliteral : ∀ n ∈ p.exprNodes, n.Literal := by
    simp [p, exprNodes, Stmt.exprNodes, Expr.nodes, Expr.Literal]
  obtain ⟨p', hparse, -⟩ := parse_render hnamed hliteral
  exact ⟨hnamed, p', hparse, printing_preserves_meaning hnamed hparse⟩

end Program

end Imp32
