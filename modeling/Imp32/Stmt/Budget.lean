import Imp32.Stmt.Exec

/-!
# Budgets

A larger budget keeps every answer: if a statement ends for some budget, it ends for every larger
one, with the same result in the same state (`Stmt.exec_budget_mono`). So whether a statement ends,
and how, does not depend on the budget that shows it; `Stmt.Ends` and `Program.Ends` speak of runs
without naming one.
-/

namespace Imp32

namespace Exec

variable {α β : Type}

/-- One action ends whenever another one does, and then in the same way. -/
def Extends (x y : Exec α) : Prop := ∀ m r, x m = some r → y m = some r

namespace Extends

theorem refl (x : Exec α) : Extends x x := fun _ _ h => h

/-- Extending the parts of a sequence extends the sequence. -/
theorem bind {x y : Exec α} {f g : α → Exec β} (hxy : Extends x y)
    (hfg : ∀ a, Extends (f a) (g a)) : Extends (x >>= f) (y >>= g) := by
  intro m r h
  change (x m).bind (fun p => ExceptT.bindCont f p.1 p.2) = some r at h
  change (y m).bind (fun p => ExceptT.bindCont g p.1 p.2) = some r
  cases hx : x m with
  | none => rw [hx] at h; cases h
  | some p =>
    obtain ⟨result, m'⟩ := p
    rw [hxy m _ hx]
    rw [hx] at h
    cases result with
    | error fault => exact h
    | ok a => exact hfg a m' r h

/-- Extending an action extends it in a scope of its own. -/
theorem inScope {x y : Exec α} (hxy : Extends x y) : Extends (inScope x) (inScope y) := by
  intro m r h
  unfold Exec.inScope at h ⊢
  cases hx : x m.enter with
  | none => rw [hx] at h; cases h
  | some p =>
    rw [hxy _ _ hx]
    rw [hx] at h
    exact h

/-- Extending the body of a loop and its budget extends the loop. -/
theorem repeatWhile {condition : Exec Bool} {x y : Exec Unit} {b c : Nat} (hxy : Extends x y)
    (hbc : b ≤ c) :
    Extends (Exec.repeatWhile condition x b) (Exec.repeatWhile condition y c) := by
  induction b generalizing c with
  | zero => intro m r h; cases h
  | succ b ih =>
    obtain ⟨c, rfl⟩ : ∃ d, c = d + 1 := ⟨c - 1, by omega⟩
    refine bind (refl condition) fun holds => ?_
    cases holds with
    | true => exact bind hxy fun _ => ih (by omega)
    | false => exact refl _

end Extends

end Exec

namespace Stmt

open Exec

mutual

/-- A larger budget keeps the answer of a statement. -/
theorem exec_budget_mono {b c : Nat} (hbc : b ≤ c) : ∀ s : Stmt, Extends (s.exec b) (s.exec c)
  | .empty _ => .refl _
  | .block body _ => .inScope (execAll_budget_mono hbc body)
  | .ifThen _ thenBranch _ => .inScope (.bind (.refl _) fun holds => by
      cases holds with
      | true => exact exec_budget_mono hbc thenBranch
      | false => exact .refl _)
  | .ifElse _ thenBranch elseBranch _ => .inScope (.bind (.refl _) fun holds => by
      cases holds with
      | true => exact exec_budget_mono hbc thenBranch
      | false => exact exec_budget_mono hbc elseBranch)
  | .whileDo _ body _ => .inScope (.repeatWhile (exec_budget_mono hbc body) hbc)
  | .doWhile body _ _ => by
      rw [exec_doWhile, exec_doWhile]
      exact .inScope (.bind (exec_budget_mono hbc body) fun _ =>
        .repeatWhile (exec_budget_mono hbc body) hbc)
  | .forDo init _ _ body _ => .inScope (.bind (exec_budget_mono hbc init) fun _ =>
      .repeatWhile (.bind (exec_budget_mono hbc body) fun _ => .refl _) hbc)
  | .exprs _ _ => .refl _
  | .print _ _ => .refl _

/-- A larger budget keeps the answer of statements in sequence. -/
theorem execAll_budget_mono {b c : Nat} (hbc : b ≤ c) :
    ∀ ss : List Stmt, Extends (execAll b ss) (execAll c ss)
  | [] => .refl _
  | s :: ss => .bind (exec_budget_mono hbc s) fun _ => execAll_budget_mono hbc ss

end

/-- The run of a statement from a state ends with a result, in another state. -/
def Ends (s : Stmt) (m : Machine) (result : Except Fault Unit) (m' : Machine) : Prop :=
  ∃ budget, s.exec budget m = some (result, m')

end Stmt

namespace Program

/-- The run of a program from a state ends with a result, in another state. -/
def Ends (p : Program) (m : Machine) (result : Except Fault Unit) (m' : Machine) : Prop :=
  ∃ budget, p.exec budget m = some (result, m')

/-- A larger budget keeps the answer of a program. -/
theorem exec_budget_mono {p : Program} {b c : Nat} (hbc : b ≤ c) {m : Machine}
    {r : Except Fault Unit × Machine} (h : p.exec b m = some r) : p.exec c m = some r :=
  Stmt.execAll_budget_mono hbc _ m r h

end Program

end Imp32
