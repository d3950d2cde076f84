import Imp32.Proofs.VisibleValues
import Imp32.Proofs.WrittenNames

/-!
# The order of operands

The right operand is evaluated before the left one. It makes no difference if neither operand
mentions a variable that the other one writes (`operand_order_does_not_matter`).

An expression acts on its environment by assignments to the variables that it writes
(`Expr.exists_assignAll`). An assignment to a variable that it does not mention is not seen by it,
and may as well come afterwards (`Expr.eval_assign`). So each operand does the same before and after
the other one, and the assignments of both may be exchanged.
-/

namespace Imp32

/-! ## Assignments in sequence -/

namespace Env

/-- Gives variables values, one after another. -/
def assignAll (env : Env) (ws : List (String × Value)) : Env :=
  ws.foldl (fun env w => env.assign w.1 w.2) env

theorem assignAll_cons (env : Env) (w : String × Value) (ws : List (String × Value)) :
    env.assignAll (w :: ws) = (env.assign w.1 w.2).assignAll ws :=
  rfl

theorem assignAll_concat (env : Env) (ws : List (String × Value)) (w : String × Value) :
    env.assignAll (ws ++ [w]) = (env.assignAll ws).assign w.1 w.2 := by
  rw [assignAll, List.foldl_append]
  rfl

theorem assignAll_assign_comm {x : String} {ws : List (String × Value)} (h : ∀ w ∈ ws, w.1 ≠ x)
    (env : Env) (v : Value) :
    (env.assign x v).assignAll ws = (env.assignAll ws).assign x v := by
  induction ws generalizing env with
  | nil => rfl
  | cons w ws ih =>
    rw [List.forall_mem_cons] at h
    rw [assignAll_cons, assign_comm env h.1.symm, ih h.2, ← assignAll_cons]

/-- Assignments to different variables may be exchanged. -/
theorem assignAll_comm {us ws : List (String × Value)} (h : ∀ u ∈ us, ∀ w ∈ ws, w.1 ≠ u.1)
    (env : Env) : (env.assignAll us).assignAll ws = (env.assignAll ws).assignAll us := by
  induction us generalizing env with
  | nil => rfl
  | cons u us ih =>
    rw [List.forall_mem_cons] at h
    rw [assignAll_cons, ih h.2, assignAll_assign_comm h.1, ← assignAll_cons]

end Env

/-! ## What an expression does to its environment -/

namespace Expr

theorem mem_names_of_mem_written {e : Expr} {x : String} (h : x ∈ e.written) : x ∈ e.names := by
  obtain ⟨n, hn, hx⟩ := List.mem_filterMap.mp h
  have hsub := e.closedNodes_nodes n hn
  unfold writes? at hx
  split at hx
  case h_1 name l line =>
    cases hx
    exact ⟨l, hsub (by simp [nodes])⟩
  case h_2 name l line =>
    cases hx
    exact ⟨l, hsub (by simp [nodes])⟩
  case h_3 name l right line =>
    cases hx
    exact ⟨l, hsub (by simp [nodes])⟩
  case h_4 name l op right line =>
    cases hx
    exact ⟨l, hsub (by simp [nodes])⟩
  case h_5 => cases hx

/-- Environments that some assignments to variables of the list lead to. -/
def Reached (names : List String) (start e e' : Env) : Prop :=
  e = e' ∧ ∃ ws : List (String × Value), (∀ w ∈ ws, w.1 ∈ names) ∧ e = start.assignAll ws

theorem Reached.assign {names : List String} {start e e' : Env} {x : String}
    (h : Reached names start e e') (hx : x ∈ names) (v : Value) :
    Reached names start (e.assign x v) (e'.assign x v) := by
  obtain ⟨rfl, ws, hws, rfl⟩ := h
  refine ⟨rfl, ws ++ [(x, v)], ?_, (Env.assignAll_concat start ws (x, v)).symm⟩
  intro w hw
  rcases List.mem_append.mp hw with hw | hw
  · exact hws w hw
  · rw [List.mem_singleton.mp hw]
    exact hx

/-- An expression acts on its environment by assignments to variables that it writes. -/
theorem exists_assignAll (e : Expr) (env : Env) :
    ∃ ws : List (String × Value), (∀ w ∈ ws, w.1 ∈ e.written) ∧
      (e.eval env).2 = env.assignAll ws := by
  have hrelated : Env.Related (.writing (· ∈ e.written)) (Reached e.written env) :=
    { get? := fun h _ => by rw [h.1]
      declare := fun h hname value => h.assign hname value
      update := fun h hname _ value => h.assign hname value }
  have hwithin : ∀ n ∈ e.nodes, n.Within (.writing (· ∈ e.written)) :=
    within_writing_of_mem fun _ hname => hname
  have hstart : Reached e.written env env env := ⟨rfl, [], by simp, rfl⟩
  exact (sim_eval hrelated hwithin env env hstart).2.2

/-- An assignment to a variable that an expression does not mention may come before or after. -/
theorem eval_assign {e : Expr} {x : String} (hx : x ∉ e.names) (env : Env) (v : Value) :
    e.eval (env.assign x v) = ((e.eval env).1, (e.eval env).2.assign x v) := by
  have hassign {env env' : Env} (h : env' = env.assign x v) {name : String} (hname : name ≠ x)
      (value : Value) : env'.assign name value = (env.assign name value).assign x v := by
    rw [h, Env.assign_comm env hname.symm]
  have hrelated : Env.Related (.ofNames {name | name ≠ x})
      fun env env' => env' = env.assign x v :=
    { get? := fun {env env' name} h hname => by
        rw [h, Env.get?_assign_of_ne env (Ne.symm hname)]
      declare := fun h hname value => hassign h hname value
      update := fun h hname _ value => hassign h hname value }
  have hwithin : ∀ n ∈ e.nodes, n.Within (.ofNames {name | name ≠ x}) := by
    refine within_ofNames e.closedNodes_nodes fun name line hmem heq => ?_
    rw [heq] at hmem
    exact hx ⟨line, hmem⟩
  obtain ⟨hresult, henv⟩ := sim_eval hrelated hwithin env (env.assign x v) rfl
  exact Prod.ext hresult.symm henv

theorem eval_assignAll {e : Expr} {ws : List (String × Value)} (h : ∀ w ∈ ws, w.1 ∉ e.names)
    (env : Env) : e.eval (env.assignAll ws) = ((e.eval env).1, (e.eval env).2.assignAll ws) := by
  induction ws generalizing env with
  | nil => rfl
  | cons w ws ih =>
    rw [List.forall_mem_cons] at h
    rw [Env.assignAll_cons, ih h.2, eval_assign h.1]
    rfl

end Expr

/-! ## Two operands -/

section Independent

variable {l r : Expr}

/-- Evaluated after an expression that does not touch its variables, an expression does the same. -/
theorem Expr.eval_after (hlr : ∀ x ∈ l.written, x ∉ r.names) (env : Env) :
    (r.eval (l.eval env).2).1 = (r.eval env).1 := by
  obtain ⟨ws, hws, henv⟩ := l.exists_assignAll env
  rw [henv, eval_assignAll fun w hw => hlr w.1 (hws w hw)]

/-- Both orders of evaluation lead to the same environment. -/
theorem Expr.eval_swap (hlr : ∀ x ∈ l.written, x ∉ r.names) (hrl : ∀ x ∈ r.written, x ∉ l.names)
    (env : Env) : (r.eval (l.eval env).2).2 = (l.eval (r.eval env).2).2 := by
  obtain ⟨ws, hws, hl⟩ := l.exists_assignAll env
  obtain ⟨us, hus, hr⟩ := r.exists_assignAll env
  have hws' : ∀ w ∈ ws, w.1 ∉ r.names := fun w hw => hlr w.1 (hws w hw)
  have hus' : ∀ u ∈ us, u.1 ∉ l.names := fun u hu => hrl u.1 (hus u hu)
  have hdisjoint : ∀ u ∈ us, ∀ w ∈ ws, w.1 ≠ u.1 := by
    intro u hu w hw heq
    have hmem := mem_names_of_mem_written (hws w hw)
    rw [heq] at hmem
    exact hus' u hu hmem
  calc (r.eval (l.eval env).2).2
      = (r.eval env).2.assignAll ws := by rw [hl, eval_assignAll hws']
    _ = (env.assignAll us).assignAll ws := by rw [hr]
    _ = (env.assignAll ws).assignAll us := Env.assignAll_comm hdisjoint env
    _ = (l.eval (r.eval env).2).2 := by rw [hr, eval_assignAll hus', hl]

/-- Evaluating both expressions succeeds in either order or in neither; and then with the same two
values and the same environment. -/
theorem Expr.eval_both_iff (hlr : ∀ x ∈ l.written, x ∉ r.names)
    (hrl : ∀ x ∈ r.written, x ∉ l.names) (env env' : Env) (a b : Value) :
    (∃ mid, r.eval env = (.ok b, mid) ∧ l.eval mid = (.ok a, env')) ↔
      ∃ mid, l.eval env = (.ok a, mid) ∧ r.eval mid = (.ok b, env') := by
  have hl := eval_after hrl env
  have hr := eval_after hlr env
  have henv := eval_swap hlr hrl env
  constructor
  · rintro ⟨mid, hb, ha⟩
    rw [hb] at hl hr henv
    rw [ha] at hl henv
    exact ⟨(l.eval env).2, Prod.ext hl.symm rfl, Prod.ext hr henv⟩
  · rintro ⟨mid, ha, hb⟩
    rw [ha] at hl hr henv
    rw [hb] at hr henv
    exact ⟨(r.eval env).2, Prod.ext hr.symm rfl, Prod.ext hl henv.symm⟩

end Independent

/-! ## Operators that may be turned round -/

/-- The operators whose operands may change places. -/
def BinaryOp.commutative : List BinaryOp :=
  [.arith .add, .arith .mul, .arith .and, .arith .or, .arith .xor, .compare .eq, .compare .ne,
    .logic .and, .logic .or]

theorem BinaryOp.apply_comm {op : BinaryOp} (h : op ∈ commutative) (line line' : Nat)
    (a b : Value) : op.apply line a b = op.apply line' b a := by
  have hcases : op = .arith .add ∨ op = .arith .mul ∨ op = .arith .and ∨ op = .arith .or ∨
      op = .arith .xor ∨ op = .compare .eq ∨ op = .compare .ne ∨ op = .logic .and ∨
      op = .logic .or := by
    simpa [commutative] using h
  rcases hcases with rfl | rfl | rfl | rfl | rfl | rfl | rfl | rfl | rfl
  · exact congrArg Except.ok (Int32.add_comm a b)
  · exact congrArg Except.ok (Int32.mul_comm a b)
  · exact congrArg Except.ok (Int32.and_comm a b)
  · exact congrArg Except.ok (Int32.or_comm a b)
  · exact congrArg Except.ok (Int32.xor_comm a b)
  · exact congrArg (fun p => Except.ok (Value.ofBool p)) (Bool.beq_comm)
  · exact congrArg (fun p => Except.ok (Value.ofBool p)) (bne_comm)
  · exact congrArg (fun p => Except.ok (Value.ofBool p)) (Bool.and_comm _ _)
  · exact congrArg (fun p => Except.ok (Value.ofBool p)) (Bool.or_comm _ _)

theorem BinaryOp.assigns_of_mem_commutative {op : BinaryOp} (h : op ∈ commutative) :
    op.assigns = false := by
  have hall : ∀ op ∈ commutative, op.assigns = false := by decide
  exact hall op h

/-- If neither of two expressions mentions a variable that the other one writes, evaluating them
succeeds in either order or in neither, and then with the same values and effects. Hence the
operands of a commutative operator may change places. -/
theorem operand_order_does_not_matter {l r : Expr} (hlr : ∀ x ∈ l.written, x ∉ r.names)
    (hrl : ∀ x ∈ r.written, x ∉ l.names) (env : Env) :
    (∀ a b env', (∃ mid, r.eval env = (.ok b, mid) ∧ l.eval mid = (.ok a, env')) ↔
      ∃ mid, l.eval env = (.ok a, mid) ∧ r.eval mid = (.ok b, env')) ∧
    ∀ op ∈ BinaryOp.commutative, ∀ line line' v env',
      (Expr.binary l op r line).eval env = (.ok v, env') ↔
        (Expr.binary r op l line').eval env = (.ok v, env') := by
  refine ⟨fun a b env' => Expr.eval_both_iff hlr hrl env env' a b, ?_⟩
  intro op hop line line' v env'
  have hassigns := BinaryOp.assigns_of_mem_commutative hop
  rw [Expr.eval_binary_eq_ok_iff hassigns, Expr.eval_binary_eq_ok_iff hassigns]
  constructor
  · rintro ⟨a, b, hboth, happly⟩
    rw [BinaryOp.apply_comm hop line line'] at happly
    exact ⟨b, a, (Expr.eval_both_iff hlr hrl env env' a b).mp hboth, happly⟩
  · rintro ⟨b, a, hboth, happly⟩
    rw [BinaryOp.apply_comm hop line' line] at happly
    exact ⟨a, b, (Expr.eval_both_iff hlr hrl env env' a b).mpr hboth, happly⟩

/-- One operand declares a variable and reads another one; the other operand steps a variable of an
outer frame and declares one as well. -/
theorem operand_order_does_not_matter_declaring :
    let l : Expr := .binary (.var "x" 1) .assign (.var "y" 1) 1
    let r : Expr := .binary (.unary .increment (.var "z" 1) 1) (.arith .sub)
      (.binary (.var "w" 1) .assign (.var "y" 1) 1) 1
    let env : Env := { inner := (∅ : Frame).insert "y" 3, outer := [(∅ : Frame).insert "z" 7] }
    let env' : Env := { inner := (((∅ : Frame).insert "y" 3).insert "w" 3).insert "x" 3,
                        outer := [(∅ : Frame).insert "z" 8] }
    (∃ mid, l.eval env = (.ok 3, mid) ∧ r.eval mid = (.ok 5, env')) ∧
      (Expr.binary l (.arith .add) r 1).eval env = (.ok 8, env') ∧
      (Expr.binary r (.arith .add) l 1).eval env = (.ok 8, env') := by
  intro l r env env'
  have hlr : ∀ x ∈ l.written, x ∉ r.names := by
    rintro x hx ⟨line, hmem⟩
    obtain rfl : x = "x" := by simpa [l, Expr.written, Expr.nodes, Expr.writes?] using hx
    simp [r, Expr.nodes] at hmem
  have hrl : ∀ x ∈ r.written, x ∉ l.names := by
    rintro x hx ⟨line, hmem⟩
    have hx : "z" = x ∨ "w" = x := by
      simpa [r, Expr.written, Expr.nodes, Expr.writes?] using hx
    rcases hx with rfl | rfl <;> simp [l, Expr.nodes] at hmem
  have horder := operand_order_does_not_matter hlr hrl env
  have hright : ∃ mid, r.eval env = (.ok 5, mid) ∧ l.eval mid = (.ok 3, env') :=
    ⟨_, rfl, rfl⟩
  have hsum : (Expr.binary l (.arith .add) r 1).eval env = (.ok 8, env') := rfl
  exact ⟨(horder.1 3 5 env').mp hright, hsum,
    (horder.2 (.arith .add) (by decide) 1 1 8 env').mp hsum⟩

end Imp32
