import Imp32.Proofs.EarliestError
import Imp32.Proofs.FaultOrigins
import Imp32.Proofs.Reparse
import Imp32.Proofs.TokenPlaces
import Imp32.Run

/-!
# Reported lines are lines of tokens

Whatever goes wrong with a source text, the line reported is that of a token of it, or of the text
that is no token. For syntax errors this follows from where parsing fails. For faults it follows
from the node to blame: each node of a parsed program was derived from a part of the tokens, and
carries the line of a token of that part.
-/

namespace Imp32

/-! ## The tokens of a node -/

/-- The node was derived from a part of the tokens, and carries the line of one in that part. -/
def Expr.TracedTo (ts : List Token) (e : Expr) : Prop :=
  ∃ rule own, own <:+: ts ∧ Derives rule own e ∧ ∃ t ∈ own, e.line = t.line

/-- The node was derived from a part of the tokens, and carries the line of one in that part. -/
def Stmt.TracedTo (ts : List Token) (s : Stmt) : Prop :=
  ∃ own, own <:+: ts ∧ Derives true own s ∧ ∃ t ∈ own, s.line = t.line

namespace Expr

theorem forall_tracedTo_mono {ts us : List Token} {ns : List Expr}
    (h : ∀ n ∈ ns, n.TracedTo ts) (hts : ts <:+: us) : ∀ n ∈ ns, n.TracedTo us := by
  intro n hn
  obtain ⟨rule, own, hown, hd, hline⟩ := h n hn
  exact ⟨rule, own, hown.trans hts, hd, hline⟩

theorem Derives.tracedTo {rule : Rule} {ts : List Token} {e : Expr} (h : Derives rule ts e)
    {t : Token} (ht : t ∈ ts) (hline : e.line = t.line) : e.TracedTo ts :=
  ⟨rule, ts, List.infix_refl ts, h, t, ht, hline⟩

theorem Derives.traced_binary {rule : Rule} {ts us : List Token} {t : Token} {left right : Expr}
    {op : BinaryOp} (h : Derives rule (ts ++ t :: us) (.binary left op right t.line))
    (hleft : ∀ n ∈ left.nodes, n.TracedTo ts) (hright : ∀ n ∈ right.nodes, n.TracedTo us) :
    ∀ n ∈ (Expr.binary left op right t.line).nodes, n.TracedTo (ts ++ t :: us) := by
  have hroot := h.tracedTo (t := t) (by simp) rfl
  refine List.forall_mem_cons.mpr ⟨hroot, List.forall_mem_append.mpr ⟨?_, ?_⟩⟩
  · exact forall_tracedTo_mono hleft ⟨[], t :: us, by simp⟩
  · exact forall_tracedTo_mono hright ⟨ts ++ [t], [], by simp⟩

/-- Every node of a derived expression has tokens of its own. -/
theorem Derives.traced {rule : Rule} {ts : List Token} {e : Expr} (h : Derives rule ts e) :
    ∀ n ∈ e.nodes, n.TracedTo ts := by
  induction h with
  | operand _ ih => exact ih
  | single _ ih => exact ih
  | primary _ ih => exact ih
  | assign hleft ht hop hright ihl ihr => exact (assign hleft ht hop hright).traced_binary ihl ihr
  | chain hleft ht hop hright ihl ihr => exact (chain hleft ht hop hright).traced_binary ihl ihr
  | @unary ts t e op sym ht hop h ih =>
    have hroot := (unary ht hop h).tracedTo (t := t) (by simp) rfl
    exact List.forall_mem_cons.mpr ⟨hroot, forall_tracedTo_mono ih ⟨[t], [], by simp⟩⟩
  | @literal t v ht =>
    have hroot := (literal ht).tracedTo (t := t) (by simp) rfl
    exact List.forall_mem_singleton.mpr hroot
  | @name t name ht =>
    have hroot := (Derives.name ht).tracedTo (t := t) (by simp) rfl
    exact List.forall_mem_singleton.mpr hroot
  | @parens ts t u e ht h hu ih => exact forall_tracedTo_mono ih ⟨[t], [u], by simp⟩

theorem DerivesParens.traced {ts : List Token} {e : Expr} (h : DerivesParens ts e) :
    ∀ n ∈ e.nodes, n.TracedTo ts := by
  cases h with
  | @mk ts t u _ ht h hu => exact forall_tracedTo_mono h.traced ⟨[t], [u], by simp⟩

theorem DerivesList.traced {ts : List Token} {es : List Expr} (h : DerivesList ts es) :
    ∀ n ∈ es.flatMap nodes, n.TracedTo ts := by
  induction h with
  | last h =>
    rw [List.flatMap_singleton]
    exact h.traced
  | @cons ts us t e es h ht hs ih =>
    rw [List.flatMap_cons]
    refine List.forall_mem_append.mpr ⟨?_, ?_⟩
    · exact forall_tracedTo_mono h.traced ⟨[], t :: us, by simp⟩
    · exact forall_tracedTo_mono ih ⟨ts ++ [t], [], by simp⟩

end Expr

namespace Stmt

/-- Each of the nodes has tokens of its own among those given. -/
structure Traced (ts : List Token) (stmts : List Stmt) (exprs : List Expr) : Prop where
  stmts : ∀ s ∈ stmts, s.TracedTo ts
  exprs : ∀ e ∈ exprs, e.TracedTo ts

section Traced

variable {ts us : List Token} {ss ss' : List Stmt} {es es' : List Expr}

theorem Traced.mono (h : Traced ts ss es) (hts : ts <:+: us) : Traced us ss es where
  stmts s hs := by
    obtain ⟨own, hown, hd, hline⟩ := h.stmts s hs
    exact ⟨own, hown.trans hts, hd, hline⟩
  exprs := Expr.forall_tracedTo_mono h.exprs hts

theorem Traced.append (h : Traced ts ss es) (h' : Traced ts ss' es') :
    Traced ts (ss ++ ss') (es ++ es') :=
  ⟨List.forall_mem_append.mpr ⟨h.stmts, h'.stmts⟩, List.forall_mem_append.mpr ⟨h.exprs, h'.exprs⟩⟩

theorem traced_of_exprs (h : ∀ e ∈ es, e.TracedTo ts) (hts : ts <:+: us) : Traced us [] es :=
  ⟨by simp, Expr.forall_tracedTo_mono h hts⟩

/-- A derived statement has the line of its first token. -/
theorem Traced.root {t : Token} {s : Stmt} (h : Traced (t :: ts) ss es)
    (hd : Derives true (t :: ts) s) (hline : s.line = t.line) : Traced (t :: ts) (s :: ss) es where
  stmts := by
    have hroot : s.TracedTo (t :: ts) := ⟨_, List.infix_refl _, hd, t, List.mem_cons_self, hline⟩
    exact List.forall_mem_cons.mpr ⟨hroot, h.stmts⟩
  exprs := h.exprs

end Traced

mutual

/-- Every node of a derived statement has tokens of its own. -/
theorem Derives.traced {ts : List Token} {s : Stmt} (h : Derives true ts s) :
    Traced ts s.nodes s.exprNodes := by
  match h with
  | .empty ht => exact Traced.root ⟨by simp, by simp [exprNodes]⟩ (.empty ht) rfl
  | @Derives.block _ ts t u body ht hbody hu =>
    have hparts : Traced (t :: ts ++ [u]) (nodesAll body) (exprNodesAll body) :=
      (DerivesAll.traced hbody).mono ⟨[t], [u], by simp⟩
    exact hparts.root (.block ht hbody hu) rfl
  | @Derives.ifThen _ cs ts t condition branch ht hc hbranch =>
    have hcond : Traced (t :: cs ++ ts) [] condition.nodes :=
      traced_of_exprs hc.traced ⟨[t], ts, by simp⟩
    have hparts : Traced (t :: cs ++ ts) branch.nodes branch.exprNodes :=
      (Derives.traced hbranch).mono ⟨t :: cs, [], by simp⟩
    exact (hcond.append hparts).root (.ifThen ht hc hbranch) rfl
  | @Derives.ifElse _ cs ts us t u condition branch other ht hc hbranch hn hu hother =>
    have hcond : Traced (t :: cs ++ ts ++ u :: us) [] condition.nodes :=
      traced_of_exprs hc.traced ⟨[t], ts ++ u :: us, by simp⟩
    have hparts : Traced (t :: cs ++ ts ++ u :: us) branch.nodes branch.exprNodes :=
      (Derives.traced hbranch).mono ⟨t :: cs, u :: us, by simp⟩
    have hothers : Traced (t :: cs ++ ts ++ u :: us) other.nodes other.exprNodes :=
      (Derives.traced hother).mono ⟨t :: cs ++ ts ++ [u], [], by simp⟩
    exact ((hcond.append hparts).append hothers).root (.ifElse ht hc hbranch hn hu hother) rfl
  | @Derives.whileDo _ cs ts t condition body ht hc hbody =>
    have hcond : Traced (t :: cs ++ ts) [] condition.nodes :=
      traced_of_exprs hc.traced ⟨[t], ts, by simp⟩
    have hparts : Traced (t :: cs ++ ts) body.nodes body.exprNodes :=
      (Derives.traced hbody).mono ⟨t :: cs, [], by simp⟩
    exact (hcond.append hparts).root (.whileDo ht hc hbody) rfl
  | @Derives.doWhile _ cs ts t u v condition body ht hbody hu hc hv =>
    have hparts : Traced (t :: ts ++ u :: cs ++ [v]) body.nodes body.exprNodes :=
      (Derives.traced hbody).mono ⟨[t], u :: cs ++ [v], by simp⟩
    have hcond : Traced (t :: ts ++ u :: cs ++ [v]) [] condition.nodes :=
      traced_of_exprs hc.traced ⟨t :: ts ++ [u], [v], by simp⟩
    have hall := hparts.append hcond
    rw [List.append_nil] at hall
    exact hall.root (.doWhile ht hbody hu hc hv) rfl
  | @Derives.forDo _ is cs ss ts t u v w condition step init body ht hu hi hc hv hs hw hbody =>
    have hinit : Traced (t :: u :: is ++ cs ++ v :: ss ++ w :: ts) init.nodes init.exprNodes :=
      (Derives.traced hi).mono ⟨[t, u], cs ++ v :: ss ++ w :: ts, by simp⟩
    have hcond : Traced (t :: u :: is ++ cs ++ v :: ss ++ w :: ts) [] condition.nodes :=
      traced_of_exprs hc.traced ⟨t :: u :: is, v :: ss ++ w :: ts, by simp⟩
    have hstep : Traced (t :: u :: is ++ cs ++ v :: ss ++ w :: ts) [] step.nodes :=
      traced_of_exprs hs.traced ⟨t :: u :: is ++ cs ++ [v], w :: ts, by simp⟩
    have hparts : Traced (t :: u :: is ++ cs ++ v :: ss ++ w :: ts) body.nodes body.exprNodes :=
      (Derives.traced hbody).mono ⟨t :: u :: is ++ cs ++ v :: ss ++ [w], [], by simp⟩
    have hall := ((hinit.append hcond).append hstep).append hparts
    rw [List.append_nil, List.append_nil] at hall
    exact hall.root (.forDo ht hu hi hc hv hs hw hbody) rfl
  | @Derives.exprs _ ts t u list hlist hu =>
    have hexprs : Traced (t :: ts ++ [u]) [] (list.flatMap Expr.nodes) :=
      traced_of_exprs hlist.traced ⟨[], [u], by simp⟩
    exact hexprs.root (.exprs hlist hu) rfl
  | @Derives.print _ ts t u value ht hvalue hu =>
    have hexprs : Traced (t :: ts ++ [u]) [] value.nodes :=
      traced_of_exprs hvalue.traced ⟨[t], [u], by simp⟩
    exact hexprs.root (.print ht hvalue hu) rfl

theorem DerivesAll.traced {ts : List Token} {ss : List Stmt} (h : DerivesAll true ts ss) :
    Traced ts (nodesAll ss) (exprNodesAll ss) := by
  match h with
  | .nil => exact ⟨by simp [nodesAll], by simp [exprNodesAll]⟩
  | @DerivesAll.cons _ ts us s ss hfirst hrest =>
    have hhead : Traced (ts ++ us) s.nodes s.exprNodes :=
      (Derives.traced hfirst).mono ⟨[], us, by simp⟩
    have htail : Traced (ts ++ us) (nodesAll ss) (exprNodesAll ss) :=
      (DerivesAll.traced hrest).mono ⟨ts, [], by simp⟩
    exact hhead.append htail

end

end Stmt

theorem Program.Derives.traced {ts : List Token} {p : Program} (h : Derives true ts p) :
    Stmt.Traced ts p.nodes p.exprNodes := by
  rw [nodes, exprNodes, ← Stmt.nodesAll_eq_flatMap, ← Stmt.exprNodesAll_eq_flatMap]
  exact Stmt.DerivesAll.traced h

/-! ## The line of an error -/

/-- The line that an error reports. -/
def Error.line? : Error → Option Nat
  | .parsing error => some error.line
  | .running fault => fault.line?

theorem Expr.Raises.line?_eq {e : Expr} {fault : Fault} (h : e.Raises fault) :
    fault.line? = some e.line := by
  cases h <;> rfl

theorem Stmt.Raises.line?_eq {s : Stmt} {fault : Fault} (h : s.Raises fault) :
    fault.line? = some s.line := by
  cases h
  rfl

namespace Program

theorem line_of_exec_eq_error {p : Program} {ts : List Token} (hp : Derives true ts p)
    {budget : Nat} {m m' : Machine} {fault : Fault}
    (h : p.exec budget m = some (.error fault, m')) : ∃ t ∈ ts, fault.line? = some t.line := by
  rcases raises_of_exec h with ⟨s, hs, hraise⟩ | ⟨e, he, hraise⟩
  · obtain ⟨own, hown, -, t, ht, hline⟩ := hp.traced.stmts s hs
    exact ⟨t, hown.subset ht, by rw [hraise.line?_eq, hline]⟩
  · obtain ⟨rule, own, hown, -, t, ht, hline⟩ := hp.traced.exprs e he
    exact ⟨t, hown.subset ht, by rw [hraise.line?_eq, hline]⟩

theorem line_of_parseTokens_eq_fail {ts rest : List Token} {e : SyntaxError}
    (h : parseTokens ts = .fail e rest) : ∃ t ∈ ts, e.line = t.line := by
  rcases fail_cases h with ⟨-, -, hearly⟩ | ⟨init, t, rfl, hat, -, -⟩
  · rcases hearly with ⟨-, t, hlast, hline⟩ | ⟨-, t, ht, hline⟩
    · exact ⟨t, List.mem_of_getLast? hlast, hline⟩
    · exact ⟨t, ht, hline.symm⟩
  · exact ⟨t, by simp, hat.1⟩

theorem line_of_parse_eq_error {source : String} {ts : List Token} (hscan : scan source = .ok ts)
    {e : SyntaxError} (h : parse source = .error e) : ∃ t ∈ ts, e.line = t.line := by
  unfold parse at h
  rw [hscan] at h
  dsimp only at h
  split at h
  · cases h
  · rename_i e' rest hfail
    cases h
    exact line_of_parseTokens_eq_fail hfail

end Program

/-- What goes wrong with a text that consists of tokens has the line of one of them. -/
theorem line_of_run_eq_error {budget : Nat} {source : String} {sink : Sink} {error : Error}
    {m : Machine} (h : run budget source sink = some (.error error, m)) {ts : List Token}
    (hscan : scan source = .ok ts) : ∃ t ∈ ts, error.line? = some t.line := by
  unfold run at h
  cases hparse : Program.parse source with
  | error e =>
    rw [hparse] at h
    cases h
    obtain ⟨t, ht, hline⟩ := Program.line_of_parse_eq_error hscan hparse
    exact ⟨t, ht, congrArg some hline⟩
  | ok p =>
    rw [hparse] at h
    obtain ⟨ts', hscan', hp⟩ := Program.parse_eq_ok_iff.mp hparse
    cases hscan.symm.trans hscan'
    dsimp only at h
    split at h
    · cases h
    · rename_i fault m' hexec
      cases h
      exact Program.line_of_exec_eq_error hp hexec
    · cases h

theorem error_of_run_of_scan_eq_error {budget : Nat} {source : String} {sink : Sink}
    {error : Error} {m : Machine} (h : run budget source sink = some (.error error, m))
    {e : Unrecognised} (hscan : scan source = .error e) :
    error = .parsing ⟨.unrecognised e.text, e.line⟩ := by
  have hparse : Program.parse source = .error ⟨.unrecognised e.text, e.line⟩ := by
    rw [Program.parse, hscan]
  rw [run, hparse] at h
  cases h
  rfl

/-- The line reported for a source that fails is real: one more than the number of line ends before
a token of the source or, if the source holds text that is no token, before that text. And every
node of a program carries the line of one of the tokens it was parsed from. -/
theorem reported_lines_are_real (source : String) :
    (∀ budget sink error m, run budget source sink = some (.error error, m) →
      ∃ line, error.line? = some line ∧ 1 ≤ line ∧ line ≤ 1 + source.toList.count '\n' ∧
        match scan source with
        | .ok ts => ∃ t ∈ ts, t.line = line ∧ ∃ before text after,
            source.toList = before ++ text ++ after ∧ t.Stands before text after ∧
              line = 1 + before.count '\n'
        | .error e => error = .parsing ⟨.unrecognised e.text, line⟩ ∧ ∃ before after,
            source.toList = before ++ e.text.toList ++ after ∧ e.Stands before after ∧
              line = 1 + before.count '\n') ∧
      ∀ p, Program.parse source = .ok p →
        ∃ ts, scan source = .ok ts ∧ (∀ s ∈ p.nodes, s.TracedTo ts) ∧
          ∀ e ∈ p.exprNodes, e.TracedTo ts := by
  constructor
  · intro budget sink error m h
    cases hscan : scan source with
    | ok ts =>
      obtain ⟨t, ht, hline⟩ := line_of_run_eq_error h hscan
      obtain ⟨before, text, after, hsource, hstands, hcount⟩ := stands_of_mem_scan hscan ht
      have hle := count_le_of_eq_append hsource
      refine ⟨t.line, hline, by omega, by omega, ?_⟩
      exact ⟨t, ht, rfl, before, text, after, hsource, hstands, hcount⟩
    | error e =>
      obtain rfl := error_of_run_of_scan_eq_error h hscan
      obtain ⟨before, after, hsource, hstands, hcount⟩ := stands_of_scan_eq_error hscan
      have hle := count_le_of_eq_append hsource
      refine ⟨e.line, rfl, by omega, by omega, ?_⟩
      exact ⟨rfl, before, after, hsource, hstands, hcount⟩
  · intro p hp
    obtain ⟨ts, hscan, hd⟩ := Program.parse_eq_ok_iff.mp hp
    exact ⟨ts, hscan, hd.traced.stmts, hd.traced.exprs⟩

theorem reported_lines_are_real_after_comment :
    let source := "/* a\n*/ while (1)\nprint 6 /\n0;"
    let ts : List Token := [⟨.keyword .whileWord, 2⟩, ⟨.symbol .leftParen, 2⟩, ⟨.integer 1, 2⟩,
      ⟨.symbol .rightParen, 2⟩, ⟨.keyword .printWord, 3⟩, ⟨.integer 6, 3⟩,
      ⟨.symbol (.binary (.arith .div)), 3⟩, ⟨.integer 0, 4⟩, ⟨.symbol .semicolon, 4⟩]
    let quotient : Expr := .binary (.num 6 3) (.arith .div) (.num 0 4) 3
    let p : Program := [.whileDo (.num 1 2) (.print quotient 3) 2]
    Program.parse source = .ok p ∧ scan source = .ok ts ∧ quotient.TracedTo ts ∧
      ∃ m, run 1 source {} = some (.error (.running (.raised .divisionByZero 3)), m) ∧
        ∃ t ∈ ts, ∃ before text after, source.toList = before ++ text ++ after ∧
          t.Stands before text after ∧ 3 = 1 + before.count '\n' := by
  intro source ts quotient p
  have hscan : scan source = .ok ts := by decide +kernel
  have hparse : Program.parse source = .ok p := by
    rw [Program.parse, hscan]
    cbv
  obtain ⟨m, hrun⟩ :
      ∃ m, run 1 source {} = some (.error (.running (.raised .divisionByZero 3)), m) := by
    rw [run, hparse]
    exact ⟨_, rfl⟩
  obtain ⟨ts', hscan', -, hexprs⟩ := (reported_lines_are_real source).2 p hparse
  cases hscan.symm.trans hscan'
  obtain ⟨line, hline, -, -, hplace⟩ := (reported_lines_are_real source).1 1 {} _ m hrun
  cases hline
  rw [hscan] at hplace
  obtain ⟨t, ht, -, hstands⟩ := hplace
  exact ⟨hparse, hscan, hexprs quotient (by decide), m, hrun, t, ht, hstands⟩

end Imp32
