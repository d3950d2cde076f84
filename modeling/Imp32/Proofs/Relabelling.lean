import Imp32.Proofs.Lines
import Imp32.Proofs.Reading

/-!
# Parsing tokens on other lines

No parser looks at the line of a token. If the lines of the tokens are changed, each parser goes as
before, and the same change shows in the lines of the tree or of the error, and of the tokens left
(`Program.relabels_parseTokens`).

Line zero stands for the end of the input until the parser of a whole program puts the last line in
its place. So the change has to keep line zero.
-/

namespace Imp32

/-- Changes the line of a token. -/
def Token.mapLine (f : Nat → Nat) (t : Token) : Token := { t with line := f t.line }

/-- Changes the line of a syntax error. -/
def SyntaxError.mapLine (f : Nat → Nat) (e : SyntaxError) : SyntaxError :=
  { e with line := f e.line }

/-! ## Actions on relabelled tokens -/

namespace Reading

variable {α β γ : Type} {f : Nat → Nat}

/-- Changes the lines of what an action ends with. The value is changed by a function of its own. -/
def relabel (f : Nat → Nat) (g : α → β) :
    Except SyntaxError α × List Token → Except SyntaxError β × List Token
  | (.ok value, rest) => (.ok (g value), rest.map (Token.mapLine f))
  | (.error e, rest) => (.error (e.mapLine f), rest.map (Token.mapLine f))

/-- With the lines of the tokens changed, the second action ends as the first one does without, up
to the same change. -/
def Relabels (f : Nat → Nat) (g : α → β) (x : Reading α) (y : Reading β) (ts : List Token) : Prop :=
  y (ts.map (Token.mapLine f)) = relabel f g (x ts)

namespace Relabels

variable {g : α → β} {x : Reading α} {y : Reading β} {ts : List Token}

theorem of_pure (g : α → β) (v : α) (ts : List Token) : Relabels f g (pure v) (pure (g v)) ts :=
  rfl

theorem of_throw (g : α → β) (e : SyntaxError) (ts : List Token) :
    Relabels f g (throw e) (throw (e.mapLine f)) ts :=
  rfl

/-- The second action is only run on what the first one leaves. -/
theorem bind {α' β' : Type} {g' : α' → β'} {k : α → Reading α'} {k' : β → Reading β'}
    (hx : Relabels f g x y ts)
    (hk : ∀ {v rest}, x ts = (.ok v, rest) → Relabels f g' (k v) (k' (g v)) rest) :
    Relabels f g' (x >>= k) (y >>= k') ts := by
  unfold Relabels at hx ⊢
  rw [bind_apply, bind_apply, hx]
  rcases hxts : x ts with ⟨e | v, rest⟩
  · rfl
  · exact hk hxts

/-- Changing the lines of a tree that is built from the value changes those of the value. -/
theorem map {α' β' : Type} {g' : α' → β'} {h : α → α'} {h' : β → β'} (hx : Relabels f g x y ts)
    (hgh : ∀ v, g' (h v) = h' (g v)) :
    Relabels f g' (x >>= fun v => pure (h v)) (y >>= fun v => pure (h' v)) ts := by
  refine hx.bind fun {v rest} _ => ?_
  rw [← hgh]
  exact of_pure g' (h v) rest

/-- Whether the next token tells how to go on hangs on its kind, and not on its line. -/
theorem ifNext {next : Token.Kind → Option (Nat → Reading α)}
    {next' : Token.Kind → Option (Nat → Reading β)} {other : Reading α} {other' : Reading β}
    (hnext : ∀ {t us}, ts = t :: us → (next t.kind = none ∧ next' t.kind = none) ∨
      ∃ z z', next t.kind = some z ∧ next' t.kind = some z' ∧
        Relabels f g (z t.line) (z' (f t.line)) us)
    (hother : Relabels f g other other' ts) :
    Relabels f g (ifNext next other) (ifNext next' other') ts := by
  cases ts with
  | nil => exact hother
  | cons t us =>
    unfold Relabels
    simp only [Reading.ifNext, List.map_cons, Token.mapLine]
    rcases hnext rfl with ⟨hnone, hnone'⟩ | ⟨z, z', hsome, hsome', hz⟩
    · rw [hnone, hnone']
      exact hother
    · rw [hsome, hsome']
      exact hz

theorem ifNext_map {next : Token.Kind → Option γ} {z : γ → Nat → Reading α}
    {z' : γ → Nat → Reading β} {other : Reading α} {other' : Reading β}
    (hz : ∀ {t us c}, ts = t :: us → Relabels f g (z c t.line) (z' c (f t.line)) us)
    (hother : Relabels f g other other' ts) :
    Relabels f g (Reading.ifNext (fun k => (next k).map z) other)
      (Reading.ifNext (fun k => (next k).map z') other') ts := by
  refine ifNext (fun {t us} hts => ?_) hother
  cases next t.kind with
  | none => exact .inl ⟨rfl, rfl⟩
  | some c => exact .inr ⟨z c, z' c, rfl, rfl, hz hts⟩

theorem ifNext_eq {kind : Token.Kind} {z : Nat → Reading α} {z' : Nat → Reading β}
    {other : Reading α} {other' : Reading β}
    (hz : ∀ {t us}, ts = t :: us → Relabels f g (z t.line) (z' (f t.line)) us)
    (hother : Relabels f g other other' ts) :
    Relabels f g (Reading.ifNext (fun k => if k = kind then some z else none) other)
      (Reading.ifNext (fun k => if k = kind then some z' else none) other') ts := by
  refine ifNext (fun {t us} hts => ?_) hother
  by_cases hk : t.kind = kind
  · exact .inr ⟨z, z', if_pos hk, if_pos hk, hz hts⟩
  · exact .inl ⟨if_neg hk, if_neg hk⟩

/-- An action that takes a token of one kind, and blames any other one for a cause that its kind
tells. -/
theorem of_first {x y : Reading Unit} {wanted : Token.Kind}
    (cause : Token.Kind → SyntaxError.Cause)
    (hx : ∀ t us, x (t :: us) =
      if t.kind = wanted then (.ok (), us) else (.error ⟨cause t.kind, t.line⟩, us))
    (hy : ∀ t us, y (t :: us) =
      if t.kind = wanted then (.ok (), us) else (.error ⟨cause t.kind, t.line⟩, us))
    (hnil : Relabels f id x y []) : Relabels f id x y ts := by
  cases ts with
  | nil => exact hnil
  | cons t us =>
    have hkind : (t.mapLine f).kind = t.kind := rfl
    unfold Relabels
    rw [List.map_cons, hy, hx, hkind]
    by_cases hk : t.kind = wanted
    · rw [if_pos hk, if_pos hk]
      rfl
    · rw [if_neg hk, if_neg hk]
      rfl

end Relabels

theorem relabels_expect (f : Nat → Nat) (wanted : Token.Kind) (line : Nat) (ts : List Token) :
    Relabels f id (reading (expect wanted line)) (reading (expect wanted (f line))) ts :=
  .of_first (.expected wanted) (reading_expect_cons wanted line)
    (reading_expect_cons wanted (f line)) rfl

theorem relabels_expectCloseParen (f : Nat → Nat) (line : Nat) (ts : List Token) :
    Relabels f id (reading (expectCloseParen line)) (reading (expectCloseParen (f line))) ts :=
  .of_first (fun _ => .unclosedParen) (reading_expectCloseParen_cons line)
    (reading_expectCloseParen_cons (f line)) rfl

end Reading

open Reading

/-! ## Expressions -/

namespace Expr

variable {f : Nat → Nat}

/-- The line that is blamed for a missing parenthesis changes with the others. -/
theorem relabels_enclosed {line : Nat} {ts : List Token}
    (hparse : Relabels f (mapLines f) (reading parse) (reading parse) ts) :
    Relabels f (mapLines f) (enclosed line) (enclosed (f line)) ts :=
  hparse.bind fun _ => (relabels_expectCloseParen f line _).map fun _ => rfl

theorem relabels_literal (n : Int) (line : Nat) (ts : List Token) :
    Relabels f (mapLines f) (literal n line) (literal n (f line)) ts := by
  unfold literal
  cases Value.ofLiteral? n with
  | some v => exact .of_pure (mapLines f) (.num v line) ts
  | none => exact .of_throw (mapLines f) ⟨.literalTooLarge, line⟩ ts

mutual

/-- Line zero stays where it is, so an error at the end is still one without a line. -/
theorem relabels_parse (hf : f 0 = 0) (ts : List Token) :
    Relabels f (mapLines f) (reading parse) (reading parse) ts := by
  rw [reading_parse]
  refine (relabels_parseOperand hf 9 ts).bind fun {left rest} hleft => ?_
  have hlt := length_lt_of_reading hleft
  refine .ifNext_map (fun {t us op} hrest => ?_) (.of_pure _ left rest)
  have hlen : rest.length = us.length + 1 := by rw [hrest, List.length_cons]
  exact (relabels_parse hf us).map fun _ => rfl
termination_by 13 * ts.length + 12
decreasing_by all_goals omega

theorem relabels_parseOperand (hf : f 0 = 0) (k : Nat) (ts : List Token) :
    Relabels f (mapLines f) (reading (parseOperand k)) (reading (parseOperand k)) ts := by
  match k with
  | 0 =>
    rw [reading_parseOperand_zero]
    exact relabels_parseUnary hf ts
  | k + 1 =>
    rw [reading_parseOperand_succ]
    refine (relabels_parseOperand hf k ts).bind fun {left rest} hleft => ?_
    have hlt := length_lt_of_reading hleft
    exact relabels_readingChain hf k left rest
termination_by 13 * ts.length + k + 2
decreasing_by all_goals omega

/-- What was read before the chain has its lines changed already. -/
theorem relabels_readingChain (hf : f 0 = 0) (k : Nat) (left : Expr) (ts : List Token) :
    Relabels f (mapLines f) (readingChain k left) (readingChain k (left.mapLines f)) ts := by
  rw [readingChain_eq, readingChain_eq]
  refine .ifNext_map (fun {t us op} hts => ?_) (.of_pure _ left ts)
  have hlen : ts.length = us.length + 1 := by rw [hts, List.length_cons]
  refine (relabels_parseOperand hf k us).bind fun {right rest} hright => ?_
  have hlt := length_lt_of_reading hright
  exact relabels_readingChain hf k (.binary left op right t.line) rest
termination_by 13 * ts.length + k + 2
decreasing_by all_goals omega

theorem relabels_parseUnary (hf : f 0 = 0) (ts : List Token) :
    Relabels f (mapLines f) (reading parseUnary) (reading parseUnary) ts := by
  rw [reading_parseUnary]
  refine .ifNext_map (fun {t us op} hts => ?_) (relabels_parsePrimary hf ts)
  have hlen : ts.length = us.length + 1 := by rw [hts, List.length_cons]
  exact (relabels_parseUnary hf us).map fun _ => rfl
termination_by 13 * ts.length + 1
decreasing_by all_goals omega

theorem relabels_parsePrimary (hf : f 0 = 0) (ts : List Token) :
    Relabels f (mapLines f) (reading parsePrimary) (reading parsePrimary) ts := by
  match ts with
  | [] =>
    unfold Relabels
    rw [List.map_nil, reading_parsePrimary_nil]
    simp only [relabel, SyntaxError.mapLine, hf, List.map_nil]
  | ⟨kind, line⟩ :: us =>
    have hgiven := congrFun (given_reading_parsePrimary ⟨kind, line⟩) us
    have hgiven' := congrFun (given_reading_parsePrimary ⟨kind, f line⟩)
      (us.map (Token.mapLine f))
    simp only [Reading.given] at hgiven hgiven'
    unfold Relabels
    rw [List.map_cons, Token.mapLine, hgiven, hgiven']
    split
    · exact relabels_literal _ line us
    · exact Relabels.of_pure (mapLines f) (.var _ line) us
    · exact relabels_enclosed (relabels_parse hf us)
    · exact Relabels.of_throw (mapLines f) ⟨.unexpected _, line⟩ us
termination_by 13 * ts.length
decreasing_by all_goals simp only [List.length_cons]; omega

end

theorem relabels_parseParens (hf : f 0 = 0) (line : Nat) (ts : List Token) :
    Relabels f (mapLines f) (reading (parseParens line)) (reading (parseParens (f line))) ts := by
  rw [reading_parseParens, reading_parseParens]
  refine (relabels_expect f _ line ts).bind fun {_ rest} _ => ?_
  exact relabels_enclosed (relabels_parse hf rest)

theorem relabels_parseList (hf : f 0 = 0) (ts : List Token) :
    Relabels f (List.map (mapLines f)) (reading parseList) (reading parseList) ts := by
  rw [reading_parseList]
  refine (relabels_parse hf ts).bind fun {e rest} he => ?_
  have hlt := length_lt_of_reading he
  refine .ifNext_eq (fun {t us} hrest => ?_) (.of_pure _ [e] rest)
  have hlen : rest.length = us.length + 1 := by rw [hrest, List.length_cons]
  exact (relabels_parseList hf us).map fun _ => rfl
termination_by ts.length
decreasing_by omega

end Expr

/-! ## Statements -/

namespace Stmt

variable {f : Nat → Nat}

theorem relabels_parsePrint (hf : f 0 = 0) (line : Nat) (ts : List Token) :
    Relabels f (mapLines f) (reading (parsePrint line)) (reading (parsePrint (f line))) ts := by
  rw [reading_parsePrint, reading_parsePrint]
  refine (Expr.relabels_parse hf ts).bind fun _ => ?_
  exact (relabels_expect f _ line _).map fun _ => rfl

theorem relabels_parseExprs (hf : f 0 = 0) (line : Nat) (ts : List Token) :
    Relabels f (mapLines f) (reading (parseExprs line)) (reading (parseExprs (f line))) ts := by
  rw [reading_parseExprs, reading_parseExprs]
  refine (Expr.relabels_parseList hf ts).bind fun _ => ?_
  exact (relabels_expect f _ line _).map fun _ => rfl

mutual

theorem relabels_parse (hf : f 0 = 0) (ts : List Token) :
    Relabels f (mapLines f) (reading parse) (reading parse) ts := by
  match ts with
  | [] =>
    unfold Relabels
    rw [List.map_nil, reading_parse_nil]
    simp only [relabel, SyntaxError.mapLine, hf, List.map_nil]
  | ⟨kind, line⟩ :: us =>
    have hgiven := congrFun (given_reading_parse ⟨kind, line⟩) us
    have hgiven' := congrFun (given_reading_parse ⟨kind, f line⟩) (us.map (Token.mapLine f))
    simp only [Reading.given] at hgiven hgiven'
    unfold Relabels
    rw [List.map_cons, Token.mapLine, hgiven, hgiven']
    split
    · exact Relabels.of_pure (mapLines f) (.empty line) us
    · exact relabels_parseBlock hf line us
    · exact relabels_parseIf hf line us
    · exact relabels_parseWhile hf line us
    · exact relabels_parseDo hf line us
    · exact relabels_parseFor hf line us
    · exact relabels_parsePrint hf line us
    · exact relabels_parseExprs hf line (⟨_, line⟩ :: us)
termination_by 3 * ts.length
decreasing_by all_goals simp only [List.length_cons]; omega

theorem relabels_parseBlock (hf : f 0 = 0) (line : Nat) (ts : List Token) :
    Relabels f (mapLines f) (reading (parseBlock line)) (reading (parseBlock (f line))) ts := by
  rw [reading_parseBlock, reading_parseBlock]
  exact (relabels_parseBody hf line ts).map fun _ => rfl
termination_by 3 * ts.length + 2
decreasing_by omega

theorem relabels_parseBody (hf : f 0 = 0) (line : Nat) (ts : List Token) :
    Relabels f (mapLinesAll f) (reading (parseBody line)) (reading (parseBody (f line))) ts := by
  match ts with
  | [] =>
    unfold Relabels
    rw [List.map_nil, reading_parseBody_nil, reading_parseBody_nil]
    rfl
  | t :: us =>
    by_cases ht : t.kind = .symbol .rightBrace
    · have ht' : (t.mapLine f).kind = .symbol .rightBrace := ht
      unfold Relabels
      rw [List.map_cons, reading_parseBody_brace ht, reading_parseBody_brace ht']
      rfl
    · have ht' : (t.mapLine f).kind ≠ .symbol .rightBrace := ht
      have hparse := relabels_parse hf (t :: us)
      unfold Relabels
      rw [reading_parseBody_cons ht, List.map_cons, reading_parseBody_cons ht']
      refine hparse.bind fun {s rest} hs => ?_
      have hlt := length_lt_of_reading hs
      exact (relabels_parseBody hf line rest).map fun _ => rfl
termination_by 3 * ts.length + 1
decreasing_by all_goals simp only [List.length_cons] at *; omega

theorem relabels_parseIf (hf : f 0 = 0) (line : Nat) (ts : List Token) :
    Relabels f (mapLines f) (reading (parseIf line)) (reading (parseIf (f line))) ts := by
  rw [reading_parseIf, reading_parseIf]
  refine (Expr.relabels_parseParens hf line ts).bind fun {condition rest} hc => ?_
  have hlt := length_lt_of_reading hc
  refine (relabels_parse hf rest).bind fun {thenBranch rest'} hthen => ?_
  have hlt' := length_lt_of_reading hthen
  refine .ifNext_eq (fun {t us} hrest => ?_) (.of_pure _ (ifThen condition thenBranch line) rest')
  have hlen : rest'.length = us.length + 1 := by rw [hrest, List.length_cons]
  exact (relabels_parse hf us).map fun _ => rfl
termination_by 3 * ts.length
decreasing_by all_goals omega

theorem relabels_parseWhile (hf : f 0 = 0) (line : Nat) (ts : List Token) :
    Relabels f (mapLines f) (reading (parseWhile line)) (reading (parseWhile (f line))) ts := by
  rw [reading_parseWhile, reading_parseWhile]
  refine (Expr.relabels_parseParens hf line ts).bind fun {condition rest} hc => ?_
  have hlt := length_lt_of_reading hc
  exact (relabels_parse hf rest).map fun _ => rfl
termination_by 3 * ts.length
decreasing_by omega

theorem relabels_parseDo (hf : f 0 = 0) (line : Nat) (ts : List Token) :
    Relabels f (mapLines f) (reading (parseDo line)) (reading (parseDo (f line))) ts := by
  rw [reading_parseDo, reading_parseDo]
  refine (relabels_parse hf ts).bind fun _ => ?_
  refine (relabels_expect f _ line _).bind fun _ => ?_
  refine (Expr.relabels_parseParens hf line _).bind fun _ => ?_
  exact (relabels_expect f _ line _).map fun _ => rfl
termination_by 3 * ts.length + 1
decreasing_by omega

theorem relabels_parseFor (hf : f 0 = 0) (line : Nat) (ts : List Token) :
    Relabels f (mapLines f) (reading (parseFor line)) (reading (parseFor (f line))) ts := by
  rw [reading_parseFor, reading_parseFor]
  refine (relabels_expect f _ line ts).bind fun {_ rest} hopen => ?_
  have hlt := length_lt_of_reading hopen
  refine (relabels_parse hf rest).bind fun {init rest'} hinit => ?_
  have hlt' := length_lt_of_reading hinit
  refine (Expr.relabels_parse hf rest').bind fun {condition rest''} hc => ?_
  have hlt'' := length_lt_of_reading hc
  refine (relabels_expect f _ line rest'').bind fun {_ after} hsemi => ?_
  have hafter := length_lt_of_reading hsemi
  refine (Expr.relabels_parse hf after).bind fun {step after'} hstep => ?_
  have hafter' := length_lt_of_reading hstep
  refine (relabels_expectCloseParen f line after').bind fun {_ last} hclose => ?_
  have hlast := length_lt_of_reading hclose
  exact (relabels_parse hf last).map fun _ => rfl
termination_by 3 * ts.length
decreasing_by all_goals omega

end

end Stmt

/-! ## Programs -/

namespace Program

variable {f : Nat → Nat}

theorem relabels_parseAll (hf : f 0 = 0) (ts : List Token) :
    Relabels f (mapLines f) (reading parseAll) (reading parseAll) ts := by
  match ts with
  | [] =>
    unfold Relabels
    rw [List.map_nil, reading_parseAll_nil]
    rfl
  | t :: us =>
    have hparse := Stmt.relabels_parse hf (t :: us)
    unfold Relabels
    rw [reading_parseAll_cons, List.map_cons, reading_parseAll_cons]
    refine hparse.bind fun {s rest} hs => ?_
    have hlt := length_lt_of_reading hs
    exact (relabels_parseAll hf rest).map fun _ => rfl
termination_by ts.length
decreasing_by simp only [List.length_cons] at *; omega

/-- A program is parsed as its statements are, and then an error at the end is given the last line.
-/
theorem reading_parseTokens (ts : List Token) :
    reading parseTokens ts =
      ((reading parseAll ts).1.mapError (blameEnd (lastLine ts)), (reading parseAll ts).2) := by
  simp only [reading, parseTokens]
  cases parseAll ts <;> rfl

/-- Giving an error the last line and changing the lines can be done in either order. -/
theorem blameEnd_mapLine (f : Nat → Nat) (line : Nat) (e : SyntaxError) :
    blameEnd (f line) (e.mapLine f) = (blameEnd line e).mapLine f := by
  by_cases hcause : e.cause = .unexpectedEnd
  · simp [blameEnd, SyntaxError.mapLine, hcause]
  · simp [blameEnd, SyntaxError.mapLine, hcause]

/-- Changing the lines of tokens changes the lines of the program, or of the error, that is parsed
from them. -/
theorem relabels_parseTokens (hf : f 0 = 0) (ts : List Token) :
    Relabels f (mapLines f) (reading parseTokens) (reading parseTokens) ts := by
  have hall := relabels_parseAll hf ts
  unfold Relabels at hall ⊢
  rw [reading_parseTokens, reading_parseTokens, hall]
  rcases hts : reading parseAll ts with ⟨e | p, rest⟩
  · have hne : ts ≠ [] := by
      rintro rfl
      rw [reading_parseAll_nil] at hts
      cases hts
    have hlast : lastLine (ts.map (Token.mapLine f)) = f (lastLine ts) := by
      simp only [lastLine, List.getLast?_map, List.getLast?_eq_some_getLast hne, Option.map_some]
      rfl
    rw [hlast]
    show (Except.error (blameEnd (f (lastLine ts)) (e.mapLine f)), rest.map (Token.mapLine f)) =
      (Except.error ((blameEnd (lastLine ts) e).mapLine f), rest.map (Token.mapLine f))
    rw [blameEnd_mapLine]
  · rfl

end Program

end Imp32
