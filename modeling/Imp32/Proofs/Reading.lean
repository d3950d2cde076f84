import Imp32.Program

/-!
# Parsers as actions

A parser is an action on the tokens that are left: it takes some of them, and ends with a value or
an error. `reading` is this view of a parser; it forgets the bound on the number of tokens left.
Each parser has equations that say which actions it consists of, and all that is said about how
parsers go on, stop and fail is said about these.
-/

namespace Imp32

/-- An action that takes tokens off a list, and may fail. -/
abbrev Reading := ExceptT SyntaxError (StateM (List Token))

namespace Parsed

variable {α : Type} {m n : Nat}

/-- The value or error, and the tokens left. -/
def outcome : Parsed α n → Except SyntaxError α × List Token
  | .ok value rest _ => (.ok value, rest)
  | .fail error rest => (.error error, rest)

@[simp] theorem outcome_weaken (h : m ≤ n) (p : Parsed α m) :
    (p.weaken h).outcome = p.outcome := by
  cases p <;> rfl

theorem outcome_eq_ok_iff {p : Parsed α n} {v : α} {rest : List Token} :
    p.outcome = (.ok v, rest) ↔ ∃ h, p = .ok v rest h := by
  constructor
  · intro h
    cases p with
    | ok w r hr =>
      cases h
      exact ⟨hr, rfl⟩
    | fail e r => cases h
  · rintro ⟨h, rfl⟩
    rfl

theorem outcome_eq_error_iff {p : Parsed α n} {e : SyntaxError} {rest : List Token} :
    p.outcome = (.error e, rest) ↔ p = .fail e rest := by
  constructor
  · intro h
    cases p with
    | ok w r hr => cases h
    | fail e' r =>
      cases h
      rfl
  · rintro rfl
    rfl

end Parsed

/-! ## Composing actions -/

section Reading

variable {α β : Type} {bound : List Token → Nat}

/-- A parser as an action. -/
def reading (p : (ts : List Token) → Parsed α (bound ts)) : Reading α := fun ts => (p ts).outcome

/-- A sequence hands the tokens that its first action leaves to the second one, unless the first
fails. -/
theorem Reading.bind_apply (x : Reading α) (f : α → Reading β) (ts : List Token) :
    (x >>= f) ts =
      match x ts with
      | (.ok v, rest) => f v rest
      | (.error e, rest) => (.error e, rest) := by
  change ExceptT.bindCont (m := StateM (List Token)) f (x ts).1 (x ts).2 = _
  rcases x ts with ⟨e | v, rest⟩ <;> rfl

theorem Reading.bind_of_ok {x : Reading α} {ts rest : List Token} {v : α}
    (h : x ts = (.ok v, rest)) (f : α → Reading β) : (x >>= f) ts = f v rest := by
  rw [bind_apply, h]

/-- A sequence succeeds exactly if both actions do, one on what the other leaves. -/
theorem Reading.bind_eq_ok_iff {x : Reading α} {f : α → Reading β} {ts rest : List Token} {w : β} :
    (x >>= f) ts = (.ok w, rest) ↔ ∃ v mid, x ts = (.ok v, mid) ∧ f v mid = (.ok w, rest) := by
  rw [bind_apply]
  constructor
  · intro h
    rcases hx : x ts with ⟨e | v, mid⟩ <;> rw [hx] at h
    · cases h
    · exact ⟨v, mid, rfl, h⟩
  · rintro ⟨v, mid, hx, hf⟩
    rw [hx]
    exact hf

/-- A sequence fails where its first action does, or else where its second one does. -/
theorem Reading.bind_eq_error_iff {x : Reading α} {f : α → Reading β} {ts rest : List Token}
    {e : SyntaxError} : (x >>= f) ts = (.error e, rest) ↔
      x ts = (.error e, rest) ∨ ∃ v mid, x ts = (.ok v, mid) ∧ f v mid = (.error e, rest) := by
  rw [bind_apply]
  constructor
  · intro h
    rcases hx : x ts with ⟨e' | v, mid⟩ <;> rw [hx] at h
    · cases h
      exact .inl rfl
    · exact .inr ⟨v, mid, rfl, h⟩
  · rintro (hx | ⟨v, mid, hx, hf⟩) <;> rw [hx]
    exact hf

theorem reading_congr {p q : (ts : List Token) → Parsed α (bound ts)} (h : ∀ ts, p ts = q ts) :
    reading p = reading q :=
  congrArg reading (funext h)

theorem reading_eq_ok_iff {p : (ts : List Token) → Parsed α (bound ts)} {ts rest : List Token}
    {v : α} : reading p ts = (.ok v, rest) ↔ ∃ h, p ts = .ok v rest h :=
  Parsed.outcome_eq_ok_iff

theorem reading_eq_error_iff {p : (ts : List Token) → Parsed α (bound ts)} {ts rest : List Token}
    {e : SyntaxError} : reading p ts = (.error e, rest) ↔ p ts = .fail e rest :=
  Parsed.outcome_eq_error_iff

/-- A parser that succeeds has taken a token. -/
theorem length_lt_of_reading {p : (ts : List Token) → Parsed α ts.length} {ts rest : List Token}
    {v : α} (h : reading p ts = (.ok v, rest)) : rest.length < ts.length := by
  obtain ⟨hlt, -⟩ := reading_eq_ok_iff.mp h
  exact hlt

theorem reading_map (f : α → β) (p : (ts : List Token) → Parsed α (bound ts)) :
    reading (fun ts => (p ts).map f) = reading p >>= fun v => pure (f v) := by
  funext ts
  change ((p ts).map f).outcome = (reading p >>= fun v => pure (f v)) ts
  rw [Reading.bind_apply]
  unfold reading
  cases p ts <;> rfl

/-- A parser that goes on from another one is a sequence of actions, if what comes after is an
action on the tokens left, whatever bound it keeps. -/
theorem reading_bind {p : (ts : List Token) → Parsed α ts.length}
    {f : (ts : List Token) → α → (rest : List Token) → rest.length < ts.length →
      Parsed β ts.length} {x : α → Reading β}
    (h : ∀ ts v rest hlt, (f ts v rest hlt).outcome = x v rest) :
    reading (fun ts => (p ts).bind (f ts)) = reading p >>= x := by
  funext ts
  change ((p ts).bind (f ts)).outcome = (reading p >>= x) ts
  rw [Reading.bind_apply]
  unfold reading
  cases p ts with
  | ok v rest hlt => exact h ts v rest hlt
  | fail e rest => rfl

/-- Likewise if a parser comes after, with a bound that is its own. -/
theorem reading_andThen (p : (ts : List Token) → Parsed α ts.length)
    (q : α → (ts : List Token) → Parsed β ts.length) :
    reading (fun ts => (p ts).andThen fun v rest _ => q v rest) =
      reading p >>= fun v => reading (q v) := by
  refine reading_bind fun ts v rest hlt => ?_
  exact Parsed.outcome_weaken (Nat.le_of_lt hlt) (q v rest)

/-- The action on tokens that begin with `t`, as an action on the others. -/
def Reading.given (t : Token) (x : Reading α) : Reading α := fun ts => x (t :: ts)

/-- Takes the next token if its kind tells how to go on after it, and otherwise does something else
without taking it. -/
def Reading.ifNext (next : Token.Kind → Option (Nat → Reading α)) (other : Reading α) : Reading α
  | [] => other []
  | t :: ts =>
    match next t.kind with
    | some x => x t.line ts
    | none => other (t :: ts)

/-- A token that does not tell how to go on is left where it is. -/
theorem Reading.ifNext_other {next : Token.Kind → Option (Nat → Reading α)} {other : Reading α}
    {ts : List Token} (hnext : ∀ t ∈ ts.head?, next t.kind = none) :
    ifNext next other ts = other ts := by
  cases ts with
  | nil => rfl
  | cons t us => rw [ifNext, hnext t rfl]

end Reading

open Reading

/-! ## A token that has to come next -/

/-- The next token is taken, whether or not it is the one that is wanted. -/
theorem reading_expect_cons (wanted : Token.Kind) (line : Nat) (t : Token) (us : List Token) :
    reading (expect wanted line) (t :: us) =
      if t.kind = wanted then (.ok (), us) else (.error ⟨.expected wanted t.kind, t.line⟩, us) := by
  rw [reading, expect]
  split <;> rfl

/-- Likewise for a closing parenthesis. -/
theorem reading_expectCloseParen_cons (line : Nat) (t : Token) (us : List Token) :
    reading (expectCloseParen line) (t :: us) =
      if t.kind = .symbol .rightParen then (.ok (), us)
      else (.error ⟨.unclosedParen, t.line⟩, us) := by
  rw [reading, expectCloseParen]
  split <;> rfl

/-! ## Expressions -/

namespace Expr

theorem length_lt_succ (ts : List Token) : ts.length < ts.length + 1 := Nat.lt_succ_self _

/-- Continues a chain, as an action. Any bound would do, since no result hangs on it. -/
def readingChain (height : Nat) (left : Expr) : Reading Expr :=
  reading fun ts => parseChain height left ts (length_lt_succ ts)

/-- An operand of the loosest level; and after an operator that assigns, all that follows it as the
right operand. -/
theorem reading_parse : reading parse = (do
    let left ← reading (parseOperand 9)
    ifNext (fun k => (k.binaryOp?.filter BinaryOp.assigns).map fun op line => do
      return .binary left op (← reading parse) line) (pure left)) := by
  refine (reading_congr parse.eq_def).trans (reading_bind fun ts left rest hlt => ?_)
  cases rest with
  | nil => rfl
  | cons t us =>
    simp only [ifNext]
    cases hop : t.kind.binaryOp? with
    | none => rfl
    | some op =>
      by_cases ha : op.assigns = true
      · simp only [ha, if_true, Parsed.outcome_weaken, Option.filter_some, Option.map_some]
        exact congrFun (reading_map _ parse) us
      · simp only [ha, Option.filter_some]
        rfl

/-- Below all levels there are the operands of unary operators. -/
theorem reading_parseOperand_zero : reading (parseOperand 0) = reading parseUnary :=
  reading_congr fun ts => by rw [parseOperand]

/-- The bound that a chain keeps does not show in its outcome. -/
theorem outcome_parseChain (k : Nat) (left : Expr) {ts : List Token} {n : Nat}
    (h : ts.length < n) : (parseChain k left ts h).outcome = readingChain k left ts := by
  change _ = (parseChain k left ts (length_lt_succ ts)).outcome
  rw [parseChain.eq_def, parseChain.eq_def]
  cases ts with
  | nil => rfl
  | cons t us =>
    dsimp only
    split
    · split
      · rw [Parsed.outcome_weaken, Parsed.outcome_weaken]
      · rfl
    · rfl

/-- A chain goes on as long as an operator of its height comes next. All that was read before is the
left operand. -/
theorem readingChain_eq (k : Nat) (left : Expr) : readingChain k left =
    ifNext (fun kind => (kind.binaryOp?.filter (·.height? = some (k + 1))).map fun op line => do
      readingChain k (.binary left op (← reading (parseOperand k)) line)) (pure left) := by
  funext ts
  change (parseChain k left ts (length_lt_succ ts)).outcome = _
  rw [parseChain.eq_def]
  cases ts with
  | nil => rfl
  | cons t us =>
    simp only [ifNext]
    cases hop : t.kind.binaryOp? with
    | none => rfl
    | some op =>
      by_cases hj : op.height? = some (k + 1)
      · simp only [hj, if_true, Parsed.outcome_weaken, Option.filter_some, decide_true,
          Option.map_some]
        exact congrFun (reading_bind fun _ right _ hlt =>
          outcome_parseChain k (.binary left op right t.line) hlt) us
      · simp only [hj, if_false, Option.filter_some, decide_false]
        rfl

/-- A level reads an operand of the level below, and the chain that it begins. -/
theorem reading_parseOperand_succ (k : Nat) : reading (parseOperand (k + 1)) =
    reading (parseOperand k) >>= readingChain k := by
  refine (reading_congr (parseOperand.eq_def (k + 1))).trans ?_
  exact reading_bind fun _ _ _ hlt => outcome_parseChain _ _ hlt

/-- The operand of a unary operator may begin with a unary operator itself. -/
theorem reading_parseUnary : reading parseUnary =
    ifNext (fun kind => kind.unaryOp?.map fun op line => do
      return .unary op (← reading parseUnary) line) (reading parsePrimary) := by
  funext ts
  change (parseUnary ts).outcome = _
  rw [parseUnary.eq_def]
  cases ts with
  | nil => rfl
  | cons t us =>
    simp only [ifNext]
    cases hop : t.kind.unaryOp? with
    | none => rfl
    | some op =>
      simp only [Parsed.later, Parsed.outcome_weaken, Option.map_some]
      exact congrFun (reading_map _ parseUnary) us

/-- The value of a literal on a line, if it is in the range of a word. -/
def literal (n : Int) (line : Nat) : Reading Expr :=
  match Value.ofLiteral? n with
  | some v => return .num v line
  | none => throw ⟨.literalTooLarge, line⟩

/-- An expression and the parenthesis that closes it; the line is blamed if there is none. -/
def enclosed (line : Nat) : Reading Expr := do
  let e ← reading parse
  reading (expectCloseParen line)
  return e

/-- Parentheses go on in the same way in the head of a statement and within an expression. -/
theorem reading_enclosed (line : Nat) :
    reading (fun ts => (parse ts).andThen fun e rest _ =>
      (expectCloseParen line rest).map fun _ => e) = enclosed line := by
  simp only [reading_andThen, reading_map, enclosed]

theorem reading_parsePrimary_nil : reading parsePrimary [] = (.error ⟨.unexpectedEnd, 0⟩, []) := by
  rw [reading, parsePrimary, Parsed.outcome]

/-- The first token decides how an expression without operators goes on. -/
theorem given_reading_parsePrimary (t : Token) :
    (reading parsePrimary).given t =
      match t.kind with
      | .integer n => literal n t.line
      | .identifier name => pure (.var name t.line)
      | .symbol .leftParen => enclosed t.line
      | kind => throw ⟨.unexpected kind, t.line⟩ := by
  funext us
  obtain ⟨kind, line⟩ := t
  change (parsePrimary (⟨kind, line⟩ :: us)).outcome = _
  rw [parsePrimary]
  dsimp only
  split
  · rename_i n
    change _ = literal n line us
    unfold literal
    cases Value.ofLiteral? n <;> rfl
  · rfl
  · rw [Parsed.later, Parsed.outcome_weaken]
    exact congrFun (reading_enclosed line) us
  · simp only [Parsed.outcome]
    rfl

theorem reading_parseParens (line : Nat) : reading (parseParens line) = (do
    reading (expect (.symbol .leftParen) line)
    enclosed line) := by
  refine (reading_congr (parseParens.eq_def line)).trans ?_
  simp only [reading_andThen, reading_map, enclosed]

/-- After an expression, only a comma goes on with the list. -/
theorem reading_parseList : reading parseList = (do
    let e ← reading parse
    ifNext (fun k => if k = .symbol .comma then some fun _ => do return e :: (← reading parseList)
      else none) (pure [e])) := by
  refine (reading_congr parseList.eq_def).trans (reading_bind fun ts e rest hlt => ?_)
  cases rest with
  | nil => rfl
  | cons t us =>
    simp only [ifNext]
    split
    · simp only [Parsed.outcome_weaken]
      exact congrFun (reading_map _ parseList) us
    · rfl

end Expr

/-! ## Statements -/

namespace Stmt

theorem reading_parsePrint (line : Nat) : reading (parsePrint line) = (do
    let value ← reading Expr.parse
    reading (expect (.symbol .semicolon) line)
    return .print value line) := by
  refine (reading_congr (parsePrint.eq_def line)).trans ?_
  simp only [reading_andThen, reading_map]

theorem reading_parseExprs (line : Nat) : reading (parseExprs line) = (do
    let list ← reading Expr.parseList
    reading (expect (.symbol .semicolon) line)
    return .exprs list line) := by
  refine (reading_congr (parseExprs.eq_def line)).trans ?_
  simp only [reading_andThen, reading_map]

theorem reading_parseBlock (line : Nat) : reading (parseBlock line) = (do
    return .block (← reading (parseBody line)) line) := by
  refine (reading_congr (parseBlock.eq_def line)).trans ?_
  simp only [reading_map]

/-- The tokens must not end within a block. -/
theorem reading_parseBody_nil (line : Nat) :
    reading (parseBody line) [] = (.error ⟨.unexpectedEnd, line⟩, []) := by
  rw [reading, parseBody, Parsed.outcome]

theorem reading_parseBody_brace {line : Nat} {t : Token} (ht : t.kind = .symbol .rightBrace)
    (us : List Token) : reading (parseBody line) (t :: us) = (.ok [], us) := by
  rw [reading, parseBody, if_pos ht, Parsed.outcome]

/-- Every token but a closing brace begins one more statement of the block. -/
theorem reading_parseBody_cons {line : Nat} {t : Token} (ht : t.kind ≠ .symbol .rightBrace)
    (us : List Token) :
    reading (parseBody line) (t :: us) =
      (do
        let s ← reading parse
        return s :: (← reading (parseBody line)) : Reading (List Stmt)) (t :: us) := by
  have heq : reading (parseBody line) (t :: us) = reading (fun ts => (parse ts).andThen
      fun s rest _ => (parseBody line rest).map (s :: ·)) (t :: us) := by
    simp only [reading, parseBody, ht, if_false]
  rw [heq]
  simp only [reading_andThen, reading_map]

/-- An `else` that comes next is taken at once, so it goes with the nearest `if`. -/
theorem reading_parseIf (line : Nat) : reading (parseIf line) = (do
    let condition ← reading (Expr.parseParens line)
    let thenBranch ← reading parse
    ifNext (fun k => if k = .keyword .elseWord then
        some fun _ => do return .ifElse condition thenBranch (← reading parse) line
      else none) (pure (.ifThen condition thenBranch line))) := by
  refine (reading_congr (parseIf.eq_def line)).trans ?_
  rw [reading_andThen (Expr.parseParens line)]
  congr 1
  funext condition
  refine reading_bind fun ts thenBranch rest hlt => ?_
  cases rest with
  | nil => rfl
  | cons t us =>
    simp only [ifNext]
    split
    · simp only [Parsed.outcome_weaken]
      exact congrFun (reading_map _ parse) us
    · rfl

theorem reading_parseWhile (line : Nat) : reading (parseWhile line) = (do
    let condition ← reading (Expr.parseParens line)
    return .whileDo condition (← reading parse) line) := by
  refine (reading_congr (parseWhile.eq_def line)).trans ?_
  simp only [reading_andThen, reading_map]

theorem reading_parseDo (line : Nat) : reading (parseDo line) = (do
    let body ← reading parse
    reading (expect (.keyword .whileWord) line)
    let condition ← reading (Expr.parseParens line)
    reading (expect (.symbol .semicolon) line)
    return .doWhile body condition line) := by
  refine (reading_congr (parseDo.eq_def line)).trans ?_
  simp only [reading_andThen, reading_map]

/-- The first part of the head is a statement, which brings its own semicolon. -/
theorem reading_parseFor (line : Nat) : reading (parseFor line) = (do
    reading (expect (.symbol .leftParen) line)
    let init ← reading parse
    let condition ← reading Expr.parse
    reading (expect (.symbol .semicolon) line)
    let step ← reading Expr.parse
    reading (expectCloseParen line)
    return .forDo init condition step (← reading parse) line) := by
  refine (reading_congr (parseFor.eq_def line)).trans ?_
  simp only [reading_andThen, reading_map]

theorem reading_parse_nil : reading parse [] = (.error ⟨.unexpectedEnd, 0⟩, []) := by
  rw [reading, parse, Parsed.outcome]

/-- The first token decides how a statement goes on. -/
theorem given_reading_parse (t : Token) :
    (reading parse).given t =
      match t.kind with
      | .symbol .semicolon => pure (.empty t.line)
      | .symbol .leftBrace => reading (parseBlock t.line)
      | .keyword .ifWord => reading (parseIf t.line)
      | .keyword .whileWord => reading (parseWhile t.line)
      | .keyword .doWord => reading (parseDo t.line)
      | .keyword .forWord => reading (parseFor t.line)
      | .keyword .printWord => reading (parsePrint t.line)
      | _ => (reading (parseExprs t.line)).given t := by
  funext us
  obtain ⟨kind, line⟩ := t
  change (parse (⟨kind, line⟩ :: us)).outcome = _
  rw [parse]
  dsimp only
  split
  case h_1 => rfl
  case h_8 => simp only [given, reading]
  all_goals
    rw [Parsed.later, Parsed.outcome_weaken]
    rfl

end Stmt

theorem Program.reading_parseAll_nil : reading parseAll [] = (.ok [], []) := by
  rw [reading, parseAll, Parsed.outcome]

/-- A program goes on as long as a token is left. -/
theorem Program.reading_parseAll_cons (t : Token) (us : List Token) :
    reading parseAll (t :: us) =
      (do
        let s ← reading Stmt.parse
        return s :: (← reading parseAll) : Reading Program) (t :: us) := by
  change (parseAll (t :: us)).outcome = _
  rw [parseAll, Reading.bind_apply, reading]
  cases Stmt.parse (t :: us) with
  | ok s rest h =>
    exact (Parsed.outcome_weaken _ _).trans (congrFun (reading_map _ parseAll) rest)
  | fail e rest => rfl

end Imp32
