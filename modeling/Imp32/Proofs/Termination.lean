import Imp32.Proofs.Lookahead
import Imp32.Proofs.Relabelling

/-!
# Parsing terminates

The parsers as procedures that loop and call each other, with no reason given why they should ever
come to an end: each is told by what it does itself and by the calls it makes
(`Nonterminal.step`). A run of these procedures is watched, and stopped as soon as calls are nested
deeper than a given depth, or a loop begins more rounds than there were tokens left when it began
(`Nonterminal.attempt`).

The main statement is that no run is stopped if calls may be nested as deep as fourteen times the
number of tokens and a few more, and that the results are those of the parsers. Every parser leaves
a suffix of its tokens, and a shorter one where it succeeds. So a round of a loop takes a token, and
a call is made on fewer tokens, or on the same ones and at a tighter place in the grammar
(`Nonterminal.rank`).
-/

namespace Imp32

/-! ## Actions that are watched -/

/-- An action that takes tokens off a list, and may fail. It has no result if it is stopped. -/
abbrev Attempt := ExceptT SyntaxError (StateT (List Token) Option)

/-- Takes the next token, if there is one. -/
def Reading.skip : Reading Unit := fun ts => (.ok (), ts.tail)

theorem length_lt_of_reading_map {α β : Type} {p : (ts : List Token) → Parsed α ts.length}
    {f : α → β} {ts rest : List Token} {w : β}
    (h : (do return f (← reading p) : Reading β) ts = (.ok w, rest)) :
    rest.length < ts.length := by
  obtain ⟨v, mid, hv, hpure⟩ := Reading.bind_eq_ok_iff.mp h
  cases hpure
  exact length_lt_of_reading hv

theorem length_lt_of_skip_reading_map {α β : Type} {p : (ts : List Token) → Parsed α ts.length}
    {f : α → β} {t : Token} {us rest : List Token} {w : β}
    (h : (do Reading.skip; return f (← reading p) : Reading β) (t :: us) = (.ok w, rest)) :
    rest.length < us.length := by
  have hus : (do return f (← reading p) : Reading β) us = (.ok w, rest) := h
  exact length_lt_of_reading_map hus

namespace Attempt

variable {α β σ : Type}

/-- An action that is stopped at once. -/
def stopped : Attempt α := fun _ => none

/-- An action that needs no watching. -/
def ofReading (x : Reading α) : Attempt α := fun ts => some (x ts)

/-- Takes the next token. -/
def next : Attempt Unit := ofReading Reading.skip

/-- Looks at the next token, which is not taken. If there is none, the action fails. -/
def onNext (early : SyntaxError) (f : Token → Attempt α) : Attempt α
  | [] => some (.error early, [])
  | t :: ts => f t (t :: ts)

/-- Takes the next token if its kind tells how to go on after it, and otherwise does something else
without taking it. -/
def ifNext (next : Token.Kind → Option (Nat → Attempt α)) (other : Attempt α) : Attempt α
  | [] => other []
  | t :: ts =>
    match next t.kind with
    | some x => x t.line ts
    | none => other (t :: ts)

/-- A loop: as long as the next token tells how, one more round. It is stopped before a round that
goes beyond the limit. -/
def rounds (round? : Token → Option (σ → Attempt σ)) (limit : Nat) (s : σ) : Attempt σ := fun ts =>
  match ts.head?.bind round?, limit with
  | none, _ => some (.ok s, ts)
  | some _, 0 => none
  | some round, limit + 1 => (round s >>= rounds round? limit) ts

/-- A loop with at most one round for each token that is left when it begins. -/
def whileNext (round? : Token → Option (σ → Attempt σ)) (s : σ) : Attempt σ := fun ts =>
  rounds round? ts.length s ts

theorem bind_apply (x : Attempt α) (f : α → Attempt β) (ts : List Token) :
    (x >>= f) ts =
      match x ts with
      | some (.ok v, rest) => f v rest
      | some (.error e, rest) => some (.error e, rest)
      | none => none := by
  change ((x ts).bind fun p => ExceptT.bindCont (m := StateT (List Token) Option) f p.1 p.2) = _
  rcases x ts with _ | ⟨e | v, rest⟩ <;> rfl

/-- On the tokens, the action is not stopped and does what the other one does. -/
def Agrees (x : Attempt α) (y : Reading α) (ts : List Token) : Prop := x ts = some (y ts)

theorem agrees_pure (v : α) (ts : List Token) : Agrees (pure v) (pure v) ts := rfl

theorem agrees_throw (e : SyntaxError) (ts : List Token) :
    Agrees (throw e : Attempt α) (throw e) ts := rfl

theorem agrees_ofReading (x : Reading α) (ts : List Token) : Agrees (ofReading x) x ts := rfl

theorem Agrees.bind {x : Attempt α} {y : Reading α} {f : α → Attempt β} {g : α → Reading β}
    {ts : List Token} (hx : Agrees x y ts)
    (hf : ∀ {v rest}, y ts = (.ok v, rest) → Agrees (f v) (g v) rest) :
    Agrees (x >>= f) (y >>= g) ts := by
  unfold Agrees at hx ⊢
  rw [bind_apply, Reading.bind_apply, hx]
  rcases hy : y ts with ⟨e | v, rest⟩
  · rfl
  · exact hf hy

theorem Agrees.map {x : Attempt α} {y : Reading α} {ts : List Token} (hx : Agrees x y ts)
    (f : α → β) : Agrees (do return f (← x)) (do return f (← y)) ts :=
  hx.bind fun _ => agrees_pure _ _

/-- Taking the first token and going on. -/
theorem agrees_next {x : Attempt α} {y z : Reading α} {t : Token} {us : List Token}
    (hgiven : z.given t = y) (hx : Agrees x y us) : Agrees (do next; x) z (t :: us) := by
  have hz : z (t :: us) = y us := congrFun hgiven us
  unfold Agrees at hx ⊢
  rw [hz, ← hx]
  rfl

/-- A choice by the next token, if both actions choose in the same way. -/
theorem agrees_ifNext {next : Token.Kind → Option (Nat → Attempt α)}
    {next' : Token.Kind → Option (Nat → Reading α)} {other : Attempt α} {other' : Reading α}
    {ts : List Token} (hother : Agrees other other' ts)
    (hnext : ∀ t us, ts = t :: us →
      Option.Rel (fun x y => Agrees (x t.line) (y t.line) us) (next t.kind) (next' t.kind)) :
    Agrees (ifNext next other) (Reading.ifNext next' other') ts := by
  cases ts with
  | nil => exact hother
  | cons t us =>
    have hrel := hnext t us rfl
    unfold Agrees at hother ⊢
    simp only [ifNext, Reading.ifNext]
    cases hx : next t.kind with
    | none =>
      cases hy : next' t.kind with
      | none => exact hother
      | some y =>
        rw [hx, hy] at hrel
        cases hrel
    | some x =>
      cases hy : next' t.kind with
      | none =>
        rw [hx, hy] at hrel
        cases hrel
      | some y =>
        rw [hx, hy] at hrel
        cases hrel with
        | some hagrees => exact hagrees

/-- A loop does what an action does that begins with a round wherever the loop does, and ends where
the loop ends. Every round has to take a token: then there are never more rounds than tokens. -/
theorem agrees_rounds {round? : Token → Option (σ → Attempt σ)} {finish : σ → Attempt α}
    {y : σ → Reading α} {ts : List Token} {limit : Nat} (hlimit : ts.length ≤ limit)
    (hend : ∀ s us, us.length ≤ ts.length → us.head?.bind round? = none → Agrees (finish s) (y s) us)
    (hround : ∀ s t us round, us.length < ts.length → round? t = some round →
      ∃ x : Reading σ, Agrees (round s) x (t :: us) ∧ y s (t :: us) = (x >>= y) (t :: us) ∧
        ∀ s' rest, x (t :: us) = (.ok s', rest) → rest.length ≤ us.length)
    (s : σ) : Agrees (rounds round? limit s >>= finish) (y s) ts := by
  induction limit generalizing s ts with
  | zero =>
    have hnil : ts = [] := List.eq_nil_of_length_eq_zero (Nat.le_zero.mp hlimit)
    subst hnil
    exact hend s [] (Nat.le_refl 0) rfl
  | succ limit ih =>
    cases hnext : ts.head?.bind round? with
    | none =>
      have hstop : rounds round? (limit + 1) s ts = some (.ok s, ts) := by
        rw [rounds.eq_def, hnext]
      unfold Agrees
      rw [bind_apply, hstop]
      exact hend s ts (Nat.le_refl _) hnext
    | some round =>
      have hmore : rounds round? (limit + 1) s ts = (round s >>= rounds round? limit) ts := by
        rw [rounds.eq_def, hnext]
      obtain ⟨t, ht, hgoes⟩ := Option.bind_eq_some_iff.mp hnext
      obtain ⟨us, rfl⟩ : ∃ us, ts = t :: us := List.head?_eq_some_iff.mp ht
      obtain ⟨x, hagrees, hy, hshorter⟩ := hround s t us round (Nat.lt_succ_self _) hgoes
      unfold Agrees at hagrees ⊢
      rw [bind_apply, hmore, bind_apply, hagrees, hy, Reading.bind_apply]
      rcases hx : x (t :: us) with ⟨e | s', rest⟩
      · rfl
      · -- the round has taken a token, so the limit for the others is one less
        have hrest : rest.length ≤ us.length := hshorter s' rest hx
        have hlen : rest.length < (t :: us).length := Nat.lt_succ_of_le hrest
        have hagain : Agrees (rounds round? limit s' >>= finish) (y s') rest := by
          refine ih ?_ ?_ ?_ s'
          · rw [List.length_cons] at hlimit
            omega
          · intro s us hus
            exact hend s us (by omega)
          · intro s t us round hus
            exact hround s t us round (by omega)
        unfold Agrees at hagain
        rw [bind_apply] at hagain
        exact hagain

theorem agrees_whileNext {round? : Token → Option (σ → Attempt σ)} {finish : σ → Attempt α}
    {y : σ → Reading α} {ts : List Token}
    (hend : ∀ s us, us.length ≤ ts.length → us.head?.bind round? = none → Agrees (finish s) (y s) us)
    (hround : ∀ s t us round, us.length < ts.length → round? t = some round →
      ∃ x : Reading σ, Agrees (round s) x (t :: us) ∧ y s (t :: us) = (x >>= y) (t :: us) ∧
        ∀ s' rest, x (t :: us) = (.ok s', rest) → rest.length ≤ us.length)
    (s : σ) : Agrees (whileNext round? s >>= finish) (y s) ts := by
  have hrounds := agrees_rounds (Nat.le_refl ts.length) hend hround s
  unfold Agrees at hrounds ⊢
  rw [bind_apply] at hrounds ⊢
  exact hrounds

end Attempt

open Attempt

/-! ## Lists of expressions -/

namespace Expr

/-- The expressions after commas that follow an expression. -/
def readingMore : Reading (List Expr) :=
  Reading.ifNext (fun k => if k = .symbol .comma then some fun _ => reading parseList else none)
    (pure [])

theorem readingMore_comma {t : Token} (ht : t.kind = .symbol .comma) (us : List Token) :
    readingMore (t :: us) = reading parseList us := by
  simp only [readingMore, Reading.ifNext, ht, if_true]

theorem readingMore_of_notNext {ts : List Token} (h : NotNext (· = .symbol .comma) ts) :
    readingMore ts = (.ok [], ts) :=
  Reading.ifNext_other fun t ht => if_neg (h t ht)

theorem reading_parseList_more : reading parseList = (do
    let e ← reading parse
    return e :: (← readingMore)) := by
  refine reading_parseList.trans ?_
  congr 1
  funext e ts
  rw [Reading.bind_apply]
  cases ts with
  | nil => rfl
  | cons t us =>
    by_cases ht : t.kind = .symbol .comma
    · rw [readingMore_comma ht]
      simp only [Reading.ifNext, ht, if_true, Reading.bind_apply]
    · rw [readingMore_of_notNext (notNext_cons.mpr ht)]
      simp only [Reading.ifNext, ht, if_false]

end Expr

/-! ## The parsers as procedures -/

namespace Nonterminal

variable {α : Type}

section Steps

variable (call : {β : Type} → Nonterminal β → Attempt β)

/-- An expression in parentheses. -/
def stepParens (line : Nat) : Attempt Expr := do
  ofReading (reading (expect (.symbol .leftParen) line))
  let e ← call (.expr .assignment)
  ofReading (reading (expectCloseParen line))
  return e

/-- What the parser of a rule does, by the calls it makes. -/
def stepExpr : Expr.Rule → Attempt Expr
  | .assignment => do
    let left ← call (.expr (.level .disjunction))
    ifNext (fun k => (k.binaryOp?.filter BinaryOp.assigns).map fun op line => do
      return .binary left op (← call (.expr .assignment)) line) (pure left)
  | .level l => do
    let first ← call (.expr l.operand)
    whileNext (fun t => (t.kind.binaryOp?.filter (· ∈ l.operators)).map fun op left => do
      next
      return .binary left op (← call (.expr l.operand)) t.line) first
  | .unary =>
    ifNext (fun k => k.unaryOp?.map fun op line => do
      return .unary op (← call (.expr .unary)) line) (call (.expr .primary))
  | .primary => onNext ⟨.unexpectedEnd, 0⟩ fun t => do
    next
    match t.kind with
    | .integer n => ofReading (Expr.literal n t.line)
    | .identifier name => return .var name t.line
    | .symbol .leftParen =>
      let e ← call (.expr .assignment)
      ofReading (reading (expectCloseParen t.line))
      return e
    | kind => throw ⟨.unexpected kind, t.line⟩

/-- The rest of a branch, after its first token. -/
def stepIf (line : Nat) : Attempt Stmt := do
  let condition ← stepParens call line
  let thenBranch ← call .stmt
  ifNext (fun k => if k = .keyword .elseWord then
      some fun _ => do return .ifElse condition thenBranch (← call .stmt) line
    else none) (pure (.ifThen condition thenBranch line))

/-- The rest of a loop that tests before its body, after its first token. -/
def stepWhile (line : Nat) : Attempt Stmt := do
  let condition ← stepParens call line
  return .whileDo condition (← call .stmt) line

/-- The rest of a loop that tests after its body, after its first token. -/
def stepDo (line : Nat) : Attempt Stmt := do
  let body ← call .stmt
  ofReading (reading (expect (.keyword .whileWord) line))
  let condition ← stepParens call line
  ofReading (reading (expect (.symbol .semicolon) line))
  return .doWhile body condition line

/-- The rest of a loop with a step, after its first token. -/
def stepFor (line : Nat) : Attempt Stmt := do
  ofReading (reading (expect (.symbol .leftParen) line))
  let init ← call .stmt
  let condition ← call (.expr .assignment)
  ofReading (reading (expect (.symbol .semicolon) line))
  let step ← call (.expr .assignment)
  ofReading (reading (expectCloseParen line))
  return .forDo init condition step (← call .stmt) line

/-- The rest of a statement that prints, after its first token. -/
def stepPrint (line : Nat) : Attempt Stmt := do
  let value ← call (.expr .assignment)
  ofReading (reading (expect (.symbol .semicolon) line))
  return .print value line

/-- An expression and, as long as a comma follows, the comma and one more. -/
def stepExprs (line : Nat) : Attempt Stmt := do
  let first ← call (.expr .assignment)
  let list ← whileNext (fun t => if t.kind = .symbol .comma then
      some fun es => do
        next
        return es ++ [← call (.expr .assignment)]
    else none) [first]
  ofReading (reading (expect (.symbol .semicolon) line))
  return .exprs list line

/-- What the parser of statements does, by the calls it makes. -/
def stepStmt : Attempt Stmt := onNext ⟨.unexpectedEnd, 0⟩ fun t =>
  match t.kind with
  | .symbol .semicolon => do next; return .empty t.line
  | .symbol .leftBrace => do next; call (.block t.line)
  | .keyword .ifWord => do next; stepIf call t.line
  | .keyword .whileWord => do next; stepWhile call t.line
  | .keyword .doWord => do next; stepDo call t.line
  | .keyword .forWord => do next; stepFor call t.line
  | .keyword .printWord => do next; stepPrint call t.line
  | _ => stepExprs call t.line

/-- What the parser of blocks does, by the calls it makes. -/
def stepBlock (line : Nat) : Attempt Stmt := do
  let body ← whileNext (fun t => if t.kind = .symbol .rightBrace then none else
    some fun ss => do return ss ++ [← call .stmt]) []
  ofReading (reading (expect (.symbol .rightBrace) line))
  return .block body line

/-- What a parser does, by the calls it makes. -/
def step : Nonterminal α → Attempt α
  | .expr rule => stepExpr call rule
  | .stmt => stepStmt call
  | .block line => stepBlock call line

end Steps

/-- A run of a parser, which is stopped if calls are nested to the given depth. -/
def attempt : (depth : Nat) → {α : Type} → Nonterminal α → Attempt α
  | 0, _, _ => stopped
  | depth + 1, _, n => n.step (attempt depth)

end Nonterminal

/-- A run of the parser of programs, which parses statements as long as a token is left. -/
def Program.attempt (depth : Nat) : Attempt Program := fun ts =>
  let statements : Attempt Program :=
    whileNext (fun _ => some fun ss => do return ss ++ [← Nonterminal.stmt.attempt depth]) []
  (statements ts).map fun (result, rest) => (result.mapError (blameEnd (lastLine ts)), rest)

/-! ## No run is stopped -/

namespace Nonterminal

/-- The place of a parser in the grammar: a call on the same tokens is made to a place below. -/
def rank {α : Type} : Nonterminal α → Nat
  | .expr rule => rule.looseness
  | .stmt => 12
  | .block _ => 13

theorem rank_lt {α : Type} (n : Nonterminal α) : n.rank < 14 := by
  cases n with
  | expr rule =>
    cases rule with
    | level l =>
      have hheight := l.height_le_nine
      rw [rank, Expr.Rule.looseness]
      omega
    | _ => decide
  | stmt => decide
  | block line => exact Nat.lt_succ_self 13

/-- Up to a bound on tokens and places, calls are not stopped and do what the parsers do. -/
def CallsAgree (call : {β : Type} → Nonterminal β → Attempt β) (bound : Nat) : Prop :=
  ∀ {β : Type} (n : Nonterminal β) (us : List Token), 14 * us.length + n.rank < bound →
    Agrees (call n) (reading n.parser) us

section Agree

variable {call : {β : Type} → Nonterminal β → Attempt β} {bound : Nat} {us : List Token}

theorem CallsAgree.expr (h : CallsAgree call bound) (hlt : 14 * us.length + 11 < bound) :
    Agrees (call (.expr .assignment)) (reading Expr.parse) us :=
  h (.expr .assignment) us hlt

theorem CallsAgree.stmt (h : CallsAgree call bound) (hlt : 14 * us.length + 12 < bound) :
    Agrees (call .stmt) (reading Stmt.parse) us :=
  h .stmt us hlt

theorem CallsAgree.operand (h : CallsAgree call bound) {l : Level} {k : Nat}
    (hk : l.height = k + 1) (hlt : 14 * us.length + k + 1 < bound) :
    Agrees (call (.expr l.operand)) (reading (Expr.parseOperand k)) us := by
  have hrule := Level.height?_operand hk
  have hcall := h (.expr l.operand) us
  cases hl : l.operand with
  | assignment =>
    rw [hl] at hrule
    cases hrule
  | primary =>
    rw [hl] at hrule
    cases hrule
  | unary =>
    rw [hl] at hrule hcall
    cases hrule
    rw [Expr.reading_parseOperand_zero]
    exact hcall hlt
  | level l' =>
    rw [hl] at hrule hcall
    obtain rfl : l'.height = k := Option.some.inj hrule
    exact hcall hlt

theorem agrees_stepParens {line : Nat} (h : CallsAgree call bound)
    (hlt : 14 * us.length ≤ bound) :
    Agrees (stepParens call line) (reading (Expr.parseParens line)) us := by
  rw [Expr.reading_parseParens]
  refine (agrees_ofReading _ us).bind fun {_ rest} hopen => ?_
  have hrest := length_lt_of_reading hopen
  have hexpr : Agrees (call (.expr .assignment)) (reading Expr.parse) rest := h.expr (by omega)
  exact hexpr.bind fun _ => (agrees_ofReading _ _).bind fun _ => agrees_pure _ _

/-- After an operand, the loop of a level goes on as the chain of its operators does. -/
theorem agrees_whileNext_level (h : CallsAgree call bound) {l : Level} {k : Nat}
    (hk : l.height = k + 1) (hlt : 14 * us.length ≤ bound) (left : Expr) :
    Agrees (whileNext (fun t => (t.kind.binaryOp?.filter (· ∈ l.operators)).map fun op left => do
        next
        return .binary left op (← call (.expr l.operand)) t.line) left)
      (Expr.readingChain k left) us := by
  have hheight := l.height_le_nine
  have hsame : (fun op => decide (op ∈ l.operators)) =
      fun op => decide (op.height? = some (k + 1)) := by
    funext op
    simp only [Level.mem_operators_iff, hk]
  rw [hsame, ← bind_pure (whileNext _ left)]
  refine agrees_whileNext (y := Expr.readingChain k) ?_ ?_ left
  · intro left vs _ hnone
    have hchain : Expr.readingChain k left vs = (.ok left, vs) := by
      rw [Expr.readingChain_eq]
      cases vs with
      | nil => rfl
      | cons t vs =>
        have hop := Option.map_eq_none_iff.mp hnone
        simp only [Reading.ifNext, hop, Option.map_none]
        rfl
    unfold Agrees
    rw [hchain]
    rfl
  · intro left t vs round hvs hround
    obtain ⟨op, hop, rfl⟩ := Option.map_eq_some_iff.mp hround
    have hoperand : Agrees (call (.expr l.operand)) (reading (Expr.parseOperand k)) vs :=
      h.operand hk (by omega)
    refine ⟨do
      Reading.skip
      return .binary left op (← reading (Expr.parseOperand k)) t.line, ?_, ?_, ?_⟩
    · refine (agrees_ofReading _ _).bind fun hskip => ?_
      cases hskip
      exact hoperand.map _
    · rw [Expr.readingChain_eq]
      simp only [Reading.ifNext, hop, Option.map_some, bind_assoc, pure_bind]
      rfl
    · intro left' rest htaken
      exact Nat.le_of_lt (length_lt_of_skip_reading_map htaken)

theorem agrees_stepExpr {rule : Expr.Rule} {ts : List Token}
    (h : CallsAgree call (14 * ts.length + (expr rule).rank)) :
    Agrees (stepExpr call rule) (reading rule.parser) ts := by
  cases rule with
  | assignment =>
    change Agrees _ (reading Expr.parse) ts
    rw [Expr.reading_parse, stepExpr]
    have hoperand : Agrees (call (.expr (.level .disjunction))) (reading (Expr.parseOperand 9)) ts :=
      h (.expr (.level .disjunction)) ts (Nat.add_lt_add_left (by decide) _)
    refine hoperand.bind fun {left rest} hleft => ?_
    have hrest := length_lt_of_reading hleft
    refine agrees_ifNext (agrees_pure left rest) fun t us hus => ?_
    have hlen : rest.length = us.length + 1 := by rw [hus, List.length_cons]
    cases t.kind.binaryOp?.filter BinaryOp.assigns with
    | none => exact .none
    | some op =>
      have hright : Agrees (call (.expr .assignment)) (reading Expr.parse) us := h.expr (by omega)
      exact .some (hright.map _)
  | level l =>
    obtain ⟨k, hk⟩ := l.height_pos
    have hparser : reading (Expr.Rule.level l).parser = reading (Expr.parseOperand (k + 1)) := by
      rw [← hk]
      rfl
    have hrank : (expr (.level l)).rank = k + 2 := congrArg (· + 1) hk
    rw [hparser, Expr.reading_parseOperand_succ, stepExpr]
    refine (h.operand hk (by omega)).bind fun {left rest} hleft => ?_
    have hrest := length_lt_of_reading hleft
    exact agrees_whileNext_level h hk (by omega) left
  | unary =>
    change Agrees _ (reading Expr.parseUnary) ts
    rw [Expr.reading_parseUnary, stepExpr]
    have hprimary : Agrees (call (.expr .primary)) (reading Expr.parsePrimary) ts :=
      h (.expr .primary) ts (Nat.lt_succ_self _)
    refine agrees_ifNext hprimary fun t us hts => ?_
    have hlen : ts.length = us.length + 1 := by rw [hts, List.length_cons]
    cases t.kind.unaryOp? with
    | none => exact .none
    | some op =>
      have hoperand : Agrees (call (.expr .unary)) (reading Expr.parseUnary) us :=
        h (.expr .unary) us (Nat.add_lt_add_right (by omega) _)
      exact .some (hoperand.map _)
  | primary =>
    change Agrees _ (reading Expr.parsePrimary) ts
    cases ts with
    | nil =>
      unfold Agrees
      rw [Expr.reading_parsePrimary_nil]
      rfl
    | cons t us =>
      refine agrees_next (Expr.given_reading_parsePrimary t) ?_
      obtain ⟨kind, line⟩ := t
      cases kind with
      | integer n => exact agrees_ofReading _ us
      | identifier name => exact agrees_pure _ us
      | keyword word => exact agrees_throw _ us
      | trivia trivia => exact agrees_throw _ us
      | symbol symbol =>
        cases symbol with
        | leftParen =>
          have hexpr : Agrees (call (.expr .assignment)) (reading Expr.parse) us :=
            h.expr (by rw [List.length_cons]; omega)
          exact hexpr.bind fun _ => (agrees_ofReading _ _).bind fun _ => agrees_pure _ _
        | _ => exact agrees_throw _ us

theorem agrees_stepIf {line : Nat} (h : CallsAgree call bound) (hlt : 14 * us.length ≤ bound) :
    Agrees (stepIf call line) (reading (Stmt.parseIf line)) us := by
  rw [Stmt.reading_parseIf, stepIf]
  refine (agrees_stepParens h hlt).bind fun {condition rest} hc => ?_
  have hrest := length_lt_of_reading hc
  refine (h.stmt (by omega)).bind fun {thenBranch rest'} hthen => ?_
  have hrest' := length_lt_of_reading hthen
  refine agrees_ifNext (agrees_pure _ rest') fun t vs hvs => ?_
  have hlen : rest'.length = vs.length + 1 := by rw [hvs, List.length_cons]
  split
  · have helse : Agrees (call .stmt) (reading Stmt.parse) vs := h.stmt (by omega)
    exact .some (helse.map _)
  · exact .none

theorem agrees_stepWhile {line : Nat} (h : CallsAgree call bound) (hlt : 14 * us.length ≤ bound) :
    Agrees (stepWhile call line) (reading (Stmt.parseWhile line)) us := by
  rw [Stmt.reading_parseWhile, stepWhile]
  refine (agrees_stepParens h hlt).bind fun {condition rest} hc => ?_
  have hrest := length_lt_of_reading hc
  have hbody : Agrees (call .stmt) (reading Stmt.parse) rest := h.stmt (by omega)
  exact hbody.map _

theorem agrees_stepDo {line : Nat} (h : CallsAgree call bound)
    (hlt : 14 * us.length + 12 < bound) :
    Agrees (stepDo call line) (reading (Stmt.parseDo line)) us := by
  rw [Stmt.reading_parseDo, stepDo]
  refine (h.stmt hlt).bind fun {body rest} hbody => ?_
  have hrest := length_lt_of_reading hbody
  refine (agrees_ofReading _ rest).bind fun {_ rest'} hwhile => ?_
  have hrest' := length_lt_of_reading hwhile
  refine (agrees_stepParens h (by omega)).bind fun _ => ?_
  exact (agrees_ofReading _ _).bind fun _ => agrees_pure _ _

theorem agrees_stepFor {line : Nat} (h : CallsAgree call bound) (hlt : 14 * us.length ≤ bound) :
    Agrees (stepFor call line) (reading (Stmt.parseFor line)) us := by
  rw [Stmt.reading_parseFor, stepFor]
  refine (agrees_ofReading _ us).bind fun {_ rest} hopen => ?_
  have hrest := length_lt_of_reading hopen
  refine (h.stmt (by omega)).bind fun {init rest'} hinit => ?_
  have hrest' := length_lt_of_reading hinit
  refine (h.expr (by omega)).bind fun {condition rest''} hc => ?_
  have hrest'' := length_lt_of_reading hc
  refine (agrees_ofReading _ rest'').bind fun {_ after} hsemi => ?_
  have hafter := length_lt_of_reading hsemi
  refine (h.expr (by omega)).bind fun {step after'} hstep => ?_
  have hafter' := length_lt_of_reading hstep
  refine (agrees_ofReading _ after').bind fun {_ last} hclose => ?_
  have hlast := length_lt_of_reading hclose
  have hbody : Agrees (call .stmt) (reading Stmt.parse) last := h.stmt (by omega)
  exact hbody.map _

theorem agrees_stepPrint {line : Nat} (h : CallsAgree call bound)
    (hlt : 14 * us.length + 11 < bound) :
    Agrees (stepPrint call line) (reading (Stmt.parsePrint line)) us := by
  rw [Stmt.reading_parsePrint, stepPrint]
  refine (h.expr hlt).bind fun _ => ?_
  exact (agrees_ofReading _ _).bind fun _ => agrees_pure _ _

theorem agrees_stepExprs {line : Nat} (h : CallsAgree call bound)
    (hlt : 14 * us.length + 11 < bound) :
    Agrees (stepExprs call line) (reading (Stmt.parseExprs line)) us := by
  rw [Stmt.reading_parseExprs, Expr.reading_parseList_more, stepExprs]
  simp only [bind_assoc, pure_bind]
  refine (h.expr hlt).bind fun {first rest} hfirst => ?_
  have hrest := length_lt_of_reading hfirst
  -- before each round, what is still to come is added to the expressions that the loop has so far
  refine agrees_whileNext (y := fun es => do
    let more ← Expr.readingMore
    reading (expect (.symbol .semicolon) line)
    return Stmt.exprs (es ++ more) line) ?_ ?_ [first]
  · intro es vs _ hnone
    have hcomma : NotNext (· = .symbol .comma) vs := by
      intro t ht hk
      rw [Option.mem_def.mp ht, Option.bind_some, if_pos hk] at hnone
      cases hnone
    have hlist : (do
        let more ← Expr.readingMore
        reading (expect (.symbol .semicolon) line)
        return Stmt.exprs (es ++ more) line : Reading Stmt) vs =
        (do
          reading (expect (.symbol .semicolon) line)
          return Stmt.exprs es line : Reading Stmt) vs := by
      rw [Reading.bind_apply, Expr.readingMore_of_notNext hcomma]
      simp only [List.append_nil]
    unfold Agrees
    rw [hlist]
    exact (agrees_ofReading _ vs).bind fun _ => agrees_pure _ _
  · intro es t vs round hvs hround
    obtain ⟨hcomma, hround⟩ := Option.ite_none_right_eq_some.mp hround
    cases hround
    have hexpr : Agrees (call (.expr .assignment)) (reading Expr.parse) vs := h.expr (by omega)
    refine ⟨do
      Reading.skip
      return es ++ [← reading Expr.parse], ?_, ?_, ?_⟩
    · refine (agrees_ofReading _ _).bind fun hskip => ?_
      cases hskip
      exact hexpr.map _
    · rw [Reading.bind_apply, Expr.readingMore_comma hcomma, Expr.reading_parseList_more,
        ← Reading.bind_apply]
      simp only [bind_assoc, pure_bind, List.append_assoc, List.singleton_append]
      rfl
    · intro es' rest' htaken
      exact Nat.le_of_lt (length_lt_of_skip_reading_map htaken)

theorem agrees_stepStmt {ts : List Token} (h : CallsAgree call (14 * ts.length + 12)) :
    Agrees (stepStmt call) (reading Stmt.parse) ts := by
  cases ts with
  | nil =>
    unfold Agrees
    rw [Stmt.reading_parse_nil]
    rfl
  | cons t us =>
    have hlen : (t :: us).length = us.length + 1 := List.length_cons
    have hgiven := Stmt.given_reading_parse t
    obtain ⟨kind, line⟩ := t
    dsimp only at hgiven
    split at hgiven
    · exact agrees_next hgiven (agrees_pure _ us)
    · have hblock : 14 * us.length + (block line).rank < 14 * (us.length + 1) + 12 := by
        rw [rank]
        omega
      exact agrees_next hgiven (h (.block line) us (hlen ▸ hblock))
    · exact agrees_next hgiven (agrees_stepIf h (by omega))
    · exact agrees_next hgiven (agrees_stepWhile h (by omega))
    · exact agrees_next hgiven (agrees_stepDo h (by omega))
    · exact agrees_next hgiven (agrees_stepFor h (by omega))
    · exact agrees_next hgiven (agrees_stepPrint h (by omega))
    · have hstep : stepStmt call (⟨kind, line⟩ :: us) =
          stepExprs call line (⟨kind, line⟩ :: us) := by
        simp only [stepStmt, onNext]
      have hparse : reading Stmt.parse (⟨kind, line⟩ :: us) =
          reading (Stmt.parseExprs line) (⟨kind, line⟩ :: us) := congrFun hgiven us
      unfold Agrees
      rw [hstep, hparse]
      exact agrees_stepExprs h (by omega)

theorem agrees_stepBlock {line : Nat} {ts : List Token}
    (h : CallsAgree call (14 * ts.length + 13)) :
    Agrees (stepBlock call line) (reading (Stmt.parseBlock line)) ts := by
  have hblock : reading (Stmt.parseBlock line) = (do
      return Stmt.block ([] ++ (← reading (Stmt.parseBody line))) line) :=
    Stmt.reading_parseBlock line
  rw [hblock, stepBlock]
  refine agrees_whileNext (y := fun ss => do
    return Stmt.block (ss ++ (← reading (Stmt.parseBody line))) line) ?_ ?_ []
  · intro ss us _ hnone
    unfold Agrees
    rw [bind_apply, Reading.bind_apply, ofReading]
    cases us with
    | nil =>
      rw [Stmt.reading_parseBody_nil]
      rfl
    | cons u us =>
      have hu : u.kind = .symbol .rightBrace := by
        by_contra hu
        rw [List.head?_cons, Option.bind_some, if_neg hu] at hnone
        cases hnone
      have hexpect : reading (expect (.symbol .rightBrace) line) (u :: us) = (.ok (), us) := by
        rw [reading, expect, if_pos hu, Parsed.outcome]
      rw [Stmt.reading_parseBody_brace hu, hexpect]
      simp only [List.append_nil]
      rfl
  · intro ss u us round hus hround
    obtain ⟨hu, hround⟩ := Option.ite_none_left_eq_some.mp hround
    cases hround
    have hstmt : Agrees (call .stmt) (reading Stmt.parse) (u :: us) :=
      h.stmt (by rw [List.length_cons]; omega)
    refine ⟨do return ss ++ [← reading Stmt.parse], hstmt.map _, ?_, ?_⟩
    · rw [Reading.bind_apply, Stmt.reading_parseBody_cons hu, ← Reading.bind_apply]
      simp only [bind_assoc, pure_bind, List.append_assoc, List.singleton_append]
    · intro ss' rest htaken
      exact Nat.le_of_lt_succ (length_lt_of_reading_map htaken)

theorem agrees_step {α : Type} {n : Nonterminal α} {ts : List Token}
    (h : CallsAgree call (14 * ts.length + n.rank)) :
    Agrees (n.step call) (reading n.parser) ts := by
  cases n with
  | expr rule => exact agrees_stepExpr h
  | stmt => exact agrees_stepStmt h
  | block line => exact agrees_stepBlock h

end Agree

/-- Where calls may be nested deep enough, no run is stopped. -/
theorem agrees_attempt (depth : Nat) : CallsAgree (attempt depth) depth := by
  induction depth with
  | zero =>
    intro β n us hlt
    exact absurd hlt (Nat.not_lt_zero _)
  | succ depth ih =>
    intro β n us hlt
    change Agrees (n.step (attempt depth)) (reading n.parser) us
    refine agrees_step fun m vs hm => ?_
    exact ih m vs (by omega)

end Nonterminal

namespace Program

/-- The loop of a program goes on to its last token. -/
theorem agrees_whileNext_statements {depth : Nat} {ts : List Token}
    (h : 14 * ts.length + 12 < depth) :
    Agrees (whileNext (fun _ => some fun ss => do return ss ++ [← Nonterminal.stmt.attempt depth]) [])
      (reading parseAll) ts := by
  have hall : reading parseAll = (do return ([] : Program) ++ (← reading parseAll)) :=
    (bind_pure (reading parseAll)).symm
  rw [hall, ← bind_pure (whileNext _ _)]
  refine agrees_whileNext (y := fun ss => do return ss ++ (← reading parseAll)) ?_ ?_ []
  · intro ss us _ hnone
    cases us with
    | nil =>
      unfold Agrees
      rw [Reading.bind_apply, reading_parseAll_nil]
      simp only [List.append_nil]
      rfl
    | cons u us => cases hnone
  · intro ss u us round hus hround
    cases hround
    have hstmt : Agrees (Nonterminal.stmt.attempt depth) (reading Stmt.parse) (u :: us) :=
      Nonterminal.CallsAgree.stmt (Nonterminal.agrees_attempt depth) (by rw [List.length_cons]; omega)
    refine ⟨do return ss ++ [← reading Stmt.parse], hstmt.map _, ?_, ?_⟩
    · rw [Reading.bind_apply, reading_parseAll_cons, ← Reading.bind_apply]
      simp only [bind_assoc, pure_bind, List.append_assoc, List.singleton_append]
    · intro ss' rest htaken
      exact Nat.le_of_lt_succ (length_lt_of_reading_map htaken)

theorem agrees_attempt {depth : Nat} {ts : List Token} (h : 14 * ts.length + 12 < depth) :
    Agrees (Program.attempt depth) (reading parseTokens) ts := by
  have hloop := agrees_whileNext_statements h
  unfold Agrees at hloop ⊢
  rw [Program.attempt, hloop, reading_parseTokens]
  rfl

end Program

/-! ## Progress -/

/-- On every list of tokens, no run of a parser is stopped: it ends with the parser's result, with
calls nested no deeper than said and no loop with more rounds than tokens were left when it began.
A parser leaves a suffix of its tokens, whether it succeeds or fails, and a shorter one if it
succeeds. -/
theorem parsing_terminates :
    (∀ (α : Type) (n : Nonterminal α) (ts : List Token),
      n.attempt (14 * (ts.length + 1)) ts = some (n.parser ts).outcome ∧
        (n.parser ts).rest <:+ ts ∧
        ∀ v rest, (n.parser ts).Yields v rest → rest.length < ts.length) ∧
    ∀ ts : List Token,
      Program.attempt (14 * (ts.length + 1)) ts = some (Program.parseTokens ts).outcome := by
  constructor
  · intro α n ts
    have hrank := n.rank_lt
    refine ⟨Nonterminal.agrees_attempt _ n ts (by omega), n.rest_suffix ts, ?_⟩
    intro v rest h
    exact h.length_lt
  · intro ts
    exact Program.agrees_attempt (by omega)

/-- A block that is cut off inside of a loop's header, where every parser on the way fails at the
end of the tokens, and a conjunction that stops before an assignment. -/
theorem parsing_terminates_at_cut_block :
    let x : Token := ⟨.identifier "x", 1⟩
    let cut : List Token := [⟨.symbol .leftBrace, 1⟩, x, ⟨.symbol .semicolon, 1⟩,
      ⟨.keyword .forWord, 2⟩, ⟨.symbol .leftParen, 2⟩, ⟨.keyword .doWord, 2⟩]
    let both : List Token := [x, ⟨.symbol (.binary (.logic .and)), 1⟩, x]
    let rest : List Token := [⟨.symbol (.binary .assign), 1⟩, x]
    (Program.attempt 98 cut = some (.error ⟨.unexpectedEnd, 2⟩, []) ∧
      Nonterminal.stmt.attempt 98 cut = some (.error ⟨.unexpectedEnd, 0⟩, [])) ∧
    (Expr.parseLevel .conjunction (both ++ rest)).Yields
        (.binary (.var "x" 1) (.logic .and) (.var "x" 1) 1) rest ∧
      rest.length < (both ++ rest).length := by
  intro x cut both rest
  have hboth : (Expr.parseLevel .conjunction (both ++ rest)).Yields
      (.binary (.var "x" 1) (.logic .and) (.var "x" 1) 1) rest := ⟨by decide, by cbv⟩
  obtain ⟨hparsers, hprogram⟩ := parsing_terminates
  obtain ⟨-, -, hshorter⟩ := hparsers Expr (.expr (.level .conjunction)) (both ++ rest)
  have hcut : (Stmt.parse cut).outcome = (.error ⟨.unexpectedEnd, 0⟩, []) := by cbv
  have hcut' : (Program.parseTokens cut).outcome = (.error ⟨.unexpectedEnd, 2⟩, []) := by cbv
  refine ⟨⟨?_, ?_⟩, hboth, hshorter _ rest hboth⟩
  · rw [← hcut']
    exact hprogram cut
  · rw [← hcut]
    exact (hparsers Stmt .stmt cut).1

end Imp32
