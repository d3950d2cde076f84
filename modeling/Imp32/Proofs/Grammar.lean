import Imp32.Stmt
import Imp32.Token

/-!
# The grammar

The grammar of the language as a relation between lists of tokens and trees, stated on its own and
without a parser. A rule that is written `x := y (op y)*` builds a tree that groups to the left; the
rule for assignments groups to the right. Parentheses leave no node.

The grammar alone lets an `else` go with any open `if` before it. The restriction to the nearest one
is a parameter: with it, the branch before an `else` must not end in an `if` without one.

Every node carries a line: a statement that of its first token, an operation that of its operator, a
leaf that of its own token.
-/

namespace Imp32

/-! ## Expressions -/

/-- The rules for expressions. -/
inductive Expr.Rule where
  /-- Assignments, and all that binds more tightly. -/
  | assignment
  /-- Chains of operators of a level, and all that binds more tightly. -/
  | level (level : Level)
  /-- Unary operators before a primary. -/
  | unary
  /-- Literals, variables and parentheses. -/
  | primary
deriving DecidableEq, Repr

namespace Level

/-- The operators of a level. -/
def operators : Level → List BinaryOp
  | .disjunction => [.logic .or]
  | .conjunction => [.logic .and]
  | .bitOr => [.arith .or]
  | .bitXor => [.arith .xor]
  | .bitAnd => [.arith .and]
  | .equality => [.compare .eq, .compare .ne]
  | .order => [.compare .lt, .compare .le, .compare .gt, .compare .ge]
  | .sum => [.arith .add, .arith .sub]
  | .product => [.arith .mul, .arith .div]

/-- The rule for the operands of a level's operators: the next tighter one. -/
def operand : Level → Expr.Rule
  | .disjunction => .level .conjunction
  | .conjunction => .level .bitOr
  | .bitOr => .level .bitXor
  | .bitXor => .level .bitAnd
  | .bitAnd => .level .equality
  | .equality => .level .order
  | .order => .level .sum
  | .sum => .level .product
  | .product => .unary

end Level

/-- How loosely the operators of a rule bind. -/
def Expr.Rule.looseness : Expr.Rule → Nat
  | .primary => 0
  | .unary => 1
  | .level l => l.height + 1
  | .assignment => 11

/-- The symbols that stand for a unary operator, each of them before its operand. -/
def UnaryOp.symbols : UnaryOp → List Symbol
  | .complement => [.bang, .tilde]
  | .negate => [.minus]
  | .decrement => [.decrement]
  | .increment => [.increment]

namespace Expr

/-- A rule derives an expression from the tokens. -/
inductive Derives : Rule → List Token → Expr → Prop where
  /-- An assignment without an assigning operator. -/
  | operand {ts : List Token} {e : Expr} (h : Derives (.level .disjunction) ts e) :
      Derives .assignment ts e
  /-- An assigning operator, which groups to the right. -/
  | assign {ts us : List Token} {t : Token} {left right : Expr} {op : BinaryOp}
      (hleft : Derives (.level .disjunction) ts left) (ht : t.kind = .symbol (.binary op))
      (hop : op.assigns = true) (hright : Derives .assignment us right) :
      Derives .assignment (ts ++ t :: us) (.binary left op right t.line)
  /-- A chain without an operator. -/
  | single {level : Level} {ts : List Token} {e : Expr} (h : Derives level.operand ts e) :
      Derives (.level level) ts e
  /-- A chain with one more operator, which groups to the left. -/
  | chain {level : Level} {ts us : List Token} {t : Token} {left right : Expr} {op : BinaryOp}
      (hleft : Derives (.level level) ts left) (ht : t.kind = .symbol (.binary op))
      (hop : op ∈ level.operators) (hright : Derives level.operand us right) :
      Derives (.level level) (ts ++ t :: us) (.binary left op right t.line)
  /-- An operator before its operand. -/
  | unary {ts : List Token} {t : Token} {e : Expr} {op : UnaryOp} {sym : Symbol}
      (ht : t.kind = .symbol sym) (hop : sym ∈ op.symbols) (h : Derives .unary ts e) :
      Derives .unary (t :: ts) (.unary op e t.line)
  /-- No operator before a primary. -/
  | primary {ts : List Token} {e : Expr} (h : Derives .primary ts e) : Derives .unary ts e
  /-- A literal in the range of a word. -/
  | literal {t : Token} {v : Value} (ht : t.kind = .integer v.toInt) :
      Derives .primary [t] (.num v t.line)
  /-- A variable. -/
  | name {t : Token} {name : String} (ht : t.kind = .identifier name) :
      Derives .primary [t] (.var name t.line)
  /-- An expression in parentheses. -/
  | parens {ts : List Token} {t u : Token} {e : Expr} (ht : t.kind = .symbol .leftParen)
      (h : Derives .assignment ts e) (hu : u.kind = .symbol .rightParen) :
      Derives .primary (t :: ts ++ [u]) e

theorem Derives.toLevel {ts : List Token} {e : Expr} (h : Derives .unary ts e) (level : Level) :
    Derives (.level level) ts e := by
  have product : Derives (.level .product) ts e := .single h
  have sum : Derives (.level .sum) ts e := .single product
  have order : Derives (.level .order) ts e := .single sum
  have equality : Derives (.level .equality) ts e := .single order
  have bitAnd : Derives (.level .bitAnd) ts e := .single equality
  have bitXor : Derives (.level .bitXor) ts e := .single bitAnd
  have bitOr : Derives (.level .bitOr) ts e := .single bitXor
  have conjunction : Derives (.level .conjunction) ts e := .single bitOr
  have disjunction : Derives (.level .disjunction) ts e := .single conjunction
  cases level <;> assumption

theorem Derives.toOperand {ts : List Token} {e : Expr} (h : Derives .unary ts e) (level : Level) :
    Derives level.operand ts e := by
  cases level
  case product => exact h
  all_goals exact h.toLevel _

theorem Derives.toAssignment {ts : List Token} {e : Expr} {level : Level}
    (h : Derives (.level level) ts e) : Derives .assignment ts e := by
  have disjunction : Derives (.level .disjunction) ts e → Derives .assignment ts e := .operand
  have conjunction (h : Derives (.level .conjunction) ts e) := disjunction (.single h)
  have bitOr (h : Derives (.level .bitOr) ts e) := conjunction (.single h)
  have bitXor (h : Derives (.level .bitXor) ts e) := bitOr (.single h)
  have bitAnd (h : Derives (.level .bitAnd) ts e) := bitXor (.single h)
  have equality (h : Derives (.level .equality) ts e) := bitAnd (.single h)
  have order (h : Derives (.level .order) ts e) := equality (.single h)
  have sum (h : Derives (.level .sum) ts e) := order (.single h)
  have product (h : Derives (.level .product) ts e) := sum (.single h)
  cases level with
  | product => exact product h
  | sum => exact sum h
  | order => exact order h
  | equality => exact equality h
  | bitAnd => exact bitAnd h
  | bitXor => exact bitXor h
  | bitOr => exact bitOr h
  | conjunction => exact conjunction h
  | disjunction => exact disjunction h

theorem Derives.widen {ts : List Token} {e : Expr} (h : Derives .unary ts e) :
    Derives .assignment ts e :=
  (h.toLevel .disjunction).toAssignment

/-- An expression in parentheses, as it stands in the head of a branch or loop. -/
inductive DerivesParens : List Token → Expr → Prop where
  /-- The parentheses and what stands between them. -/
  | mk {ts : List Token} {t u : Token} {e : Expr} (ht : t.kind = .symbol .leftParen)
      (h : Derives .assignment ts e) (hu : u.kind = .symbol .rightParen) :
      DerivesParens (t :: ts ++ [u]) e

/-- One or more expressions with commas between them. -/
inductive DerivesList : List Token → List Expr → Prop where
  /-- The last expression. -/
  | last {ts : List Token} {e : Expr} (h : Derives .assignment ts e) : DerivesList ts [e]
  /-- An expression, a comma and more. -/
  | cons {ts us : List Token} {t : Token} {e : Expr} {es : List Expr}
      (h : Derives .assignment ts e) (ht : t.kind = .symbol .comma) (hs : DerivesList us es) :
      DerivesList (ts ++ t :: us) (e :: es)

end Expr

/-- The token can begin an expression. -/
def Token.Kind.startsExpr : Token.Kind → Bool
  | .integer _ | .identifier _ | .symbol .leftParen => true
  | .symbol .bang | .symbol .tilde | .symbol (.binary (.arith .sub)) => true
  | .symbol .decrement | .symbol .increment => true
  | _ => false

theorem UnaryOp.startsExpr_of_mem_symbols {op : UnaryOp} {sym : Symbol} (h : sym ∈ op.symbols) :
    (Token.Kind.symbol sym).startsExpr = true := by
  revert sym
  cases op <;> decide

/-- Every expression has a first token, and it can begin an expression. -/
theorem Expr.Derives.first {rule : Rule} {ts : List Token} {e : Expr} (h : Derives rule ts e) :
    ∃ t us, ts = t :: us ∧ t.kind.startsExpr = true := by
  induction h with
  | operand _ ih => exact ih
  | single _ ih => exact ih
  | primary _ ih => exact ih
  | assign _ _ _ _ ih _ =>
    obtain ⟨t, us, rfl, hk⟩ := ih
    exact ⟨t, _, rfl, hk⟩
  | chain _ _ _ _ ih _ =>
    obtain ⟨t, us, rfl, hk⟩ := ih
    exact ⟨t, _, rfl, hk⟩
  | unary ht hop _ _ =>
    refine ⟨_, _, rfl, ?_⟩
    rw [ht]
    exact UnaryOp.startsExpr_of_mem_symbols hop
  | literal ht => exact ⟨_, _, rfl, by rw [ht]; rfl⟩
  | name ht => exact ⟨_, _, rfl, by rw [ht]; rfl⟩
  | parens ht _ _ _ => exact ⟨_, _, rfl, by rw [ht]; rfl⟩

theorem Expr.DerivesList.first {ts : List Token} {es : List Expr} (h : DerivesList ts es) :
    ∃ t us, ts = t :: us ∧ t.kind.startsExpr = true := by
  cases h with
  | last h => exact h.first
  | cons h _ _ =>
    obtain ⟨t, us, rfl, hk⟩ := h.first
    exact ⟨t, _, rfl, hk⟩

/-! ## Statements and programs -/

namespace Stmt

mutual

/-- A statement is derived from the tokens; if `nearest` is set, an `else` goes with the nearest
`if`. -/
inductive Derives (nearest : Bool) : List Token → Stmt → Prop where
  /-- A semicolon alone. -/
  | empty {t : Token} (ht : t.kind = .symbol .semicolon) : Derives nearest [t] (.empty t.line)
  /-- Statements in braces. -/
  | block {ts : List Token} {t u : Token} {body : List Stmt} (ht : t.kind = .symbol .leftBrace)
      (h : DerivesAll nearest ts body) (hu : u.kind = .symbol .rightBrace) :
      Derives nearest (t :: ts ++ [u]) (.block body t.line)
  /-- A branch without an alternative. -/
  | ifThen {cs ts : List Token} {t : Token} {condition : Expr} {thenBranch : Stmt}
      (ht : t.kind = .keyword .ifWord) (hc : Expr.DerivesParens cs condition)
      (h : Derives nearest ts thenBranch) :
      Derives nearest (t :: cs ++ ts) (.ifThen condition thenBranch t.line)
  /-- A branch with an alternative. -/
  | ifElse {cs ts us : List Token} {t u : Token} {condition : Expr} {thenBranch elseBranch : Stmt}
      (ht : t.kind = .keyword .ifWord) (hc : Expr.DerivesParens cs condition)
      (h : Derives nearest ts thenBranch) (hn : nearest = true → thenBranch.endsOpen = false)
      (hu : u.kind = .keyword .elseWord) (helse : Derives nearest us elseBranch) :
      Derives nearest (t :: cs ++ ts ++ u :: us) (.ifElse condition thenBranch elseBranch t.line)
  /-- A loop that tests before its body. -/
  | whileDo {cs ts : List Token} {t : Token} {condition : Expr} {body : Stmt}
      (ht : t.kind = .keyword .whileWord) (hc : Expr.DerivesParens cs condition)
      (h : Derives nearest ts body) :
      Derives nearest (t :: cs ++ ts) (.whileDo condition body t.line)
  /-- A loop that tests after its body. -/
  | doWhile {cs ts : List Token} {t u v : Token} {condition : Expr} {body : Stmt}
      (ht : t.kind = .keyword .doWord) (h : Derives nearest ts body)
      (hu : u.kind = .keyword .whileWord) (hc : Expr.DerivesParens cs condition)
      (hv : v.kind = .symbol .semicolon) :
      Derives nearest (t :: ts ++ u :: cs ++ [v]) (.doWhile body condition t.line)
  /-- A loop with a step. -/
  | forDo {is cs ss ts : List Token} {t u v w : Token} {condition step : Expr} {init body : Stmt}
      (ht : t.kind = .keyword .forWord) (hu : u.kind = .symbol .leftParen)
      (hi : Derives nearest is init) (hc : Expr.Derives .assignment cs condition)
      (hv : v.kind = .symbol .semicolon) (hs : Expr.Derives .assignment ss step)
      (hw : w.kind = .symbol .rightParen) (h : Derives nearest ts body) :
      Derives nearest (t :: u :: is ++ cs ++ v :: ss ++ w :: ts)
        (.forDo init condition step body t.line)
  /-- Expressions before a semicolon. -/
  | exprs {ts : List Token} {t u : Token} {list : List Expr} (h : Expr.DerivesList (t :: ts) list)
      (hu : u.kind = .symbol .semicolon) : Derives nearest (t :: ts ++ [u]) (.exprs list t.line)
  /-- An expression to be printed. -/
  | print {ts : List Token} {t u : Token} {value : Expr} (ht : t.kind = .keyword .printWord)
      (h : Expr.Derives .assignment ts value) (hu : u.kind = .symbol .semicolon) :
      Derives nearest (t :: ts ++ [u]) (.print value t.line)

/-- Statements are derived one after another. -/
inductive DerivesAll (nearest : Bool) : List Token → List Stmt → Prop where
  /-- No statement. -/
  | nil : DerivesAll nearest [] []
  /-- A statement and more. -/
  | cons {ts us : List Token} {s : Stmt} {ss : List Stmt} (h : Derives nearest ts s)
      (hs : DerivesAll nearest us ss) : DerivesAll nearest (ts ++ us) (s :: ss)

end

end Stmt

/-- Every statement has a first token, which neither closes a block nor begins an alternative. -/
theorem Stmt.Derives.first {nearest : Bool} {ts : List Token} {s : Stmt}
    (h : Derives nearest ts s) :
    ∃ t us, ts = t :: us ∧ t.kind ≠ .symbol .rightBrace ∧ t.kind ≠ .keyword .elseWord := by
  cases h with
  | exprs h _ =>
    obtain ⟨t, us, heq, hk⟩ := h.first
    cases heq
    refine ⟨_, _, rfl, fun hbad => ?_, fun hbad => ?_⟩ <;> rw [hbad] at hk <;> cases hk
  | empty ht => exact ⟨_, _, rfl, by simp [ht], by simp [ht]⟩
  | block ht _ _ => exact ⟨_, _, rfl, by simp [ht], by simp [ht]⟩
  | ifThen ht _ _ => exact ⟨_, _, rfl, by simp [ht], by simp [ht]⟩
  | ifElse ht _ _ _ _ _ => exact ⟨_, _, rfl, by simp [ht], by simp [ht]⟩
  | whileDo ht _ _ => exact ⟨_, _, rfl, by simp [ht], by simp [ht]⟩
  | doWhile ht _ _ _ _ => exact ⟨_, _, rfl, by simp [ht], by simp [ht]⟩
  | forDo ht _ _ _ _ _ _ _ => exact ⟨_, _, rfl, by simp [ht], by simp [ht]⟩
  | print ht _ _ => exact ⟨_, _, rfl, by simp [ht], by simp [ht]⟩

/-- A program is derived from the tokens. -/
def Program.Derives (nearest : Bool) (ts : List Token) (p : Program) : Prop :=
  Stmt.DerivesAll nearest ts p

end Imp32
