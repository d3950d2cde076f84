import Imp32.Token

/-!
# Scanning

Cuts a source text into tokens, one character at a time. The scanner remembers what it is in the
middle of (`Pending`): a character either continues the pending piece or ends it and begins another.
A word, a number and a symbol are therefore always as long as they can be, and a text is scanned by
a fold, so scanning `s ++ t` is scanning `t` from where `s` leaves off.

Blanks, line ends and comments leave no token. A line comment ends before its line does; a block
comment ends with the first `*/` after it began, or else with the text.

Two things are no token: a character that belongs to none, and a run of digits that is too large for
a signed 64-bit word. The leftmost one is reported.
-/

namespace Imp32

/-- A piece of text that is no token, and the line it stands on. -/
structure Unrecognised where
  /-- The piece of text. -/
  text : String
  /-- The line it stands on. -/
  line : Nat
deriving DecidableEq, Repr

/-! ## Classes of characters -/

/-- Characters that separate tokens within a line. -/
def isBlank (c : Char) : Bool := c == ' ' || c == '\t' || c == '\r' || c == '\x0c'

/-- Characters that begin a word. -/
def isWordStart (c : Char) : Bool := c.isAlpha || c == '_'

/-- Characters that continue a word. -/
def isWordPart (c : Char) : Bool := c.isAlphanum || c == '_'

/-- The space, the tab, the carriage return and the form feed are the only blanks. -/
theorem isBlank_iff {c : Char} : isBlank c = true ↔ c ∈ [' ', '\t', '\r', '\x0c'] := by
  simp [isBlank, or_assoc]

theorem isAlpha_iff {c : Char} :
    c.isAlpha = true ↔ ('A' ≤ c ∧ c ≤ 'Z') ∨ ('a' ≤ c ∧ c ≤ 'z') := by
  have hupper : c.isUpper = true ↔ 'A' ≤ c ∧ c ≤ 'Z' := decide_eq_true_iff
  have hlower : c.isLower = true ↔ 'a' ≤ c ∧ c ≤ 'z' :=
    Bool.and_eq_true_iff.trans (and_congr decide_eq_true_iff decide_eq_true_iff)
  exact Bool.or_eq_true_iff.trans (or_congr hupper hlower)

theorem isDigit_iff {c : Char} : c.isDigit = true ↔ '0' ≤ c ∧ c ≤ '9' :=
  Bool.and_eq_true_iff.trans (and_congr decide_eq_true_iff decide_eq_true_iff)

/-- A word begins with one of 52 letters or with an underscore. -/
theorem isWordStart_iff {c : Char} :
    isWordStart c = true ↔ ('A' ≤ c ∧ c ≤ 'Z') ∨ ('a' ≤ c ∧ c ≤ 'z') ∨ c = '_' := by
  rw [isWordStart, Bool.or_eq_true, isAlpha_iff, beq_iff_eq, or_assoc]

/-- A word goes on with the same characters and with the ten digits. -/
theorem isWordPart_iff {c : Char} :
    isWordPart c = true ↔
      ('A' ≤ c ∧ c ≤ 'Z') ∨ ('a' ≤ c ∧ c ≤ 'z') ∨ ('0' ≤ c ∧ c ≤ '9') ∨ c = '_' := by
  have halphanum : c.isAlphanum = true ↔ c.isAlpha = true ∨ c.isDigit = true :=
    Bool.or_eq_true_iff
  rw [isWordPart, Bool.or_eq_true, halphanum, isAlpha_iff, isDigit_iff, beq_iff_eq, or_assoc,
    or_assoc]

/-! ## The scanner -/

/-- What the scanner is in the middle of. Characters read so far stand latest first. -/
inductive Pending where
  /-- Nothing: the next character begins a piece of its own. -/
  | nothing
  /-- A keyword or identifier. -/
  | word (chars : List Char)
  /-- An integer literal. -/
  | number (digits : List Char)
  /-- A symbol that a further character may lengthen. -/
  | symbol (sym : Symbol)
  /-- A comment that the end of the line ends. -/
  | lineComment
  /-- A comment that `*/` ends; `starred` tells whether the last character was its `*`. -/
  | blockComment (starred : Bool)
deriving DecidableEq, Repr

namespace Pending

/-- The token that a word is: a keyword if one is written so, else an identifier. -/
def wordKind (word : String) : Token.Kind :=
  match Keyword.ofWord? word with
  | some keyword => .keyword keyword
  | none => .identifier word

/-- The token that a pending piece is if it ends here. -/
def kind? (line : Nat) : Pending → Except Unrecognised (Option Token.Kind)
  | .nothing | .lineComment | .blockComment _ => .ok none
  | .word chars => .ok (some (wordKind (String.ofList chars.reverse)))
  | .number digits =>
    let value := Nat.ofDigitChars 10 digits.reverse 0
    if value < 0x8000000000000000 then .ok (some (.integer value))
    else .error ⟨String.ofList digits.reverse, line⟩
  | .symbol sym => .ok (some (.symbol sym))

/-- The piece that a character begins. -/
def start (line : Nat) (c : Char) : Except Unrecognised Pending :=
  if c == '\n' || isBlank c then .ok .nothing
  else if isWordStart c then .ok (.word [c])
  else if c.isDigit then .ok (.number [c])
  else match Symbol.ofChar? c with
    | some sym => .ok (.symbol sym)
    | none => .error ⟨c.toString, line⟩

/-- The pending piece with one more character, if the character continues it. -/
def extend? : Pending → Char → Option Pending
  | .nothing, _ => none
  | .word chars, c => if isWordPart c then some (.word (c :: chars)) else none
  | .number digits, c => if c.isDigit then some (.number (c :: digits)) else none
  | .symbol sym, c =>
    if sym = .slash ∧ c = '/' then some .lineComment
    else if sym = .slash ∧ c = '*' then some (.blockComment false)
    else (sym.extend? c).map .symbol
  | .lineComment, c => if c == '\n' then none else some .lineComment
  | .blockComment starred, c =>
    if starred && c == '/' then some .nothing else some (.blockComment (c == '*'))

end Pending

/-- The state of scanning between two characters. -/
structure Scanner where
  /-- The tokens that are complete, latest first. -/
  done : List Token := []
  /-- The current line. -/
  line : Nat := 1
  /-- The piece that is not complete. -/
  pending : Pending := .nothing
deriving DecidableEq, Repr

namespace Scanner

/-- Ends the pending piece. -/
def flush (s : Scanner) : Except Unrecognised Scanner := do
  match ← s.pending.kind? s.line with
  | some kind => return { s with done := ⟨kind, s.line⟩ :: s.done, pending := .nothing }
  | none => return { s with pending := .nothing }

/-- Reads one character: it continues the pending piece, or ends it and begins another. -/
def step (s : Scanner) (c : Char) : Except Unrecognised Scanner := do
  let next := if c == '\n' then s.line + 1 else s.line
  match s.pending.extend? c with
  | some pending => return { s with pending, line := next }
  | none =>
    let s ← s.flush
    let pending ← Pending.start s.line c
    return { s with pending, line := next }

/-- Reads a text, character by character. -/
def feed (s : Scanner) (text : List Char) : Except Unrecognised Scanner :=
  text.foldlM step s

/-- Reading one text after another is reading them in sequence. -/
theorem feed_append (s : Scanner) (a b : List Char) :
    s.feed (a ++ b) = s.feed a >>= fun s => s.feed b :=
  List.foldlM_append

/-- The tokens of all that was read, when the text ends here. -/
def finish (s : Scanner) : Except Unrecognised (List Token) := do
  return (← s.flush).done.reverse

end Scanner

/-- The tokens of a source text, or the leftmost piece of it that is no token. -/
def scan (source : String) : Except Unrecognised (List Token) := do
  (← Scanner.feed {} source.toList).finish

end Imp32
