import Mathlib.Algebra.Group.Nat.Defs
import Imp32.Proofs.BoundedOutput
import Imp32.Proofs.OversizedLiterals
import Imp32.Proofs.TokenLines

/-!
# Printing a literal

What becomes of a literal depends on its value only, not on the number of its digits
(`literals_have_three_ranges`). One that fits in a word is printed without its leading zeros; one
that fits in a signed 64-bit word only is scanned, and turned down by the parser; and a larger one
is no token at all.
-/

namespace Imp32

open Pending Scanner Token.Kind Reading

/-! ## Scanning -/

/-- Digits are an integer up to where no digit follows. -/
theorem fits_integer {digits after : List Char} (hne : digits ≠ [])
    (hdigits : ∀ c ∈ digits, c.isDigit = true) (hafter : ∀ c ∈ after.head?, c.isDigit = false)
    (hsmall : Nat.ofDigitChars 10 digits 0 < 0x8000000000000000) :
    (Token.Kind.integer (Nat.ofDigitChars 10 digits 0)).Fits digits after where
  written := ⟨hne, hdigits, rfl⟩
  lexable := ⟨by omega, by omega⟩
  longest := longest_digits hne hdigits hafter

theorem fits_semicolon : (Token.Kind.symbol .semicolon).Fits [';'] [] where
  written := rfl
  lexable := trivial
  longest _ hprefix _ := hprefix.length_le

theorem at_print (after : List Char) :
    At "print ".toList after [⟨.keyword .printWord, 1⟩] :=
  ⟨_, rfl, rfl, fun _ _ => rfl⟩

/-- The tokens of `print`, a literal and a semicolon, all on the first line. -/
def printTokens (n : Int) : List Token :=
  [⟨.keyword .printWord, 1⟩, ⟨.integer n, 1⟩, ⟨.symbol .semicolon, 1⟩]

theorem scan_print {digits : String} (hne : digits ≠ "")
    (hdigits : ∀ c ∈ digits.toList, c.isDigit = true)
    (hsmall : Nat.ofDigitChars 10 digits.toList 0 < 0x8000000000000000) :
    scan ("print " ++ digits ++ ";") = .ok (printTokens (Nat.ofDigitChars 10 digits.toList 0)) := by
  have hafter : ∀ c ∈ [';'].head?, c.isDigit = false := by simp
  have hfits := fits_integer (by simpa using hne) hdigits hafter hsmall
  have hline : ("print ".toList ++ digits.toList).count '\n' = 0 := by
    rw [List.count_append, List.count_eq_zero.mpr hfits.lexeme.lineEnd_not_mem]
    rfl
  obtain ⟨s, hfeed, hfinish, -⟩ := ((at_print _).token hfits).token fits_semicolon
  rw [Place.token, Place.token, hline] at hfinish
  refine scan_eq_ok_iff.mpr ⟨s, ?_, hfinish⟩
  rw [String.toList_append, String.toList_append]
  exact hfeed

theorem scan_print_of_large {digits : String} (hne : digits ≠ "")
    (hdigits : ∀ c ∈ digits.toList, c.isDigit = true)
    (hlarge : 0x8000000000000000 ≤ Nat.ofDigitChars 10 digits.toList 0) :
    scan ("print " ++ digits ++ ";") = .error ⟨digits, 1⟩ := by
  have hlong : Longest digits.toList [';'] := longest_digits (by simpa using hne) hdigits (by simp)
  have hbad : NoToken digits.toList [';'] := .overflow (by simpa using hne) hdigits hlarge hlong
  have herror := (at_print _).noToken hbad
  rw [String.ofList_toList] at herror
  rw [scan_eq, String.toList_append, String.toList_append]
  exact herror

/-! ## Parsing -/

namespace Expr

/-- Where no operator follows, an expression is what the unary parser makes of it. -/
theorem reading_parse_of_unary {ts rest : List Token} {res : Except SyntaxError Expr}
    (h : reading parseUnary ts = (res, rest)) (hrest : NotNext IsBinary rest) :
    reading parse ts = (res, rest) := by
  have hle : Rule.unary ≤ .assignment := by decide
  have hstop (e : Expr) (_ : res = .ok e) (r : Rule) (_ : r ∈ Set.Ioc Rule.unary .assignment) :
      NotNext (IsOperatorOf r) rest := fun t ht hop => hrest t ht hop.isBinary
  exact Rule.reading_parser_of_le le_rfl hle h hstop

/-- A literal before something that is no operator is an expression, if it is not too large. -/
theorem reading_parse_integer (n : Int) (line : Nat) {us : List Token}
    (hus : NotNext IsBinary us) : reading parse (⟨.integer n, line⟩ :: us) = literal n line us := by
  have hunary : reading parseUnary (⟨.integer n, line⟩ :: us) = literal n line us := by
    rw [reading_parseUnary]
    exact congrFun (given_reading_parsePrimary ⟨.integer n, line⟩) us
  -- A literal that is too large is taken as well before it is blamed.
  have hleft : (literal n line us).2 = us := by
    unfold literal
    cases Value.ofLiteral? n <;> rfl
  rw [← hleft] at hus
  exact reading_parse_of_unary hunary hus

end Expr

theorem Stmt.reading_parse_print_integer (n : Int) : reading parse (printTokens n) =
    match Value.ofLiteral? n with
    | some v => (.ok (.print (.num v 1) 1), [])
    | none => (.error ⟨.literalTooLarge, 1⟩, [⟨.symbol .semicolon, 1⟩]) := by
  have hprint : reading parse (printTokens n) =
      reading (parsePrint 1) [⟨.integer n, 1⟩, ⟨.symbol .semicolon, 1⟩] :=
    congrFun (given_reading_parse ⟨.keyword .printWord, 1⟩) _
  have hsemicolon : NotNext IsBinary [⟨.symbol .semicolon, 1⟩] := by simp [IsBinary]
  rw [hprint, reading_parsePrint, bind_apply, Expr.reading_parse_integer n 1 hsemicolon,
    Expr.literal]
  cases Value.ofLiteral? n with
  | some v => rfl
  | none => rfl

theorem Program.parse_print_integer {source : String} {n : Int}
    (hscan : scan source = .ok (printTokens n)) : parse source =
      match Value.ofLiteral? n with
      | some v => .ok [.print (.num v 1) 1]
      | none => .error ⟨.literalTooLarge, 1⟩ := by
  have hall := reading_parseAll_cons ⟨.keyword .printWord, 1⟩
    [⟨.integer n, 1⟩, ⟨.symbol .semicolon, 1⟩]
  rw [bind_apply, ← printTokens, Stmt.reading_parse_print_integer] at hall
  rw [parse_of_scan hscan, reading_parseTokens, hall]
  cases Value.ofLiteral? n with
  | some v =>
    simp only [bind_apply, reading_parseAll_nil]
    rfl
  | none => rfl

/-! ## Running -/

/-- A literal below `2 ^ 31` has a value, and that is shown as the literal without leading zeros. -/
theorem Value.exists_ofLiteral? {n : Nat} (h : n < 2 ^ 31) :
    ∃ v, ofLiteral? n = some v ∧ v.decimal = n.repr := by
  have hv : ofLiteral? n = some (Int32.ofInt n) := by rw [ofLiteral?, if_pos (by omega)]
  refine ⟨_, hv, ?_⟩
  rw [decimal, toInt_of_ofLiteral? hv]
  rfl

theorem Value.ofLiteral?_of_large {n : Nat} (h : 2 ^ 31 ≤ n) : ofLiteral? n = none := by
  rw [ofLiteral?, if_neg (by omega)]

/-- A program that prints a number goes on to its end, and prints the number. -/
theorem Program.goes_print_num (v : Value) (line budget : Nat) (env : Env) :
    Exec.Goes (exec budget [.print (.num v line) line]) env [⟨v, line⟩] (.ok ()) env := by
  have hvalue : Exec.Goes (.ofEval (Expr.num v line).eval) env [] (.ok v) env := .ofEval _ env
  have hprint : Exec.Goes (Stmt.exec budget (.print (.num v line) line)) env [⟨v, line⟩] (.ok ())
      env := by
    rw [Stmt.exec]
    exact hvalue.bind (.write v line env)
  rw [exec_eq, Stmt.execAll, Stmt.execAll]
  exact hprint.bind (.pure () env)

/-- The program that prints a literal. If the literal fits in a word, the program ends well and
writes the number, without leading zeros, and a line end. If it does not, nothing is written, and
the error on line one depends on whether the literal fits in a signed 64-bit word: one that does is
too large, and one that does not is quoted as it stands. -/
theorem literals_have_three_ranges {digits : String} {n : Nat} (hne : digits ≠ "")
    (hdigits : ∀ c ∈ digits.toList, c.isDigit = true) (hn : Nat.ofDigitChars 10 digits.toList 0 = n)
    (budget : Nat) {sink : Sink} (hroom : sink.room = none) :
    (n ≤ 2 ^ 31 - 1 → IsNumeral n n.repr.toList ∧
      run budget ("print " ++ digits ++ ";") sink =
        some (.ok (), { sink := { sink with written := sink.written ++ (n.repr ++ "\n") } })) ∧
    (2 ^ 31 ≤ n → n ≤ 2 ^ 63 - 1 →
      run budget ("print " ++ digits ++ ";") sink =
        some (.error (.parsing ⟨.literalTooLarge, 1⟩), { sink })) ∧
    (2 ^ 63 ≤ n →
      run budget ("print " ++ digits ++ ";") sink =
        some (.error (.parsing ⟨.unrecognised digits, 1⟩), { sink })) := by
  subst hn
  refine ⟨fun hword => ⟨?_, ?_⟩, fun hlarge hscanned => ?_, fun hlarge => ?_⟩
  · rw [Nat.toList_repr]
    exact isNumeral_toDigits _
  · obtain ⟨v, hv, hdecimal⟩ := Value.exists_ofLiteral? (Nat.lt_succ_of_le hword)
    have hparse := Program.parse_print_integer (scan_print hne hdigits (by omega))
    rw [hv] at hparse
    have hexec := (Program.goes_print_num v 1 budget {}).whole (Sink.record_unlimited hroom _)
    have htext : Print.textAll [⟨v, 1⟩] = v.decimal ++ "\n" := by simp [Print.textAll, Print.text]
    rw [run_of_parse_eq_ok hparse, hexec, htext, hdecimal]
    rfl
  · have hparse := Program.parse_print_integer (scan_print hne hdigits (by omega))
    rw [Value.ofLiteral?_of_large hlarge] at hparse
    exact run_of_parse_eq_error hparse budget sink
  · have hparse : Program.parse ("print " ++ digits ++ ";") = .error ⟨.unrecognised digits, 1⟩ := by
      rw [Program.parse, scan_print_of_large hne hdigits hlarge]
    exact run_of_parse_eq_error hparse budget sink

/-- The least and greatest values of the ranges, some of them with zeros in front. -/
theorem literals_have_three_ranges_at_bounds :
    run 0 "print 0002147483647;" {} =
      some (.ok (), { sink := { written := "2147483647\n" } }) ∧
    run 0 "print 2147483648;" {} = some (.error (.parsing ⟨.literalTooLarge, 1⟩), {}) ∧
    run 0 "print 00009223372036854775807;" {} =
      some (.error (.parsing ⟨.literalTooLarge, 1⟩), {}) ∧
    run 0 "print 0009223372036854775808;" {} =
      some (.error (.parsing ⟨.unrecognised "0009223372036854775808", 1⟩), {}) := by
  refine ⟨?_, ?_, ?_, ?_⟩
  · exact ((@literals_have_three_ranges "0002147483647" 2147483647 (by decide)
      (List.all_eq_true.mp rfl) rfl 0 {} rfl).1 (by decide)).2
  · exact (@literals_have_three_ranges "2147483648" 2147483648 (by decide)
      (List.all_eq_true.mp rfl) rfl 0 {} rfl).2.1 (by decide) (by decide)
  · exact (@literals_have_three_ranges "00009223372036854775807" 9223372036854775807 (by decide)
      (List.all_eq_true.mp rfl) rfl 0 {} rfl).2.1 (by decide) (by decide)
  · exact (@literals_have_three_ranges "0009223372036854775808" 9223372036854775808 (by decide)
      (List.all_eq_true.mp rfl) rfl 0 {} rfl).2.2 (by decide)

end Imp32
