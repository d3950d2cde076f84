import Imp32.Proofs.Behaviour

/-!
# Bounded output

An output with little room cuts a run short and changes nothing else. If a program ends when the
output takes everything, it also ends with room for a given number of bytes. If all that it prints
fits, nothing differs. If not, the output holds what fits, to the byte, and the run ends with the
fault of the first print that does not fit (`Program.bounded_output_cuts_run`).

A print writes digits, a minus sign and a line end, each of which is one byte. So counting
characters, as a sink does, is counting bytes.

A place of another kind may refuse a write for other reasons than a lack of room. Up to the first
write that it refuses, it is still like some sink (`Writer.exists_sink_record_eq`).
-/

namespace Imp32

/-! ## Decimal numerals -/

/-- The digits of a number, without a leading zero. -/
structure IsNumeral (n : Nat) (digits : List Char) : Prop where
  /-- There is a digit. -/
  ne_nil : digits ≠ []
  /-- There are digits only. -/
  isDigit {c : Char} (h : c ∈ digits) : c.isDigit
  /-- Only the number zero begins with a zero. -/
  leading (h : digits.head? = some '0') : digits = ['0']
  /-- The digits denote the number. -/
  value : Nat.ofDigitChars 10 digits 0 = n

/-- Only zero is written with a leading zero. -/
theorem leading_toDigits (n : Nat) (h : (Nat.toDigits 10 n).head? = some '0') :
    Nat.toDigits 10 n = ['0'] := by
  induction n using Nat.strongRecOn with
  | _ n ih =>
    by_cases hn : n < 10
    · rw [Nat.toDigits_of_lt_base hn] at h ⊢
      simpa using h
    · have hsnoc := Nat.toDigits_of_base_le (by decide) (Nat.le_of_not_lt hn)
      have hhead : (Nat.toDigits 10 (n / 10)).head? = some '0' := by
        rwa [hsnoc, List.head?_append, Option.or_of_isSome (by simp [Nat.toDigits_ne_nil])] at h
      have hzero : Nat.ofDigitChars 10 (Nat.toDigits 10 (n / 10)) 0 = 0 := by
        rw [ih (n / 10) (by omega) hhead]
        decide
      rw [Nat.ofDigitChars_toDigits (by decide) (by decide)] at hzero
      omega

theorem isNumeral_toDigits (n : Nat) : IsNumeral n (Nat.toDigits 10 n) where
  ne_nil := Nat.toDigits_ne_nil
  isDigit h := Nat.isDigit_of_mem_toDigits (by decide) (by decide) h
  leading := leading_toDigits n
  value := Nat.ofDigitChars_toDigits (by decide) (by decide)

/-- The text is the value in decimal: the digits of its magnitude, after a minus sign exactly if the
value is negative. -/
def Value.IsDecimal (v : Value) (text : String) : Prop :=
  ∃ digits, IsNumeral v.toInt.natAbs digits ∧
    text.toList = if v.toInt < 0 then '-' :: digits else digits

theorem Value.isDecimal_decimal (v : Value) : v.IsDecimal v.decimal := by
  refine ⟨_, isNumeral_toDigits _, ?_⟩
  unfold decimal Int.repr
  cases v.toInt with
  | ofNat n => simp [Nat.repr_eq_ofList_toDigits]
  | negSucc n => simp [Nat.repr_eq_ofList_toDigits]

/-! ## Characters of one byte -/

/-- Every character takes one byte. -/
def IsSingleByte (cs : List Char) : Prop := ∀ c ∈ cs, c.utf8Size = 1

namespace IsSingleByte

variable {cs cs' : List Char}

theorem append (h : IsSingleByte cs) (h' : IsSingleByte cs') : IsSingleByte (cs ++ cs') := by
  intro c hc
  rcases List.mem_append.mp hc with hc | hc
  · exact h c hc
  · exact h' c hc

theorem utf8ByteSize_ofList (h : IsSingleByte cs) :
    (String.ofList cs).utf8ByteSize = cs.length := by
  induction cs with
  | nil => rfl
  | cons c cs ih =>
    have hc : c.utf8Size = 1 := h c List.mem_cons_self
    have hcs := ih fun d hd => h d (List.mem_cons_of_mem c hd)
    have hsplit : String.ofList (c :: cs) = String.singleton c ++ String.ofList cs := by
      rw [String.singleton_eq_ofList, ← String.ofList_append]
      rfl
    rw [hsplit, String.utf8ByteSize_append, String.utf8ByteSize_singleton, hc, hcs,
      List.length_cons, Nat.add_comm]

/-- The first characters are the first bytes. -/
theorem toUTF8_take (h : IsSingleByte cs) {n : Nat} (hn : n ≤ cs.length) :
    (String.ofList (cs.take n)).toUTF8 = (String.ofList cs).toUTF8.extract 0 n := by
  have htake : IsSingleByte (cs.take n) := fun c hc => h c (List.mem_of_mem_take hc)
  have hsize : (cs.take n).utf8Encode.size = n := by
    rw [← String.toByteArray_ofList, String.size_toByteArray, htake.utf8ByteSize_ofList,
      List.length_take, Nat.min_eq_left hn]
  have hsplit : cs.utf8Encode = (cs.take n).utf8Encode ++ (cs.drop n).utf8Encode := by
    rw [← List.utf8Encode_append, List.take_append_drop]
  show (String.ofList (cs.take n)).toByteArray = (String.ofList cs).toByteArray.extract 0 n
  rw [String.toByteArray_ofList, String.toByteArray_ofList, hsplit,
    ByteArray.extract_append_eq_left hsize.symm]

end IsSingleByte

theorem utf8Size_of_isDigit {c : Char} (h : c.isDigit) : c.utf8Size = 1 := by
  obtain ⟨-, hnine⟩ := Char.isDigit_iff_toNat.mp h
  have hle : c.toNat ≤ 127 := Nat.le_trans hnine (by decide)
  exact Char.utf8Size_eq_one_iff.mpr hle

theorem Value.IsDecimal.isSingleByte {v : Value} {text : String} (h : v.IsDecimal text) :
    IsSingleByte text.toList := by
  obtain ⟨digits, hdigits, htext⟩ := h
  intro c hc
  rw [htext] at hc
  split at hc
  · rcases List.mem_cons.mp hc with rfl | hc
    · rfl
    · exact utf8Size_of_isDigit (hdigits.isDigit hc)
  · exact utf8Size_of_isDigit (hdigits.isDigit hc)

/-! ## The text of prints -/

namespace Print

/-- What is written for prints one after another. -/
def textAll (prints : List Print) : String := String.join (prints.map text)

theorem textAll_cons (print : Print) (prints : List Print) :
    textAll (print :: prints) = print.text ++ textAll prints :=
  String.join_cons

theorem isSingleByte_text (print : Print) : IsSingleByte print.text.toList := by
  rw [text, String.toList_append]
  have hend : IsSingleByte "\n".toList := by
    intro c hc
    rw [List.mem_singleton.mp hc]
    rfl
  exact print.value.isDecimal_decimal.isSingleByte.append hend

/-- All that is ever printed consists of characters of one byte. -/
theorem isSingleByte_textAll (prints : List Print) : IsSingleByte (textAll prints).toList := by
  induction prints with
  | nil => intro c hc; cases hc
  | cons print prints ih =>
    rw [textAll_cons, String.toList_append]
    exact print.isSingleByte_text.append ih

theorem utf8ByteSize_textAll (prints : List Print) :
    (textAll prints).utf8ByteSize = (textAll prints).length := by
  have hsize := (isSingleByte_textAll prints).utf8ByteSize_ofList
  rwa [String.ofList_toList, String.length_toList] at hsize

/-- The first of the prints at which more than `n` bytes are written. -/
def IsFirstOver (n : Nat) (prints : List Print) (print : Print) : Prop :=
  ∃ before after, prints = before ++ print :: after ∧
    (textAll before).utf8ByteSize ≤ n ∧ n < (textAll (before ++ [print])).utf8ByteSize

theorem isFirstOver_cons_self {n : Nat} {print : Print} (h : n < print.text.length)
    (prints : List Print) : IsFirstOver n (print :: prints) print := by
  refine ⟨[], prints, rfl, Nat.zero_le n, ?_⟩
  rw [utf8ByteSize_textAll, List.nil_append, textAll_cons, String.length_append]
  omega

/-- A print that fits leaves less room to those after it. -/
theorem IsFirstOver.cons {n : Nat} {print last : Print} {prints : List Print}
    (h : IsFirstOver (n - print.text.length) prints last) (hfit : print.text.length ≤ n) :
    IsFirstOver n (print :: prints) last := by
  obtain ⟨before, after, rfl, hbefore, hlast⟩ := h
  rw [utf8ByteSize_textAll] at hbefore hlast
  refine ⟨print :: before, after, rfl, ?_, ?_⟩
  · rw [utf8ByteSize_textAll, textAll_cons, String.length_append]
    omega
  · rw [utf8ByteSize_textAll, List.cons_append, textAll_cons, String.length_append]
    omega

end Print

/-! ## Recording in a sink -/

namespace Sink

open Print

variable {sink : Sink} {n : Nat}

theorem record_unlimited (hroom : sink.room = none) (prints : List Print) :
    sink.record prints = (.ok (), { sink with written := sink.written ++ textAll prints }) := by
  induction prints generalizing sink with
  | nil => simp [record, textAll]
  | cons print prints ih =>
    simp only [record, write_of_unlimited hroom]
    have hrest := @ih { sink with written := sink.written ++ print.text } hroom
    rw [hrest, textAll_cons, String.append_assoc]

/-- If the texts fit altogether, all of them are written. -/
theorem record_of_fits {prints : List Print} (hroom : sink.room = some n)
    (hfit : (textAll prints).length ≤ n) :
    ∃ sink', sink.record prints = (.ok (), sink') ∧
      sink'.written = sink.written ++ textAll prints := by
  induction prints generalizing sink n with
  | nil => exact ⟨sink, rfl, by simp [textAll]⟩
  | cons print prints ih =>
    rw [textAll_cons, String.length_append] at hfit
    have hrest : (textAll prints).length ≤ n - print.text.length := by omega
    rw [record, write_of_fits hroom (by omega)]
    obtain ⟨sink', hrecord, hwritten⟩ := @ih { sink with
      written := sink.written ++ print.text, room := some (n - print.text.length) } _ rfl hrest
    exact ⟨sink', hrecord, by rw [hwritten, textAll_cons, String.append_assoc]⟩

/-- If they do not, the sink is filled up, and the first text that does not fit is refused. -/
theorem record_of_over {prints : List Print} (hroom : sink.room = some n)
    (hover : n < (textAll prints).length) :
    ∃ print sink', IsFirstOver n prints print ∧
      sink.record prints = (.error (.raised (.output sink.refusal.reason) print.line), sink') ∧
      sink'.written = sink.written ++ String.ofList ((textAll prints).toList.take n) := by
  induction prints generalizing sink n with
  | nil => exact absurd hover (Nat.not_lt_zero n)
  | cons print prints ih =>
    rw [textAll_cons, String.length_append] at hover
    rw [record, textAll_cons, String.toList_append]
    by_cases hfit : print.text.length ≤ n
    · have hrest : n - print.text.length < (textAll prints).length := by omega
      rw [write_of_fits hroom hfit]
      obtain ⟨last, sink', hfirst, hrecord, hwritten⟩ := @ih { sink with
        written := sink.written ++ print.text, room := some (n - print.text.length) } _ rfl hrest
      have htake : print.text.toList.take n = print.text.toList :=
        List.take_of_length_le (by rw [String.length_toList]; exact hfit)
      refine ⟨last, sink', hfirst.cons hfit, hrecord, ?_⟩
      rw [hwritten, List.take_append, htake, String.length_toList, String.ofList_append,
        String.ofList_toList, String.append_assoc]
    · have hlt : n < print.text.length := Nat.lt_of_not_le hfit
      rw [write_of_over hroom hlt]
      refine ⟨print, _, isFirstOver_cons_self hlt prints, rfl, ?_⟩
      -- The texts after this one are not reached by the first `n` characters.
      rw [List.take_append_of_le_length (by rw [String.length_toList]; omega)]

end Sink

/-! ## Writing to any place -/

/-- A place that takes writes in a way of its own. From a state, a write leads to the next one; or
only a part of the text is taken, and the rest is refused. A place that is given a text in pieces,
and refuses one of them, is of this kind too. -/
abbrev Writer (σ : Type) := σ → (text : String) → Except (Fin text.length × Sink.Refusal) σ

namespace Writer

variable {σ : Type}

/-- Writes the texts of prints one after another, up to the first one that is refused: the result,
and what has been taken. -/
def record (writer : Writer σ) (state : σ) : List Print → Except Fault Unit × String
  | [] => (.ok (), "")
  | print :: prints =>
    match writer state print.text with
    | .ok state =>
      let (result, taken) := record writer state prints
      (result, print.text ++ taken)
    | .error (n, refusal) =>
      (.error (.raised (.output refusal.reason) print.line),
        String.ofList (print.text.toList.take n))

/-- Whatever the place, there is a sink that takes the same and gives the same result. -/
theorem exists_sink_record_eq (writer : Writer σ) (state : σ) (prints : List Print) :
    ∃ room refusal, ∀ written, ∃ sink' : Sink,
      ({ written, room, refusal } : Sink).record prints = ((writer.record state prints).1, sink') ∧
        sink'.written = written ++ (writer.record state prints).2 := by
  induction prints generalizing state with
  | nil => exact ⟨none, .stall, fun written => ⟨_, rfl, by simp [record]⟩⟩
  | cons print prints ih =>
    cases hwrite : writer state print.text with
    | ok next =>
      obtain ⟨room, refusal, hsink⟩ := ih next
      refine ⟨room.map (· + print.text.length), refusal, fun written => ?_⟩
      obtain ⟨sink', hrecord, hwritten⟩ := hsink (written ++ print.text)
      have hfits : ({ written, room := room.map (· + print.text.length), refusal } : Sink).write
          print.text = (.ok (), { written := written ++ print.text, room, refusal }) := by
        cases room with
        | none => exact Sink.write_of_unlimited rfl _
        | some n =>
          rw [Sink.write_of_fits rfl (Nat.le_add_left _ n), Nat.add_sub_cancel]
      refine ⟨sink', ?_, ?_⟩
      · rw [Sink.record, hfits, record, hwrite]
        exact hrecord
      · rw [record, hwrite, hwritten, String.append_assoc]
    | error answer =>
      obtain ⟨n, refusal⟩ := answer
      refine ⟨some n, refusal, fun written => ?_⟩
      rw [Sink.record, Sink.write_of_over rfl n.isLt, record, hwrite]
      exact ⟨_, rfl, rfl⟩

end Writer

/-! ## Programs -/

namespace Program

open Print

/-- A run whose output takes everything carries out some prints. With any other output, the program
goes as they tell. -/
theorem exists_goes {p : Program} {env : Env} {r : Except Fault Unit} {m' : Machine}
    (h : p.Ends { env } r m') :
    ∃ prints, p.behaviour env prints r m'.env ∧ m'.sink.written = textAll prints ∧
      ∃ budget, Exec.Goes (p.exec budget) env prints r m'.env := by
  obtain ⟨b, hb⟩ := h
  obtain ⟨-, prints, htold⟩ := p.realises.told hb rfl
  obtain ⟨c, hgoes⟩ := p.realises.goes htold
  have hrecord : ({} : Sink).record prints = (.ok (), { written := "" ++ textAll prints }) :=
    Sink.record_unlimited rfl prints
  have hc := hgoes.whole hrecord
  have hb' := exec_budget_mono (Nat.le_max_left b c) hb
  have hc' := exec_budget_mono (Nat.le_max_right b c) hc
  have hsame := Option.some.inj (hb'.symm.trans hc')
  have hsink : m'.sink = { written := "" ++ textAll prints } := congrArg (fun e => e.2.sink) hsame
  exact ⟨prints, htold, by rw [hsink, String.empty_append], c, hgoes⟩

/-- Suppose that a program ends when the output takes everything. What it writes is then the
concatenation of the texts of its prints, each a value in decimal and a line end. With room for `n`
bytes, it ends too. If the whole output fits, it is written and the program ends as before. If not,
the first `n` bytes are written, and the program ends with the fault of the first print whose text
does not fit. -/
theorem bounded_output_cuts_run {p : Program} {env : Env} {r : Except Fault Unit} {m' : Machine}
    (h : p.Ends { env } r m') (n : Nat) (refusal : Sink.Refusal) :
    let output := m'.sink.written
    let bounded : Machine := { env, sink := { room := some n, refusal } }
    ∃ prints, p.behaviour env prints r m'.env ∧ output = textAll prints ∧
      (∀ print ∈ prints, ∃ text, print.value.IsDecimal text ∧ print.text = text ++ "\n") ∧
      (output.utf8ByteSize ≤ n →
        ∃ sink', p.Ends bounded r { env := m'.env, sink := sink' } ∧ sink'.written = output) ∧
      (n < output.utf8ByteSize →
        ∃ print k, IsFirstOver n prints print ∧
          p.Ends bounded (.error (.raised (.output refusal.reason) print.line)) k ∧
          k.sink.written.toUTF8 = output.toUTF8.extract 0 n) := by
  intro output bounded
  obtain ⟨prints, htold, houtput, budget, hgoes⟩ := exists_goes h
  have hsize : output.utf8ByteSize = (textAll prints).length := by
    rw [← utf8ByteSize_textAll, ← houtput]
  have hroom : bounded.sink.room = some n := rfl
  refine ⟨prints, htold, houtput, ?_, ?_, ?_⟩
  · intro print _
    exact ⟨print.value.decimal, print.value.isDecimal_decimal, rfl⟩
  · intro hfit
    obtain ⟨sink', hrecord, hwritten⟩ := Sink.record_of_fits hroom (hsize ▸ hfit)
    refine ⟨sink', ⟨budget, hgoes.whole hrecord⟩, ?_⟩
    rw [hwritten, show output = textAll prints from houtput]
    exact String.empty_append
  · intro hover
    rw [hsize] at hover
    obtain ⟨print, sink', hfirst, hrecord, hwritten⟩ := Sink.record_of_over hroom hover
    obtain ⟨k, hk⟩ := hgoes.cut hrecord
    refine ⟨print, { env := k, sink := sink' }, hfirst, ⟨budget, hk⟩, ?_⟩
    have hfitting : sink'.written = String.ofList ((textAll prints).toList.take n) :=
      hwritten.trans String.empty_append
    have hbytes := (isSingleByte_textAll prints).toUTF8_take (n := n)
      (by rw [String.length_toList]; omega)
    rw [hfitting, hbytes, String.ofList_toList, show output = textAll prints from houtput]

theorem bounded_output_cuts_run_in_loop :
    let i : Expr := .var "i" 3
    let round : Stmt := .block [.print (.binary i (.arith .sub) (.num 12 3) 3) 3] 2
    let p : Program := [.print (.num 7 1) 1, .exprs [.binary (.var "i" 2) .assign (.num 0 2) 2] 2,
      .doWhile round (.binary (.unary .increment i 3) (.compare .lt) (.num 2 4) 4) 2]
    ∃ m', p.Ends {} (.ok ()) m' ∧ m'.sink.written = "7\n-12\n-11\n" ∧
      ∃ prints print k, p.behaviour {} prints (.ok ()) m'.env ∧ IsFirstOver 7 prints print ∧
        p.Ends { sink := { room := some 7 } }
          (.error (.raised (.output "sink full") print.line)) k ∧
        k.sink.written.toUTF8 = "7\n-12\n-".toUTF8 := by
  intro i round p
  obtain ⟨m', hends, hwritten⟩ : ∃ m', p.Ends {} (.ok ()) m' ∧
      m'.sink.written = "7\n-12\n-11\n" := ⟨_, ⟨2, rfl⟩, by decide⟩
  obtain ⟨prints, htold, -, -, -, hcut⟩ := bounded_output_cuts_run hends 7 .error
  obtain ⟨print, k, hfirst, hk, hbytes⟩ := hcut (by rw [hwritten]; decide)
  refine ⟨m', hends, hwritten, prints, print, k, htold, hfirst, hk, ?_⟩
  rw [hbytes, hwritten]
  decide

end Program

end Imp32
