/-!
# Output

Where a program writes. A sink has room for a number of bytes, or for any number. It takes as much
of a text as fits; if that is not all of it, the write fails. Programs write decimal digits, minus
signs and line ends only, so characters are counted for bytes.

A run ends with the first write that fails. So all that it can tell of a place to write to is how
much that place takes before it first refuses, and the reason it gives then. Both are free in a
sink, and nothing is lost by writing to sinks only (`Writer.exists_sink_record_eq`).
-/

namespace Imp32

/-- How a sink without room answers a write. -/
inductive Sink.Refusal where
  /-- It reports an error, for a reason of its own. -/
  | failure (reason : String)
  /-- It takes nothing, again and again. -/
  | stall
deriving DecidableEq, Repr

namespace Sink.Refusal

/-- The error of a sink that is full. -/
def error : Refusal := .failure "sink full"

/-- The reason given for a write that failed. -/
def reason : Refusal → String
  | .failure reason => reason
  | .stall => "failed to write whole buffer"

end Sink.Refusal

/-- A place that output is written to. -/
structure Sink where
  /-- What has been written so far. -/
  written : String := ""
  /-- The number of bytes for which there is room, unless there is room for any number. -/
  room : Option Nat := none
  /-- How the sink answers a write for which it has no room. -/
  refusal : Sink.Refusal := .error
deriving DecidableEq, Repr

namespace Sink

/-- Writes a text, or as much of it as fits. -/
def write (sink : Sink) (text : String) : Except Refusal Unit × Sink :=
  match sink.room with
  | none => (.ok (), { sink with written := sink.written ++ text })
  | some room =>
    if text.length ≤ room then
      (.ok (), { sink with written := sink.written ++ text, room := some (room - text.length) })
    else
      let fitting := String.ofList (text.toList.take room)
      (.error sink.refusal, { sink with written := sink.written ++ fitting, room := some 0 })

/-- Writes a text and then a line end. -/
def writeLine (sink : Sink) (text : String) : Except Refusal Unit × Sink :=
  match sink.write text with
  | (.ok (), sink) => sink.write "\n"
  | (.error refusal, sink) => (.error refusal, sink)

section Write

variable {sink : Sink} {text : String} {n : Nat}

theorem write_of_unlimited (hroom : sink.room = none) (text : String) :
    sink.write text = (.ok (), { sink with written := sink.written ++ text }) := by
  rw [write, hroom]

theorem write_of_fits (hroom : sink.room = some n) (hfit : text.length ≤ n) :
    sink.write text =
      (.ok (), { sink with written := sink.written ++ text, room := some (n - text.length) }) := by
  rw [write, hroom]
  exact if_pos hfit

theorem write_of_over (hroom : sink.room = some n) (hover : n < text.length) :
    sink.write text = (.error sink.refusal, { sink with
      written := sink.written ++ String.ofList (text.toList.take n), room := some 0 }) := by
  rw [write, hroom]
  exact if_neg (Nat.not_le.mpr hover)

/-- What is written is what was written before and as much of the text as fits. -/
theorem written_write (sink : Sink) (text : String) :
    (sink.write text).2.written =
      sink.written ++ String.ofList (text.toList.take (sink.room.getD text.length)) := by
  have whole {n : Nat} (h : text.length ≤ n) : text.toList.take n = text.toList :=
    List.take_of_length_le (by rw [String.length_toList]; exact h)
  cases hroom : sink.room with
  | none => simp [write_of_unlimited hroom, whole]
  | some n =>
    by_cases hfit : text.length ≤ n
    · simp [write_of_fits hroom hfit, whole hfit]
    · simp [write_of_over hroom (Nat.not_le.mp hfit)]

/-- A text is written piece by piece as it is written at once. -/
theorem write_append (sink : Sink) (text text' : String) :
    sink.write (text ++ text') =
      match sink.write text with
      | (.ok (), sink) => sink.write text'
      | (.error refusal, sink) => (.error refusal, sink) := by
  cases hroom : sink.room with
  | none =>
    let after : Sink := { sink with written := sink.written ++ text }
    rw [write_of_unlimited hroom, write_of_unlimited hroom, ← String.append_assoc]
    exact (write_of_unlimited (show after.room = none from hroom) text').symm
  | some n =>
    by_cases hfit : text.length ≤ n
    · let after : Sink :=
        { sink with written := sink.written ++ text, room := some (n - text.length) }
      have hroom' : after.room = some (n - text.length) := rfl
      rw [write_of_fits hroom hfit]
      by_cases hfit' : text'.length ≤ n - text.length
      · rw [write_of_fits hroom (by rw [String.length_append]; omega), ← String.append_assoc,
          String.length_append, ← Nat.sub_sub]
        exact (write_of_fits hroom' hfit').symm
      · have htake : text.toList.take n = text.toList :=
          List.take_of_length_le (by rw [String.length_toList]; exact hfit)
        rw [write_of_over hroom (by rw [String.length_append]; omega), String.toList_append,
          List.take_append, htake, String.length_toList, String.ofList_append,
          String.ofList_toList, ← String.append_assoc]
        exact (write_of_over hroom' (Nat.not_le.mp hfit')).symm
    · -- The second text is not reached.
      have hover : n < text.length := Nat.not_le.mp hfit
      rw [write_of_over hroom hover, write_of_over hroom (by rw [String.length_append]; omega),
        String.toList_append, List.take_append_of_le_length (by rw [String.length_toList]; omega)]

theorem writeLine_eq (sink : Sink) (text : String) :
    sink.writeLine text = sink.write (text ++ "\n") := by
  rw [write_append, writeLine]

end Write

end Sink

end Imp32
