import Imp32.Value
import Std.Data.ExtTreeMap

/-!
# Environments

The variables of a running program: a stack of frames, one for each open scope. There is always an
innermost frame, so leaving a scope is the one operation that can fail.

A name is looked up from the innermost frame outwards. Assigning to a name that some frame binds
changes it there; otherwise the innermost frame declares it. So no frame ever hides a binding of
another, and a variable lives as long as the scope in which it was first assigned.

Frames are compared by their bindings alone.
-/

namespace Imp32

/-- The variables that one scope declares, with their values. -/
abbrev Frame := Std.ExtTreeMap String Value

/-- The variables of a running program. -/
structure Env where
  /-- The frame of the innermost scope. -/
  inner : Frame := ∅
  /-- The frames of the scopes around it, innermost first. -/
  outer : List Frame := []
deriving DecidableEq

namespace Env

/-- All frames, innermost first. -/
def frames (env : Env) : List Frame := env.inner :: env.outer

/-- The number of frames. -/
def depth (env : Env) : Nat := env.outer.length + 1

/-- The value of a variable. -/
def get? (env : Env) (name : String) : Option Value :=
  env.frames.findSome? fun frame => frame[name]?

/-- The value of a variable, for a use on the given line. -/
def lookup (env : Env) (name : String) (line : Nat) : Except Fault Value :=
  match env.get? name with
  | some value => .ok value
  | none => .error (.raised (.undefinedVariable name) line)

/-- Changes the value of a name in the first of some frames that binds it. -/
def rebind (name : String) (value : Value) : List Frame → List Frame
  | [] => []
  | frame :: frames =>
    if name ∈ frame then frame.insert name value :: frames
    else frame :: rebind name value frames

/-- Gives a variable a value, in the frame that binds it or else in the innermost one. -/
def assign (env : Env) (name : String) (value : Value) : Env :=
  if name ∉ env.inner ∧ ∃ frame ∈ env.outer, name ∈ frame then
    { env with outer := rebind name value env.outer }
  else { env with inner := env.inner.insert name value }

/-- Searching frames after one that binds `x` was changed. -/
theorem findSome?_rebind (x y : String) (v : Value) (fs : List Frame)
    (h : ∃ frame ∈ fs, x ∈ frame) :
    (rebind x v fs).findSome? (fun frame => frame[y]?) =
      if x = y then some v else fs.findSome? fun frame => frame[y]? := by
  induction fs with
  | nil => simp at h
  | cons f fs ih =>
    rw [rebind]
    split
    · by_cases hxy : x = y <;>
        simp [List.findSome?_cons, Std.ExtTreeMap.getElem?_insert, hxy]
    · rename_i hf
      have h' : ∃ frame ∈ fs, x ∈ frame := by simpa [hf] using h
      rw [List.findSome?_cons, ih h', List.findSome?_cons]
      by_cases hxy : x = y
      · subst hxy
        simp [Std.ExtTreeMap.getElem?_eq_none hf]
      · simp [hxy]

/-- An assignment changes the value of its variable and of no other. -/
theorem get?_assign (env : Env) (x y : String) (v : Value) :
    (env.assign x v).get? y = if x = y then some v else env.get? y := by
  unfold assign
  split
  · rename_i h
    simp only [get?, frames, List.findSome?_cons, findSome?_rebind x y v _ h.2]
    by_cases hxy : x = y
    · subst hxy
      simp [Std.ExtTreeMap.getElem?_eq_none h.1]
    · simp [hxy]
  · by_cases hxy : x = y <;>
      simp [get?, frames, List.findSome?_cons, Std.ExtTreeMap.getElem?_insert, hxy]

/-- Changing a binding opens and closes no frame. -/
theorem length_rebind (x : String) (v : Value) (fs : List Frame) :
    (rebind x v fs).length = fs.length := by
  induction fs with
  | nil => rfl
  | cons f fs ih =>
    rw [rebind]
    split
    · rfl
    · rw [List.length_cons, ih, List.length_cons]

/-- An assignment opens and closes no scope. -/
theorem depth_assign (env : Env) (x : String) (v : Value) :
    (env.assign x v).depth = env.depth := by
  unfold assign
  split
  · simp only [depth, length_rebind]
  · rfl

/-- Enters a scope. -/
def push (env : Env) : Env := { inner := ∅, outer := env.frames }

/-- Leaves the innermost scope, which must not be the only one. -/
def pop (env : Env) : Except Fault Env :=
  match env.outer with
  | [] => .error .scopeUnderflow
  | frame :: frames => .ok { inner := frame, outer := frames }

/-- A new scope declares nothing, so every variable has the value it had. -/
theorem get?_push (env : Env) (x : String) : env.push.get? x = env.get? x := by
  simp [push, get?, frames, List.findSome?_cons]

/-- A scope that was just entered can be left, and nothing has changed. -/
theorem pop_push (env : Env) : env.push.pop = .ok env := rfl

end Env

end Imp32
