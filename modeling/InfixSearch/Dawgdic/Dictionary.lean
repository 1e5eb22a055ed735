import InfixSearch.Dawgdic.DictionaryUnit

/-!
# A dictionary

A dictionary is an array of units. A label is followed from a unit to the one whose index
differs from its own in the offset and the label, if that unit has the label. A string is the
list of its characters, without the `'\0'` at its end if it has one. An access outside the array
is a fault.
-/

namespace InfixSearch.Dawgdic

open Library

/-- `Dictionary`. -/
structure Dictionary where
  /-- `units_`. -/
  units : List DictionaryUnit
  deriving DecidableEq

namespace Dictionary

variable (dic : Dictionary)

/-- `size`. -/
def size : ℕ := dic.units.length

/-- `root`. -/
def root (_ : Dictionary) : ℕ := 0

/-- `has_value`. -/
def hasValue (index : ℕ) : Except Fault Bool := DictionaryUnit.hasLeaf <$> Pool.get dic.units index

/-- `value`. -/
def value (index : ℕ) : Except Fault ℤ := do
  let unit ← Pool.get dic.units index
  DictionaryUnit.value <$> Pool.get dic.units (index ^^^ unit.offset)

/-- `Follow` of a label: the next index, if there is one. -/
def follow (label : UInt8) (index : ℕ) : Except Fault (Option ℕ) := do
  let unit ← Pool.get dic.units index
  let nextIndex := index ^^^ unit.offset ^^^ label.toNat
  let next ← Pool.get dic.units nextIndex
  pure (if next.label ≠ BitVec.ofNat 32 label.toNat then none else some nextIndex)

/-- `Follow` of a string: whether all of it is followed, the last index, and `count`. -/
def follows (s : List UInt8) (index : ℕ) : Except Fault (Bool × ℕ × ℕ) :=
  match s with
  | [] => pure (true, index, 0)
  | c :: s => do
    match ← dic.follow c index with
    | none => pure (false, index, 0)
    | some next =>
      let (all, last, count) ← follows s next
      pure (all, last, count + 1)

/-- What holds at an index, and is kept when a label is followed, holds where a string ends. -/
theorem follows_induction {dic : Dictionary} {P : ℕ → Prop} (hstep : ∀ i j c, P i → dic.follow c i = .ok (some j) → P j)
    {s : List UInt8} {i last count : ℕ} {all : Bool} (h : dic.follows s i = .ok (all, last, count)) (hi : P i) : P last := by
  induction s generalizing i count with
  | nil =>
    rw [follows] at h
    cases h
    exact hi
  | cons c s ih =>
    rw [follows] at h
    cases hfollow : dic.follow c i with
    | error fault => rw [hfollow] at h; exact nomatch h
    | ok r =>
      rw [hfollow, ok_bind] at h
      cases r with
      | none =>
        cases h
        exact hi
      | some j =>
        dsimp only at h
        cases hrest : dic.follows s j with
        | error fault => rw [hrest] at h; exact nomatch h
        | ok r =>
          obtain ⟨all', last', count'⟩ := r
          rw [hrest, ok_bind] at h
          cases h
          exact ih hrest (hstep i j c hi hfollow)

/-- `Contains`. -/
def contains (key : List UInt8) : Except Fault Bool := do
  let (all, index, _) ← dic.follows key dic.root
  if all then dic.hasValue index else pure false

/-- `Find`: the value, or -1. -/
def find (key : List UInt8) : Except Fault ℤ := do
  let (all, index, _) ← dic.follows key dic.root
  if all then do
    if ← dic.hasValue index then dic.value index else pure (-1)
  else pure (-1)

/-- `Find` that returns whether the key is there, and sets `*value` if it is. -/
def findValue (key : List UInt8) : Except Fault (Option ℤ) := do
  let (all, index, _) ← dic.follows key dic.root
  if all then do
    if ← dic.hasValue index then some <$> dic.value index else pure none
  else pure none

end Dictionary

end InfixSearch.Dawgdic
