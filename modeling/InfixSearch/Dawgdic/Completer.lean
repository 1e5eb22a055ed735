import InfixSearch.Dawgdic.Guide

/-!
# A completer

A completer lists the keys that go on from an index of a dictionary. It keeps the key it is at
and the indices on the way to it; a guide tells it the first child and the next sibling of each.
-/

namespace InfixSearch.Dawgdic

open Library

/-- `Completer`, without the dictionary and the guide. -/
structure Completer where
  /-- `key_`, with the `'\0'` at its end. -/
  key : List UInt8
  /-- `index_stack_`, the last one first. -/
  indexStack : List ℕ
  /-- `last_index_`. -/
  lastIndex : ℕ
  deriving DecidableEq

namespace Completer

/-- The constructor. -/
def construct : Completer := ⟨[], [], 0⟩

variable (dic : Dictionary) (guide : Guide) (s : Completer)

/-- The characters of `key()`. -/
def keyChars : List UInt8 := s.key.dropLast

/-- `length`. -/
def length : ℕ := s.key.length - 1

/-- `value`. -/
def value : Except Fault ℤ := dic.value s.lastIndex

/-- `Start`. -/
def start (index : ℕ) (pre : List UInt8) : Completer :=
  if guide.size ≠ 0 then ⟨pre ++ [0], [index], dic.root⟩ else { s with key := pre ++ [0], indexStack := [] }

/-- `key_.back() = label; key_.push_back('\0'); index_stack_.push_back(index)`. -/
def push (label : UInt8) (index : ℕ) : Except Fault Completer :=
  if s.key = [] then .error .outOfBounds
  else pure { s with key := s.key.dropLast ++ [label, 0], indexStack := index :: s.indexStack }

/-- `Follow`: the next index, if there is one. -/
def follow (label : UInt8) (index : ℕ) : Except Fault (Option (ℕ × Completer)) := do
  match ← dic.follow label index with
  | none => pure none
  | some next => do pure (some (next, ← s.push label next))

/-- `FindTerminal`: whether there is one. -/
def findTerminal : ℕ → Completer → ℕ → Except Fault (Bool × Completer)
  | 0, _, _ => .error .diverges
  | fuel + 1, s, index => do
    if ← dic.hasValue index then pure (true, { s with lastIndex := index })
    else do
      let label ← guide.child index
      match ← s.follow dic label index with
      | none => pure (false, s)
      | some (next, s) => findTerminal fuel s next

/-- The key without its last character. -/
def popKey : List UInt8 :=
  if s.key.length > 1 then s.key.dropLast.dropLast ++ [0] else s.key

/-- The loop of `Next` that moves back to an index with a sibling: the index after it, if there is one. -/
def back : Completer → ℕ → List ℕ → Except Fault (Option ℕ × Completer)
  | s, index, stack => do
    let siblingLabel ← guide.sibling index
    match stack with
    | [] => pure (none, { s with key := s.popKey, indexStack := [] })
    | index :: stack =>
      let s := { s with key := s.popKey, indexStack := index :: stack }
      if siblingLabel ≠ 0 then do
        match ← s.follow dic siblingLabel index with
        | none => pure (none, s)
        | some (next, s) => pure (some next, s)
      else back s index stack

/-- The index at which `Next` looks for a terminal, if there is one. -/
def advance (index : ℕ) (stack : List ℕ) : Except Fault (Option ℕ × Completer) :=
  if s.lastIndex = dic.root then pure (some index, s)
  else do
    let childLabel ← guide.child index
    if childLabel ≠ 0 then do
      match ← s.follow dic childLabel index with
      | none => pure (none, s)
      | some (next, s) => pure (some next, s)
    else back dic guide s index stack

/-- `Next`. -/
def next : Except Fault (Bool × Completer) :=
  match s.indexStack with
  | [] => pure (false, s)
  | index :: stack => do
    match ← s.advance dic guide index stack with
    | (none, s) => pure (false, s)
    | (some index, s) => findTerminal dic guide (dic.size + 1) s index

end Completer

end InfixSearch.Dawgdic
