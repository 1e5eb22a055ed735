import InfixSearch.Library.Bits
import InfixSearch.Library.Pool

/-!
# Units of a dawg

A dawg - a graph of words in which words that end alike share their ends - is kept as two pools
of transitions, their base values and their labels. The transitions that leave a state follow
one another. A base value holds where a transition goes, or the value of the word that ends
there, above two flags or one: whether a sibling follows, and whether a state begins here.

An index into a pool is a natural number; where an index is packed into a base value or hashed
it is cut off to the 32 bits of a `BaseType`.
-/

namespace InfixSearch.Dawgdic

open Library

/-- `BaseType`, where its 32 bits matter. -/
abbrev BaseType := BitVec 32

/-- `BaseUnit`. -/
structure BaseUnit where
  /-- `base_`. -/
  base : BaseType
  deriving DecidableEq

namespace BaseUnit

/-- The constructor. -/
def construct : BaseUnit := ⟨0⟩

/-- `child`. -/
def child (u : BaseUnit) : ℕ := (u.base >>> 2).toNat

/-- `has_sibling`. -/
def hasSibling (u : BaseUnit) : Bool := if u.base &&& 1 ≠ 0 then true else false

/-- `value`. -/
def value (u : BaseUnit) : ℤ := (u.base >>> 1).toInt

/-- `is_state`. -/
def isState (u : BaseUnit) : Bool := if u.base &&& 2 ≠ 0 then true else false

end BaseUnit

/-- `DawgUnit`. -/
structure DawgUnit where
  /-- `child_`: the index of a unit or of a transition, or a value. -/
  child : ℕ
  /-- `sibling_`. -/
  sibling : ℕ
  /-- `label_`. -/
  label : UInt8
  /-- `is_state_`. -/
  isState : Bool
  /-- `has_sibling_`. -/
  hasSibling : Bool
  deriving DecidableEq

namespace DawgUnit

/-- The constructor, and `Clear`. -/
def construct : DawgUnit := ⟨0, 0, 0, false, false⟩

/-- `set_value`: a value is kept in the place of the child. -/
def setValue (u : DawgUnit) (value : ℤ) : DawgUnit := { u with child := (value % 2 ^ 32).toNat }

/-- `base`. -/
def base (u : DawgUnit) : BaseType :=
  if u.label = 0 then BitVec.ofNat 32 u.child <<< 1 ||| (if u.hasSibling then 1 else 0)
  else BitVec.ofNat 32 u.child <<< 2 ||| (if u.isState then 2 else 0) ||| (if u.hasSibling then 1 else 0)

end DawgUnit

/-- `Hash`, the same in `DawgBuilder` and in `LinkTable`. -/
def hash (key : BaseType) : BaseType :=
  let key := ~~~key + (key <<< 15)
  let key := key ^^^ (key >>> 12)
  let key := key + (key <<< 2)
  let key := key ^^^ (key >>> 4)
  let key := key * 2057
  key ^^^ (key >>> 16)

/-- The hash of a transition: of its label above its base value. -/
def hashOf (base : BaseType) (label : UInt8) : BaseType := hash ((BitVec.ofNat 32 label.toNat <<< 24) ^^^ base)

end InfixSearch.Dawgdic
