import InfixSearch.Dawgdic.DawgBuilder
import InfixSearch.Dawgdic.Dictionary

/-!
# A guide

A guide has a unit for each unit of a dictionary, with the first label that leads on from there
and the label of the next sibling. `GuideBuilder` goes over the dawg and the dictionary at the
same time, and marks the units it has been at.
-/

namespace InfixSearch.Dawgdic

open Library

/-- `GuideUnit`. -/
structure GuideUnit where
  /-- `child_`. -/
  child : UInt8
  /-- `sibling_`. -/
  sibling : UInt8
  deriving DecidableEq

namespace GuideUnit

/-- The constructor. -/
def construct : GuideUnit := ⟨0, 0⟩

variable (u : GuideUnit)

/-- `set_child`. -/
def setChild (child : UInt8) : GuideUnit := { u with child := child }

/-- `set_sibling`. -/
def setSibling (sibling : UInt8) : GuideUnit := { u with sibling := sibling }

end GuideUnit

/-- `Guide`. -/
structure Guide where
  /-- `units_`. -/
  units : List GuideUnit
  deriving DecidableEq

namespace Guide

variable (guide : Guide)

/-- The constructor. -/
def construct : Guide := ⟨[]⟩

/-- `size`. -/
def size : ℕ := guide.units.length

/-- `child`. -/
def child (index : ℕ) : Except Fault UInt8 := GuideUnit.child <$> Pool.get guide.units index

/-- `sibling`. -/
def sibling (index : ℕ) : Except Fault UInt8 := GuideUnit.sibling <$> Pool.get guide.units index

end Guide

/-- `GuideBuilder`, without the dawg, the dictionary and the guide. -/
structure GuideBuilder where
  /-- `units_`. -/
  units : List GuideUnit
  /-- `is_fixed_table_`. -/
  isFixedTable : List UInt8

namespace GuideBuilder

variable (s : GuideBuilder)

/-- `is_fixed`. -/
def isFixed (index : ℕ) : Except Fault Bool := do
  pure (((← Pool.get s.isFixedTable (index / 8)) &&& ((1 : UInt8) <<< UInt8.ofNat (index % 8))) != 0)

/-- `set_is_fixed`. -/
def setIsFixed (index : ℕ) : Except Fault GuideBuilder := do
  pure { s with isFixedTable := ← Pool.modify s.isFixedTable (index / 8) fun b => b ||| ((1 : UInt8) <<< UInt8.ofNat (index % 8)) }

/-- A change of `units_[index]`. -/
def modifyUnit (index : ℕ) (f : GuideUnit → GuideUnit) : Except Fault GuideBuilder := do
  pure { s with units := ← Pool.modify s.units index f }

variable (dawg : Dawg) (dic : Dictionary)

/-- The first child that is not terminal. -/
def firstChild (dawgChildIndex : ℕ) : Except Fault (Option ℕ) := do
  if (← dawg.label dawgChildIndex) = 0 then do
    let dawgChildIndex ← dawg.sibling dawgChildIndex
    pure (if dawgChildIndex = 0 then none else some dawgChildIndex)
  else pure (some dawgChildIndex)

/-- The sibling of a child, if it has one. -/
def linkSibling (dawgChildIndex dicChildIndex : ℕ) : Except Fault GuideBuilder := do
  let dawgSiblingIndex ← dawg.sibling dawgChildIndex
  let siblingLabel ← dawg.label dawgSiblingIndex
  if dawgSiblingIndex ≠ 0 then s.modifyUnit dicChildIndex fun u => u.setSibling siblingLabel else pure s

/-- `BuildGuide` from a transition on. -/
def buildFrom : ℕ → GuideBuilder → ℕ → ℕ → Except Fault (Option GuideBuilder)
  | 0, _, _, _ => .error .diverges
  | fuel + 1, s, dawgIndex, dicIndex => do
    if ← s.isFixed dicIndex then pure (some s)
    else do
      let s ← s.setIsFixed dicIndex
      match ← firstChild dawg (← dawg.child dawgIndex) with
      | none => pure (some s)
      | some dawgChildIndex => do
        let childLabel ← dawg.label dawgChildIndex
        let s ← s.modifyUnit dicIndex fun u => u.setChild childLabel
        doLinks dawg.sibling (fun s dawgChildIndex => do
          match ← dic.follow (← dawg.label dawgChildIndex) dicIndex with
          | none => pure none
          | some dicChildIndex => do
            match ← buildFrom fuel s dawgChildIndex dicChildIndex with
            | none => pure none
            | some s => some <$> s.linkSibling dawg dawgChildIndex dicChildIndex) dawg.size s dawgChildIndex

/-- `Build`: the guide, which is not changed if there are no words. -/
def build (guide : Guide) : Except Fault (Option Guide) :=
  if dawg.size ≤ 1 then pure (some guide)
  else do
    let s ← buildFrom dawg dic (dawg.size + 1) ⟨List.replicate dic.size GuideUnit.construct, List.replicate (dic.size / 8) 0⟩ dawg.root dic.root
    pure (s.map fun s => ⟨s.units⟩)

end GuideBuilder

end InfixSearch.Dawgdic
