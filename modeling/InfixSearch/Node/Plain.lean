import InfixSearch.Node.Interface

/-!
# The plain node

`node1_t` (`node.cpp`, lines 38–112) keeps every attribute of a node in a field of its
own, and the children in a `map` from characters to nodes: `set_child` under a character
that is there already replaces the child, and `get_val` is what `set_val` has set.
-/

namespace InfixSearch

open Library

/-- The values of a `char`, from `-128` to `127`. -/
def chars : List Byte := (List.range 256).map fun i => UInt8.ofNat (i + 128)

/-- `node_map_t`. -/
abbrev NodeMapT := Byte → Option Ptr

/-- `node1_t`. -/
structure Node1T where
  /-- `val`. -/
  val : Byte
  /-- `is_leaf`. -/
  isLeaf : Bool
  /-- `is_indexed`. -/
  isIndexed : Bool
  /-- `parent`. -/
  parent : Option Ptr
  /-- `tail`. -/
  tail : Str
  /-- `child_map`. -/
  childMap : NodeMapT

namespace Node1T

/-- `node1_t::node1_t`. -/
def construct : Node1T := ⟨'*'.toUInt8, false, false, none, [], fun _ => none⟩

/-- `get_children`: a `map` is iterated in the order of its keys. -/
def getChildren (n : Node1T) : List Ptr := chars.filterMap n.childMap

/-- `kill_children`. -/
def killChildren (n : Node1T) : Node1T := { n with childMap := fun _ => none }

/-- `child_exists`. -/
def childExists (n : Node1T) (val : Byte) : Bool := (n.childMap val).isSome

/-- `get_child`. -/
def getChild (n : Node1T) (val : Byte) : Option Ptr := if n.childExists val then n.childMap val else none

/-- `set_child`. -/
def setChild (n : Node1T) (val : Byte) (node : Ptr) : Node1T :=
  { n with childMap := Function.update n.childMap val (some node) }

instance : NodeT Node1T where
  construct := .ok construct
  killChildren n := .ok n.killChildren
  getChildren n := .ok n.getChildren
  childExists _ n val := .ok (n.childExists val)
  getChild _ n val := .ok (n.getChild val)
  setChild _ n val node := .ok (n.setChild val node)
  getIsIndexed n := .ok n.isIndexed
  setIsIndexed n isIndexed := .ok { n with isIndexed := isIndexed }
  getVal n := .ok n.val
  setVal n val := .ok { n with val := val }
  getIsLeaf n := .ok n.isLeaf
  setIsLeaf n isLeaf := .ok { n with isLeaf := isLeaf }
  getTail n := .ok n.tail
  setTail n tail := .ok { n with tail := tail }
  getParent n := .ok n.parent
  setParent n parent := .ok { n with parent := parent }

/-- There is no other child than under its character. -/
theorem getChild_eq (n : Node1T) (val : Byte) : n.getChild val = n.childMap val := by
  rw [getChild, childExists]
  cases n.childMap val <;> rfl

end Node1T

theorem mem_chars (b : Byte) : b ∈ chars := by
  rw [chars, List.mem_map]
  refine ⟨(b.toNat + 128) % 256, List.mem_range.mpr (Nat.mod_lt _ (by decide)), ?_⟩
  apply UInt8.toNat_inj.mp
  have := b.toNat_lt
  simp
  omega

theorem nodup_chars : chars.Nodup := by
  refine List.nodup_range.map_on fun i hi j hj h => ?_
  rw [List.mem_range] at hi hj
  have hmod := congrArg UInt8.toNat h
  simp only [UInt8.toNat_ofNat'] at hmod
  omega

end InfixSearch
