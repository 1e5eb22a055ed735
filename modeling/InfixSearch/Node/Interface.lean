import InfixSearch.Library.Block

/-!
# Nodes

The trie is a graph of `node_t` objects, used through the virtual functions that
`node1_t` and `node2_t` implement (`node.hpp`). `NodeT` is that interface; a
node type is an instance of it. A node lives in a heap and is referred to by a
pointer, its place in the order of construction; nothing is ever deleted. The
functions of `node2_t` that look at the value of a neighbor call `get_val`
through the neighbor's pointer, so the interface hands them that call as an
argument.

A `char` is a `UInt8`, read as an `Int8` where the source computes with its sign.
The lengths of tails, and positions in them, that the source keeps in an `int` are
numbers without bound: for the trie, tails of `2³¹ - 3` bytes and more are outside the
model. What the packed node makes of them is said where it is modelled.
-/

namespace InfixSearch

open Library

/-- A `char`. -/
abbrev Byte := UInt8

/-- A `string`. -/
abbrev Str := List Byte

/-- A string literal of ASCII characters. -/
def ascii (s : String) : Str := s.toList.map Char.toUInt8

/-- A `node_t *` other than `NULL`. -/
abbrev Ptr := ℕ

/-- `s[i]` of a `string`: the character after the last one is NUL. -/
def charAt (s : Str) (i : ℕ) : Except Fault Byte :=
  if h : i < s.length then .ok s[i] else if i = s.length then .ok 0 else .error .outOfBounds

/-- The virtual functions of `node_t`. -/
class NodeT (N : Type) where
  /-- The constructor. -/
  construct : Except Fault N
  /-- `kill_children`. -/
  killChildren : N → Except Fault N
  /-- `get_children`. -/
  getChildren : N → Except Fault (List Ptr)
  /-- `child_exists`. -/
  childExists : (Ptr → Except Fault Byte) → N → Byte → Except Fault Bool
  /-- `get_child`, `none` for `NULL`. -/
  getChild : (Ptr → Except Fault Byte) → N → Byte → Except Fault (Option Ptr)
  /-- `set_child`. -/
  setChild : (Ptr → Except Fault Byte) → N → Byte → Ptr → Except Fault N
  /-- `get_is_indexed`. -/
  getIsIndexed : N → Except Fault Bool
  /-- `set_is_indexed`. -/
  setIsIndexed : N → Bool → Except Fault N
  /-- `get_val`. -/
  getVal : N → Except Fault Byte
  /-- `set_val`. -/
  setVal : N → Byte → Except Fault N
  /-- `get_is_leaf`. -/
  getIsLeaf : N → Except Fault Bool
  /-- `set_is_leaf`. -/
  setIsLeaf : N → Bool → Except Fault N
  /-- `get_tail`. -/
  getTail : N → Except Fault Str
  /-- `set_tail`. -/
  setTail : N → Str → Except Fault N
  /-- `get_parent`, `none` for `NULL`. -/
  getParent : N → Except Fault (Option Ptr)
  /-- `set_parent`. -/
  setParent : N → Option Ptr → Except Fault N

/-- The nodes constructed so far, in order. -/
abbrev Heap (N : Type) := List N

namespace Heap

variable {N : Type} [NodeT N]

/-- `*p`. -/
def deref (h : Heap N) (p : Ptr) : Except Fault N :=
  match h[p]? with
  | some n => .ok n
  | none => .error .outOfBounds

/-- A call that changes `*p`. -/
def update (h : Heap N) (p : Ptr) (f : N → Except Fault N) : Except Fault (Heap N) := do
  let n ← f (← h.deref p)
  pure (h.set p n)

/-- `p->get_tail()`. -/
def getTail (h : Heap N) (p : Ptr) : Except Fault Str := do NodeT.getTail (← h.deref p)

/-- `p->get_val()`. -/
def getVal (h : Heap N) (p : Ptr) : Except Fault Byte := do NodeT.getVal (← h.deref p)

/-- `p->get_is_leaf()`. -/
def getIsLeaf (h : Heap N) (p : Ptr) : Except Fault Bool := do NodeT.getIsLeaf (← h.deref p)

/-- `p->get_parent()`. -/
def getParent (h : Heap N) (p : Ptr) : Except Fault (Option Ptr) := do NodeT.getParent (← h.deref p)

/-- `p->get_children()`. -/
def getChildren (h : Heap N) (p : Ptr) : Except Fault (List Ptr) := do NodeT.getChildren (← h.deref p)

/-- `p->get_child(val)`. -/
def getChild (h : Heap N) (p : Ptr) (val : Byte) : Except Fault (Option Ptr) := do
  NodeT.getChild h.getVal (← h.deref p) val

/-- `p->set_child(val, node)`. -/
def setChild (h : Heap N) (p : Ptr) (val : Byte) (node : Ptr) : Except Fault (Heap N) :=
  h.update p fun n => NodeT.setChild h.getVal n val node

end Heap

end InfixSearch
