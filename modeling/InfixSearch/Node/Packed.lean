import InfixSearch.Node.Interface

/-!
# The packed node

`node2_t` (`node.cpp`, lines 117–285) keeps a node in two arrays. `data` holds a
byte of flags, a byte counting the neighbors, and the tail as a C string;
`neighbors` holds the parent and then the children, `NULL` in a slot not used
yet. The count is a signed `char`: it is the bound of every loop over
`neighbors` and the size `neighbors` is reallocated to.

The functions below are the source's, each access checked against its block. `set_tail`
computes two sizes in an `int`; in the class that the search uses they are numbers without
bound, which is the same for tails of less than `2³¹ - 3` bytes (`setTail_eq_setTailNat`).
-/

namespace InfixSearch

open Library

/-- `node2_t`. -/
structure Node2T where
  /-- The flags, the number of neighbors, the tail. -/
  data : Block Byte
  /-- The parent and the children. -/
  neighbors : Block (Option Ptr)

namespace Node2T

/-- `METADATA_INDEX`. -/
def metadataIndex : ℕ := 0

/-- `TOTAL_NEIGHBORS_INDEX`. -/
def totalNeighborsIndex : ℕ := 1

/-- `TAIL_INDEX`. -/
def tailIndex : ℕ := 2

/-- `BIT_INDEX_IS_LEAF`. -/
def bitIndexIsLeaf : Byte := 0

/-- `BIT_INDEX_IS_INDEXED`. -/
def bitIndexIsIndexed : Byte := 1

/-- `BIT_INDEX_RESERVED`. -/
def bitIndexReserved : Byte := 7

/-- A `char` in an `int` expression. -/
def charToInt (c : Byte) : ℤ := c.toInt8.toInt

/-- The `i` of `for(int i=1;i<data[TOTAL_NEIGHBORS_INDEX];++i)`. -/
def childSlots (total : Byte) : List ℕ := List.range' 1 ((charToInt total).toNat - 1)

/-- `data[i] = (data[i] op flag)`. -/
def mapByte (n : Node2T) (i : ℕ) (f : Byte → Byte) : Except Fault Node2T := do
  let c ← n.data.read i
  pure { n with data := ← n.data.write i (f c) }

/-- A flag: `(metadata >> bit) & 1`. -/
def getFlag (bit : Byte) (n : Node2T) : Except Fault Bool := do
  let metadata ← n.data.read metadataIndex
  pure ((metadata >>> bit) &&& 1 == 1)

/-- Setting a flag: `metadata |= 1 << bit`, but `metadata &= 0 << bit` to clear it,
which clears the other flags with it. -/
def setFlag (bit : Byte) (n : Node2T) (value : Bool) : Except Fault Node2T :=
  if value then n.mapByte metadataIndex (· ||| (1 <<< bit)) else n.mapByte metadataIndex (· &&& (0 <<< bit))

/-- `get_is_leaf`. -/
def getIsLeaf : Node2T → Except Fault Bool := getFlag bitIndexIsLeaf

/-- `get_is_indexed`. -/
def getIsIndexed : Node2T → Except Fault Bool := getFlag bitIndexIsIndexed

/-- `set_is_leaf`. -/
def setIsLeaf : Node2T → Bool → Except Fault Node2T := setFlag bitIndexIsLeaf

/-- `set_is_indexed`. -/
def setIsIndexed : Node2T → Bool → Except Fault Node2T := setFlag bitIndexIsIndexed

/-- `node2_t::node2_t`. -/
def construct : Except Fault Node2T := do
  let data ← (malloc 3).write metadataIndex (1 <<< bitIndexReserved)
  let data ← data.write tailIndex 0
  let data ← data.write totalNeighborsIndex 2
  let neighbors ← (malloc 2).writeAll 0 [none, none]
  let n ← setIsLeaf ⟨data, neighbors⟩ false
  n.setIsIndexed false

/-- The children in the slots given. -/
def collect (neighbors : Block (Option Ptr)) : List ℕ → Except Fault (List Ptr)
  | [] => pure []
  | i :: is => do
    match ← neighbors.read i with
    | none => collect neighbors is
    | some p => (p :: ·) <$> collect neighbors is

/-- `get_children`. -/
def getChildren (n : Node2T) : Except Fault (List Ptr) := do
  collect n.neighbors (childSlots (← n.data.read totalNeighborsIndex))

/-- The first child in the slots given whose value is `val`. -/
def findVal (valOf : Ptr → Except Fault Byte) (neighbors : Block (Option Ptr)) (val : Byte) :
    List ℕ → Except Fault (Option Ptr)
  | [] => pure none
  | i :: is => do
    match ← neighbors.read i with
    | none => findVal valOf neighbors val is
    | some p => if (← valOf p) = val then pure (some p) else findVal valOf neighbors val is

/-- `get_child`. -/
def getChild (valOf : Ptr → Except Fault Byte) (n : Node2T) (val : Byte) : Except Fault (Option Ptr) := do
  findVal valOf n.neighbors val (childSlots (← n.data.read totalNeighborsIndex))

/-- `child_exists`: the loop of `get_child`, keeping only whether it found one. -/
def childExists (valOf : Ptr → Except Fault Byte) (n : Node2T) (val : Byte) : Except Fault Bool :=
  Option.isSome <$> getChild valOf n val

/-- What the loop of `set_child` ends with. -/
inductive Slot where
  /-- A slot holding `NULL`. -/
  | free (i : ℕ)
  /-- A child with the value already. -/
  | duplicate
  /-- Neither. -/
  | full

/-- The loop of `set_child`. -/
def findSlot (valOf : Ptr → Except Fault Byte) (neighbors : Block (Option Ptr)) (val : Byte) :
    List ℕ → Except Fault Slot
  | [] => pure .full
  | i :: is => do
    match ← neighbors.read i with
    | none => pure (.free i)
    | some p => if (← valOf p) = val then pure .duplicate else findSlot valOf neighbors val is

/-- `realloc(neighbors, data[TOTAL_NEIGHBORS_INDEX] * sizeof(node_t *))`, and the
`exit(1)` when it fails: the product is a `size_t`, and no object is larger than
`2⁶³ - 1` bytes. -/
def reallocNeighbors (neighbors : Block (Option Ptr)) (total : Byte) : Except Fault (Block (Option Ptr)) :=
  let size := (charToInt total * 8 % 2 ^ 64).toNat
  if size < 2 ^ 63 then pure (neighbors.realloc (size / 8)) else throw .exit

/-- `set_child`. -/
def setChild (valOf : Ptr → Except Fault Byte) (n : Node2T) (val : Byte) (node : Ptr) : Except Fault Node2T := do
  let total ← n.data.read totalNeighborsIndex
  match ← findSlot valOf n.neighbors val (childSlots total) with
  | .free i => pure { n with neighbors := ← n.neighbors.write i (some node) }
  | .duplicate => pure n
  | .full =>
    let data ← n.data.write totalNeighborsIndex (total + 1)
    let neighbors ← reallocNeighbors n.neighbors (total + 1)
    let neighbors ← neighbors.write ((charToInt (total + 1)).toNat - 1) (some node)
    pure ⟨data, neighbors⟩

/-- `kill_children`. -/
def killChildren (n : Node2T) : Except Fault Node2T := do
  let data ← n.data.write totalNeighborsIndex 2
  let neighbors ← reallocNeighbors n.neighbors 2
  let neighbors ← neighbors.write 1 none
  pure ⟨data, neighbors⟩

/-- `get_val`. -/
def getVal (n : Node2T) : Except Fault Byte := n.data.read tailIndex

/-- `set_val`: "ignore this request". -/
def setVal (n : Node2T) (_val : Byte) : Except Fault Node2T := pure n

/-- `get_tail`. -/
def getTail (n : Node2T) : Except Fault Str := cstr (n.data.drop tailIndex)

/-- A size in an `int`: what is left of it modulo `2³²`, between `-2³¹` and `2³¹ - 1`. -/
def toInt (size : ℕ) : ℤ := (size : ℤ).bmod (2 ^ 32)

/-- `realloc(data, newSize)`, and the `exit(1)` when it fails: as a `size_t` a negative size is
more than any object has, and for a size of zero `realloc` frees the array and returns `NULL`. -/
def reallocData (data : Block Byte) (newSize : ℤ) : Except Fault (Block Byte) :=
  if 0 < newSize then pure (data.realloc newSize.toNat) else throw .exit

/-- `set_tail`, where `int` takes a size to what is kept of it: the array is reallocated unless
the size wanted is the one computed from `strlen(data)`, which counts from the byte of flags. -/
def setTailWith (int : ℕ → ℤ) (n : Node2T) (tail : Str) : Except Fault Node2T := do
  let curSize := int ((← strlen n.data) + 1)
  let newSize := int (3 + tail.length)
  let data ← (if curSize ≠ newSize then reallocData n.data newSize else pure n.data)
  pure { n with data := ← strcpy data tailIndex tail }

/-- `set_tail`. -/
def setTail : Node2T → Str → Except Fault Node2T := setTailWith toInt

/-- `set_tail`, if an `int` could keep any size. -/
def setTailNat : Node2T → Str → Except Fault Node2T := setTailWith Nat.cast

/-- `get_parent`. -/
def getParent (n : Node2T) : Except Fault (Option Ptr) := n.neighbors.read 0

/-- `set_parent`. -/
def setParent (n : Node2T) (parent : Option Ptr) : Except Fault Node2T := do
  pure { n with neighbors := ← n.neighbors.write 0 parent }

instance : NodeT Node2T where
  construct := construct
  killChildren := killChildren
  getChildren := getChildren
  childExists := childExists
  getChild := getChild
  setChild := setChild
  getIsIndexed := getIsIndexed
  setIsIndexed := setIsIndexed
  getVal := getVal
  setVal := setVal
  getIsLeaf := getIsLeaf
  setIsLeaf := setIsLeaf
  getTail := getTail
  setTail := setTailNat
  getParent := getParent
  setParent := setParent

end Node2T

end InfixSearch
