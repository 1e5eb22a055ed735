import InfixSearch.Node.Packed
import InfixSearch.Library.Agree

/-!
# The search

`search_t` (`search.cpp`): the trie that `add` builds, the index `tpm` from pairs
of adjacent characters to positions in tails that `index_trie` fills, and the
search `find_path` through both. The functions work on any node type; the
program's is `node2_t` (`node_type = NODE_2`).

A loop or recursion without a structural measure takes fuel, enough for every
trie that `add` builds. A local array is a block of a hundred indeterminate
cells. The constant `single_char = false` of `add` is folded away, and with it the
branches under it and `nvm`, which only they write.
-/

namespace InfixSearch

open Library

/-- `tree_pos_key_t`: a pair of adjacent characters. -/
abbrev TreePosKeyT := Byte × Byte

/-- `tree_pos_val_t`: a node and a position in its tail, kept in a `char`. -/
abbrev TreePosValT := Ptr × Int8

/-- `tree_pos_map_t`. -/
abbrev TreePosMapT := AList fun _ : TreePosKeyT => List TreePosValT

/-- `row_lookup_map_t`: where the row of a first column starts, and its length, kept in
an `int`. -/
abbrev RowLookupMapT := AList fun _ : Str => ℕ × Int32

/-- `search_t`. -/
structure SearchT (N : Type) where
  /-- The nodes constructed so far. -/
  heap : Heap N
  /-- `node_count`. -/
  nodeCount : ℕ
  /-- `head`, `none` for `NULL`. -/
  head : Option Ptr
  /-- `tpm`. -/
  tpm : TreePosMapT
  /-- `row_lookup_map`. -/
  rowLookupMap : RowLookupMapT
  /-- `pFile`: the bytes of the file it was opened on, `none` for `NULL`. -/
  pFile : Option (List Byte)
  /-- `row_buffer`. -/
  rowBuffer : Block Byte

namespace SearchT

/-- `search_t::search_t`. -/
def construct {N : Type} : SearchT N := ⟨[], 0, none, ∅, ∅, none, malloc 1000⟩

variable {N : Type} [NodeT N]

/-- A call that changes the node `p`. -/
def onNode (s : SearchT N) (p : Ptr) (f : N → Except Fault N) : Except Fault (SearchT N) := do
  pure { s with heap := ← s.heap.update p f }

/-- `node_t::make_node(node_type)`; the constructor counts the node. -/
def makeNode (s : SearchT N) : Except Fault (SearchT N × Ptr) := do
  let n ← NodeT.construct
  pure ({ s with heap := s.heap ++ [n], nodeCount := s.nodeCount + 1 }, s.heap.length)

/-- `p->set_tail(tail)`. -/
def setTail (s : SearchT N) (p : Ptr) (tail : Str) : Except Fault (SearchT N) := s.onNode p (NodeT.setTail · tail)

/-- `p->set_val(val)`. -/
def setVal (s : SearchT N) (p : Ptr) (val : Byte) : Except Fault (SearchT N) := s.onNode p (NodeT.setVal · val)

/-- `p->set_is_leaf(b)`. -/
def setIsLeaf (s : SearchT N) (p : Ptr) (b : Bool) : Except Fault (SearchT N) := s.onNode p (NodeT.setIsLeaf · b)

/-- `p->set_is_indexed(b)`. -/
def setIsIndexed (s : SearchT N) (p : Ptr) (b : Bool) : Except Fault (SearchT N) := s.onNode p (NodeT.setIsIndexed · b)

/-- `p->set_parent(parent)`. -/
def setParent (s : SearchT N) (p parent : Ptr) : Except Fault (SearchT N) :=
  s.onNode p (NodeT.setParent · (some parent))

/-- `p->kill_children()`. -/
def killChildren (s : SearchT N) (p : Ptr) : Except Fault (SearchT N) := s.onNode p NodeT.killChildren

/-- `p->set_child(val, node)`. -/
def setChild (s : SearchT N) (p : Ptr) (val : Byte) (node : Ptr) : Except Fault (SearchT N) := do
  pure { s with heap := ← s.heap.setChild p val node }

/-! ### `add` -/

/-- The loop that moves `nl` under `old_fork`. -/
def moveChildren (oldFork : Ptr) : List Ptr → SearchT N → Except Fault (SearchT N)
  | [], s => pure s
  | grandchild :: nl, s => do
    let s ← s.setChild oldFork (← s.heap.getVal grandchild) grandchild
    let s ← s.setParent grandchild oldFork
    moveChildren oldFork nl s

/-- "Forking two children": the lower half of the tail of `traverse`, with its leaf
status and its children, becomes a child `old_fork`. -/
def splitTail (s : SearchT N) (traverse : Ptr) (traverseTail : Str) (tailIndex : ℕ) : Except Fault (SearchT N) := do
  let s ← s.setTail traverse (traverseTail.take tailIndex)
  let (s, oldFork) ← s.makeNode
  let s ← s.setIsLeaf oldFork (← s.heap.getIsLeaf traverse)
  let s ← s.setVal oldFork (← charAt traverseTail tailIndex)
  let s ← s.setTail oldFork (traverseTail.drop tailIndex)
  let s ← s.setParent oldFork traverse
  let nl ← s.heap.getChildren traverse
  let s ← if nl.length ≠ 0 then do (← moveChildren oldFork nl s).killChildren traverse else pure s
  let s ← s.setIsLeaf traverse false
  s.setChild traverse (← charAt traverseTail tailIndex) oldFork

/-- "Create a new fork": a child of `traverse`, and a leaf, with the rest of the word. -/
def newChild (s : SearchT N) (word : Str) (traverse : Ptr) (i : ℕ) : Except Fault (SearchT N × Ptr) := do
  let (s, child) ← s.makeNode
  let s ← s.setVal child (← charAt word i)
  let s ← s.setTail child (word.drop i)
  let s ← s.setIsLeaf child true
  let s ← s.setChild traverse (← charAt word i) child
  pure (s, child)

/-- The branch of `add` that found no child to follow: the tail is split if the word
parts from it inside, and a new child takes the rest of the word. -/
def forkChild (s : SearchT N) (word : Str) (traverse : Ptr) (traverseTail : Str) (tailIndex i : ℕ) :
    Except Fault (SearchT N × Ptr) := do
  let s ← if tailIndex < traverseTail.length then s.splitTail traverse traverseTail tailIndex else pure s
  s.newChild word traverse i

/-- The loop of `add`, from the node `traverse` with `i` characters of the word
consumed, to the node it leaves `traverse` at. -/
def addLoop (word : Str) : ℕ → SearchT N → Ptr → ℕ → Except Fault (SearchT N × Ptr)
  | 0, _, _, _ => throw .diverges
  | fuel + 1, s, traverse, i =>
    if i < word.length then do
      let traverseTail ← s.heap.getTail traverse
      if traverseTail.length ≠ 0 then do
        let tailIndex := agree traverseTail (word.drop i)
        let i := i + tailIndex
        if i = word.length ∧ tailIndex = traverseTail.length then
          -- "Exact match to tail. Don't split."
          pure (s, traverse)
        else do
          let (s, child) ← match ← s.heap.getChild traverse (← charAt word i) with
            | some child => pure (s, child)
            | none => s.forkChild word traverse traverseTail tailIndex i
          let s ← s.setParent child traverse
          addLoop word fuel s child i
      else
        -- `child` is still `NULL` and becomes `traverse`
        throw .nullPointer
    else pure (s, traverse)

/-- The character `*`, the tail of the head and the first character of every word. -/
def sentinel : Byte := '*'.toUInt8

/-- The head, made by the first `add`. -/
def makeHead (s : SearchT N) : Except Fault (SearchT N × Ptr) := do
  match s.head with
  | some head => pure (s, head)
  | none =>
    let (s, head) ← s.makeNode
    let s := { s with head := some head }
    let s ← s.setVal head sentinel
    let s ← s.setTail head [sentinel]
    pure (s, head)

/-- `search_t::add`. -/
def add (s : SearchT N) (word : Str) : Except Fault (SearchT N) := do
  let word := sentinel :: word
  let (s, head) ← s.makeHead
  let (s, traverse) ← addLoop word (word.length + 1) s head 0
  s.setIsLeaf traverse true

/-- A run of calls of `add`. -/
def adds (s : SearchT N) : List Str → Except Fault (SearchT N)
  | [] => pure s
  | w :: ws => do (← s.add w).adds ws

/-! ### `index_trie` -/

/-- `tpm[tp_key].push_back(tp_val)`. -/
def pushPos (tpm : TreePosMapT) (key : TreePosKeyT) (val : TreePosValT) : TreePosMapT :=
  tpm.insert key ((tpm.lookup key).getD [] ++ [val])

/-- A position as `tp_val.second` keeps it: an `int` narrowed to a `char`. -/
def narrow (i : ℤ) : Int8 := Int8.ofInt i

/-- The pairs inside a tail. -/
def indexTail (tpm : TreePosMapT) (current : Ptr) (tail : Str) : Except Fault TreePosMapT :=
  (List.range (tail.length - 1)).foldlM (fun tpm i => do
    pure (pushPos tpm (← charAt tail i, ← charAt tail (i + 1)) (current, narrow i))) tpm

/-- `index_trie`. -/
def indexTrie : ℕ → SearchT N → Ptr → Option Ptr → Except Fault (SearchT N)
  | 0, _, _, _ => throw .diverges
  | fuel + 1, s, current, parent => do
    let tail ← s.heap.getTail current
    let s ← if parent.isSome then do pure { s with tpm := ← indexTail s.tpm current tail } else pure s
    let nl ← s.heap.getChildren current
    let s ← nl.foldlM (fun s curr => do
      -- the last character of the tail; of an empty tail there is none, and the index is `-1`
      let last ← if tail.length = 0 then throw .outOfBounds else charAt tail (tail.length - 1)
      let key := (last, ← s.heap.getVal curr)
      let s := { s with tpm := pushPos s.tpm key (current, narrow (tail.length - 1)) }
      indexTrie fuel s curr (some current)) s
    s.setIsIndexed current true

/-- `index_trie(head, NULL)`. -/
def indexHead (s : SearchT N) : Except Fault (SearchT N) :=
  match s.head with
  | none => throw .nullPointer
  | some head => indexTrie (s.heap.length + 1) s head none

/-! ### `find_path` -/

/-- The loop of `traverse_up` that pushes `tail[n - 1]`, …, `tail[0]`; the stack's top
is the first of the list. -/
def pushTail (tail : Str) : ℕ → List Byte → Except Fault (List Byte)
  | 0, upStack => pure upStack
  | n + 1, upStack => do pushTail tail n ((← charAt tail n) :: upStack)

/-- `traverse_up`. -/
def traverseUp (s : SearchT N) : ℕ → TreePosValT → List Byte → Except Fault (List Byte)
  | 0, _, _ => throw .diverges
  | fuel + 1, (node, charindex), upStack =>
    if some node = s.head then pure upStack
    else do
      let upStack ← pushTail (← s.heap.getTail node) (charindex.toInt + 1).toNat upStack
      match ← s.heap.getParent node with
      | none => throw .nullPointer
      | some parent =>
        traverseUp s fuel (parent, narrow ((← s.heap.getTail parent).length - 1)) upStack

/-- `tail[i]` for an `int i`: what a negative one reads is undefined. -/
def charAtInt (tail : Str) (i : ℤ) : Except Fault Byte :=
  if i < 0 then throw .beforeStart else charAt tail i.toNat

/-- The characters of `tail` from `i` on; a negative `int` compared with `tail.length()`
is beyond it. -/
def tailFrom (tail : Str) (i : ℤ) : Str := if i < 0 then [] else tail.drop i.toNat

/-- `traverse_down_util`: the scratch array is shared by all calls, its used length
is not. -/
def traverseDownUtil (s : SearchT N) : ℕ → Ptr → ℤ → Block Byte → ℕ → List Str → Except Fault (Block Byte × List Str)
  | 0, _, _, _, _, _ => throw .diverges
  | fuel + 1, node, tailindex, path, pathLen, suffixes => do
    let tail := tailFrom (← s.heap.getTail node) tailindex
    let path ← path.writeAll pathLen tail
    let pathLen := pathLen + tail.length
    let (path, suffixes) ← if ← s.heap.getIsLeaf node then do
        let path ← path.write pathLen 0
        pure (path, suffixes ++ [← cstr path])
      else pure (path, suffixes)
    let nodeList ← s.heap.getChildren node
    nodeList.foldlM (fun (path, suffixes) node => traverseDownUtil s fuel node 0 path pathLen suffixes) (path, suffixes)

/-- What `find_path_util` changes: `found_keys`, `exact_match`, and (a ghost, which the
source does not keep) how often it has reported a match "with no suffix". -/
structure FoundT where
  /-- `found_keys`. -/
  foundKeys : List Str
  /-- `exact_match`. -/
  exactMatch : Bool
  /-- How often no leaf was reached. -/
  noSuffix : ℕ

/-- The block of `find_path_util` that reports a match: `node` is where the key ended,
or `none` where it ended with a leaf. -/
def reportMatch (s : SearchT N) (node : Option Ptr) (tailindex : ℤ) (subKey : Str) (start : TreePosValT) (origKey : Str)
    (found : FoundT) : Except Fault FoundT := do
  let upStack ← s.traverseUp (s.heap.length + 1) (start.1, start.2 - 1) []
  let buf ← (malloc 100).writeAll 0 upStack
  let buf ← buf.write upStack.length 0
  let pre ← cstr buf
  let suffixes ← match node with
    | some node => do
      let path ← (malloc 100).writeAll 0 origKey
      let (_, suffixes) ← s.traverseDownUtil (s.heap.length + 1) node tailindex path origKey.length []
      pure suffixes
    | none => pure [origKey ++ subKey]
  let found :=
    if suffixes.length > 0 then { found with foundKeys := found.foundKeys ++ suffixes.map (pre ++ ·) }
    else { found with foundKeys := found.foundKeys ++ [pre ++ origKey], noSuffix := found.noSuffix + 1 }
  pure (if pre.length ≠ 0 then { found with exactMatch := false } else found)

/-- The loop of `find_path_util` that matches the key against a tail: where it stops in
the tail, and what is left of the key. -/
def matchTail (nodeTail : Str) : ℤ → Str → Except Fault (ℤ × Str)
  | tailindex, [] => pure (tailindex, [])
  | tailindex, c :: subKey =>
    if tailindex < nodeTail.length then do
      if (← charAtInt nodeTail tailindex) = c then matchTail nodeTail (tailindex + 1) subKey
      else pure (tailindex, c :: subKey)
    else pure (tailindex, c :: subKey)

/-- `find_path_util`. -/
def findPathUtil (s : SearchT N) (start : TreePosValT) (origKey : Str) :
    ℕ → Ptr → ℤ → Str → FoundT → Except Fault FoundT
  | 0, _, _, _, _ => throw .diverges
  | fuel + 1, node, tailindex, subKey, found =>
    if subKey.length < 1 then s.reportMatch (some node) tailindex subKey start origKey found
    else do
      let nodeTail ← s.heap.getTail node
      match ← matchTail nodeTail tailindex subKey with
      | (tailindex, []) =>
        let exact := (← s.heap.getIsLeaf node) && tailindex == nodeTail.length
        let found := { found with exactMatch := exact }
        if exact then s.reportMatch none tailindex [] start origKey found
        else s.reportMatch (some node) tailindex [] start origKey found
      | (tailindex, c :: newstr) =>
        if tailindex < nodeTail.length then pure found
        else do
          match ← s.heap.getChild node c with
          | none => pure found
          | some child => findPathUtil s start origKey fuel child 0 (c :: newstr) found

/-- The loop of `find_path`, which breaks after an exact match. -/
def findPathLoop (s : SearchT N) (key : Str) : List TreePosValT → FoundT → Except Fault FoundT
  | [], found => pure found
  | tpv :: nl, found => do
    let found ← s.findPathUtil tpv key (key.length + 1) tpv.1 tpv.2.toInt key found
    if found.exactMatch then pure found else findPathLoop s key nl found

/-- `find_path`, with the count of matches without suffix. -/
def findPathFound (s : SearchT N) (key : Str) (foundKeys : List Str) : Except Fault FoundT := do
  let tpKey := (← charAt key 0, ← charAt key 1)
  match s.tpm.lookup tpKey with
  | none => pure ⟨foundKeys, false, 0⟩
  | some nl => s.findPathLoop key nl ⟨foundKeys, false, 0⟩

/-- `find_path`: `found_keys` with what it appends. -/
def findPath (s : SearchT N) (key : Str) (foundKeys : List Str) : Except Fault (List Str) :=
  FoundT.foundKeys <$> s.findPathFound key foundKeys

/-- `find_in_file`, on the lines of the file: those in which `line.find(key)` finds
the key (`found` is never set, so the loop reads to the end). -/
def findInFile (key : Str) (lines : List Str) : List Str := lines.filter fun line => decide (key <:+: line)

end SearchT

end InfixSearch
