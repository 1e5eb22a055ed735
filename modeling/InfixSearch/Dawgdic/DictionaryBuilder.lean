import InfixSearch.Dawgdic.DawgBuilder
import InfixSearch.Dawgdic.Dictionary
import InfixSearch.Dawgdic.LinkTable

/-!
# The builder of a dictionary

`DictionaryBuilder` makes a dictionary of a dawg: it goes over the states in depth-first order,
and finds for each an offset at which the units of all its labels are free. Units are added in
blocks, and only the last blocks are searched. Before a block is left behind its free units get
labels that nothing can follow to them. A state that several transitions lead to has one offset
for all, if it can be encoded.

An access outside the units, to a block that was given up, and a search that does not end are
faults.
-/

namespace InfixSearch.Dawgdic

open Library

/-- `DictionaryBuilder`, without the dawg. -/
structure DictionaryBuilder where
  /-- `units_`. -/
  units : List DictionaryUnit
  /-- `extras_`: blocks, or null pointers. -/
  extras : List (Option (List DictionaryExtraUnit))
  /-- `link_table_`. -/
  linkTable : LinkTable
  /-- `unfixed_index_`. -/
  unfixedIndex : ℕ
  /-- `num_of_unused_units_`. -/
  numOfUnusedUnits : ℕ

namespace DictionaryBuilder

/-- `BLOCK_SIZE`. -/
def blockSize : ℕ := 256

/-- `NUM_OF_UNFIXED_BLOCKS`. -/
def numOfUnfixedBlocks : ℕ := 16

/-- `UPPER_MASK`. -/
def upperMask : BaseType := ~~~(BitVec.ofNat 32 DictionaryUnit.offsetMax - 1)

/-- `LOWER_MASK`. -/
def lowerMask : BaseType := 0xFF

/-- The constructor. -/
def construct : DictionaryBuilder := ⟨[], [], ⟨[]⟩, 0, 0⟩

variable (s : DictionaryBuilder)

/-- `num_of_units`. -/
def numOfUnits : ℕ := s.units.length

/-- `num_of_blocks`. -/
def numOfBlocks : ℕ := s.extras.length

/-- `extras(index)`. -/
def extra (index : ℕ) : Except Fault DictionaryExtraUnit := do
  match ← Pool.get s.extras (index / blockSize) with
  | none => .error .nullPointer
  | some block => Pool.get block (index % blockSize)

/-- A change of `extras(index)`. -/
def modifyExtra (index : ℕ) (f : DictionaryExtraUnit → DictionaryExtraUnit) : Except Fault DictionaryBuilder := do
  match ← Pool.get s.extras (index / blockSize) with
  | none => .error .nullPointer
  | some block => do
    let block ← Pool.modify block (index % blockSize) f
    pure { s with extras := ← Pool.set s.extras (index / blockSize) (some block) }

/-- A change of `units(index)`. -/
def modifyUnit (index : ℕ) (f : DictionaryUnit → DictionaryUnit) : Except Fault DictionaryBuilder := do
  pure { s with units := ← Pool.modify s.units index f }

/-! ### Unused units -/

/-- `unfixed_index_` moves on if it is at a unit that is reserved. -/
def passUnfixed (index : ℕ) : Except Fault DictionaryBuilder :=
  if index = s.unfixedIndex then do
    let e ← s.extra index
    pure { s with unfixedIndex := if e.next = index then s.numOfUnits else e.next }
  else pure s

/-- `ReserveUnit` of a unit that is there. -/
def unlinkUnit (index : ℕ) : Except Fault DictionaryBuilder := do
  let s ← s.passUnfixed index
  let e ← s.extra index
  let s ← s.modifyExtra e.prev fun e' => e'.setNext e.next
  let e ← s.extra index
  let s ← s.modifyExtra e.next fun e' => e'.setPrev e.prev
  s.modifyExtra index DictionaryExtraUnit.setIsFixed

/-- The first loop of `FixBlock`: the first of some offsets that is not used, or 0. -/
def unusedOffset : List ℕ → Except Fault ℕ
  | [] => pure 0
  | offset :: offsets => do
    if (← s.extra offset).isUsed then unusedOffset offsets else pure offset

/-- The body of the second loop of `FixBlock`. -/
def fixUnused (reserve : DictionaryBuilder → ℕ → Except Fault DictionaryBuilder) (unused : ℕ) (s : DictionaryBuilder) (index : ℕ) :
    Except Fault DictionaryBuilder := do
  if (← s.extra index).isFixed then pure s
  else do
    let s ← reserve s index
    let s ← s.modifyUnit index fun u => u.setLabel (UInt8.ofNat (index ^^^ unused))
    pure { s with numOfUnusedUnits := s.numOfUnusedUnits + 1 }

/-- `FixBlock`. -/
def fixBlock (reserve : DictionaryBuilder → ℕ → Except Fault DictionaryBuilder) (blockId : ℕ) : Except Fault DictionaryBuilder := do
  let unused ← s.unusedOffset (List.range' (blockId * blockSize) blockSize)
  (List.range' (blockId * blockSize) blockSize).foldlM (fixUnused reserve unused) s

/-- The extra units of the block that was fixed are those of the new one. -/
def reuseBlock (blockId : ℕ) : Except Fault DictionaryBuilder := do
  let block ← Pool.get s.extras blockId
  let back ← Pool.get s.extras (s.numOfBlocks - 1)
  let s := { s with extras := (s.extras.set blockId back).set (s.numOfBlocks - 1) block }
  (List.range' (s.numOfUnits - blockSize) blockSize).foldlM (fun s i => s.modifyExtra i fun _ => DictionaryExtraUnit.construct) s

/-- Memory for the extra units of a new block. -/
def allocateBlock (blockId : ℕ) : Except Fault DictionaryBuilder :=
  if s.numOfBlocks > numOfUnfixedBlocks then s.reuseBlock blockId
  else do
    pure { s with extras := ← Pool.set s.extras (s.numOfBlocks - 1) (some (List.replicate blockSize DictionaryExtraUnit.construct)) }

/-- The body of the loop that links the units of a new block. -/
def linkNext (s : DictionaryBuilder) (i : ℕ) : Except Fault DictionaryBuilder := do
  let s ← s.modifyExtra (i - 1) fun e => e.setNext i
  s.modifyExtra i fun e => e.setPrev (i - 1)

/-- The units of a new block are linked, and this list is merged into that of the others. -/
def linkBlock (src dest : ℕ) : Except Fault DictionaryBuilder := do
  let s ← (List.range' (src + 1) (blockSize - 1)).foldlM linkNext s
  let s ← s.modifyExtra src fun e => e.setPrev (dest - 1)
  let s ← s.modifyExtra (dest - 1) fun e => e.setNext src
  let e ← s.extra s.unfixedIndex
  let s ← s.modifyExtra src fun e' => e'.setPrev e.prev
  let s ← s.modifyExtra (dest - 1) fun e' => e'.setNext s.unfixedIndex
  let e ← s.extra s.unfixedIndex
  let s ← s.modifyExtra e.prev fun e' => e'.setNext src
  s.modifyExtra s.unfixedIndex fun e' => e'.setPrev (dest - 1)

/-- An old block is fixed if there are enough newer ones. -/
def fixOldBlock (reserve : DictionaryBuilder → ℕ → Except Fault DictionaryBuilder) : Except Fault DictionaryBuilder :=
  if s.numOfBlocks + 1 > numOfUnfixedBlocks then s.fixBlock reserve (s.numOfBlocks - numOfUnfixedBlocks) else pure s

/-- `ExpandDictionary`. -/
def expandDictionary (reserve : DictionaryBuilder → ℕ → Except Fault DictionaryBuilder) : Except Fault DictionaryBuilder := do
  let src := s.numOfUnits
  let srcBlocks := s.numOfBlocks
  let s ← s.fixOldBlock reserve
  let s := { s with units := s.units ++ List.replicate blockSize DictionaryUnit.construct, extras := s.extras ++ [none] }
  let s ← s.allocateBlock (srcBlocks - numOfUnfixedBlocks)
  s.linkBlock src (src + blockSize)

/-- The dictionary is expanded if a unit is not there. -/
def expanded (reserve : DictionaryBuilder → ℕ → Except Fault DictionaryBuilder) (index : ℕ) : Except Fault DictionaryBuilder :=
  if index ≥ s.numOfUnits then s.expandDictionary reserve else pure s

/-- `ReserveUnit`, which calls itself through `ExpandDictionary` and `FixBlock`. -/
def reserveUnit : ℕ → DictionaryBuilder → ℕ → Except Fault DictionaryBuilder
  | 0, _, _ => .error .diverges
  | fuel + 1, s, index => do
    let s ← s.expanded (reserveUnit fuel) index
    s.unlinkUnit index

/-- How deep these calls get. -/
def reserveDepth : ℕ := 2

/-- `FixAllBlocks`. -/
def fixAllBlocks : Except Fault DictionaryBuilder :=
  let first := if s.numOfBlocks > numOfUnfixedBlocks then s.numOfBlocks - numOfUnfixedBlocks else 0
  (List.range' first (s.numOfBlocks - first)).foldlM (fun s blockId => s.fixBlock (reserveUnit reserveDepth) blockId) s

/-! ### Offsets -/

/-- The loop of `IsGoodOffset`: whether one of the units is fixed. -/
def collides (offset : ℕ) : List UInt8 → Except Fault Bool
  | [] => pure false
  | label :: labels => do
    if (← s.extra (offset ^^^ label.toNat)).isFixed then pure true else collides offset labels

/-- Whether an offset can be encoded. -/
def encodable (relativeOffset : ℕ) : Bool :=
  BitVec.ofNat 32 relativeOffset &&& lowerMask == 0 || BitVec.ofNat 32 relativeOffset &&& upperMask == 0

/-- `IsGoodOffset`. -/
def isGoodOffset (labels : List UInt8) (index offset : ℕ) : Except Fault Bool := do
  if (← s.extra offset).isUsed then pure false
  else if !encodable (index ^^^ offset) then pure false
  else do pure !(← s.collides offset labels.tail)

/-- The loop of `FindGoodOffset`. -/
def scanUnused (labels : List UInt8) (index : ℕ) : ℕ → ℕ → Except Fault ℕ
  | 0, _ => .error .diverges
  | fuel + 1, unfixedIndex => do
    let first ← Pool.get labels 0
    if ← s.isGoodOffset labels index (unfixedIndex ^^^ first.toNat) then pure (unfixedIndex ^^^ first.toNat)
    else do
      let next := (← s.extra unfixedIndex).next
      if next ≠ s.unfixedIndex then scanUnused labels index fuel next else pure (s.numOfUnits ||| (index &&& 0xFF))

/-- `FindGoodOffset`. -/
def findGoodOffset (labels : List UInt8) (index : ℕ) : Except Fault ℕ :=
  if s.unfixedIndex ≥ s.numOfUnits then pure (s.numOfUnits ||| (index &&& 0xFF))
  else s.scanUnused labels index (s.numOfUnits + 1) s.unfixedIndex

/-! ### States -/

variable (dawg : Dawg)

/-- The label or the value of a child node. -/
def setChildNode (dicIndex dicChildIndex dawgChildIndex : ℕ) (label : UInt8) : Except Fault DictionaryBuilder := do
  if ← dawg.isLeaf dawgChildIndex then do
    let s ← s.modifyUnit dicIndex DictionaryUnit.setHasLeaf
    let value ← dawg.value dawgChildIndex
    s.modifyUnit dicChildIndex fun u => u.setValue value
  else s.modifyUnit dicChildIndex fun u => u.setLabel label

/-- The loop of `ArrangeChildNodes` over the labels. -/
def placeLabels (dicIndex offset : ℕ) (s : DictionaryBuilder) (dawgChildIndex : ℕ) : List UInt8 → Except Fault DictionaryBuilder
  | [] => pure s
  | label :: labels => do
    let s ← reserveUnit reserveDepth s (offset ^^^ label.toNat)
    let s ← s.setChildNode dawg dicIndex (offset ^^^ label.toNat) dawgChildIndex label
    placeLabels dicIndex offset s (← dawg.sibling dawgChildIndex) labels

/-- `ArrangeChildNodes`: the offset, or 0. -/
def arrangeChildNodes (dawgIndex dicIndex : ℕ) : Except Fault (ℕ × DictionaryBuilder) := do
  let dawgChildIndex ← dawg.child dawgIndex
  let labels ← forLinks dawg.sibling (fun labels i => do pure (labels ++ [← dawg.label i])) (dawg.size + 1) [] dawgChildIndex
  let offset ← s.findGoodOffset labels dicIndex
  match (← Pool.get s.units dicIndex).setOffset (dicIndex ^^^ offset) with
  | none => pure (0, s)
  | some unit => do
    let s := { s with units := s.units.set dicIndex unit }
    let s ← placeLabels dawg dicIndex offset s dawgChildIndex labels
    pure (offset, ← s.modifyExtra offset DictionaryExtraUnit.setIsUsed)

/-- The offset that a state has already, if it can be used. -/
def existingOffset (dawgChildIndex dicIndex : ℕ) : Except Fault (Option ℕ) := do
  if ← dawg.isMerging dawgChildIndex then do
    let offset ← s.linkTable.find dawgChildIndex
    pure (if offset ≠ 0 ∧ encodable (offset ^^^ dicIndex) = true then some (offset ^^^ dicIndex) else none)
  else pure none

/-- A unit gets a value among its children if the state has one. -/
def markLeaf (dawgChildIndex dicIndex : ℕ) : Except Fault DictionaryBuilder := do
  if ← dawg.isLeaf dawgChildIndex then s.modifyUnit dicIndex DictionaryUnit.setHasLeaf else pure s

/-- The offset is used: what `set_offset` returns is ignored. -/
def useOffset (dawgChildIndex dicIndex offset : ℕ) : Except Fault DictionaryBuilder := do
  let s ← s.markLeaf dawg dawgChildIndex dicIndex
  s.modifyUnit dicIndex fun u => (u.setOffset offset).getD u

/-- The offset of a state is kept if other transitions lead to it. -/
def keepOffset (dawgChildIndex offset : ℕ) : Except Fault DictionaryBuilder := do
  if ← dawg.isMerging dawgChildIndex then do
    pure { s with linkTable := ← s.linkTable.insert dawgChildIndex offset }
  else pure s

/-- `BuildDictionary` from a transition on. -/
def buildFrom : ℕ → DictionaryBuilder → ℕ → ℕ → Except Fault (Option DictionaryBuilder)
  | 0, _, _, _ => .error .diverges
  | fuel + 1, s, dawgIndex, dicIndex => do
    if ← dawg.isLeaf dawgIndex then pure (some s)
    else do
      let dawgChildIndex ← dawg.child dawgIndex
      match ← s.existingOffset dawg dawgChildIndex dicIndex with
      | some offset => some <$> s.useOffset dawg dawgChildIndex dicIndex offset
      | none => do
        let (offset, s) ← s.arrangeChildNodes dawg dawgIndex dicIndex
        if offset = 0 then pure none
        else do
          let s ← s.keepOffset dawg dawgChildIndex offset
          doLinks dawg.sibling (fun s i => do buildFrom fuel s i (offset ^^^ (← dawg.label i).toNat)) dawg.size s dawgChildIndex

/-- The root of the dictionary. -/
def reserveRoot : Except Fault DictionaryBuilder := do
  let s := { construct with linkTable := LinkTable.init (dawg.numOfMergingStates + (dawg.numOfMergingStates >>> 1)) }
  let s ← reserveUnit reserveDepth s 0
  let s ← s.modifyExtra 0 DictionaryExtraUnit.setIsUsed
  let s ← s.modifyUnit 0 fun u => (u.setOffset 1).getD u
  s.modifyUnit 0 fun u => u.setLabel 0

/-- The units of the states, if there are any. -/
def buildStates : Except Fault (Option DictionaryBuilder) :=
  if dawg.size > 1 then buildFrom dawg (dawg.size + 1) s dawg.root 0 else pure (some s)

/-- `BuildDictionary` of the whole dawg. -/
def buildDictionary : Except Fault (Option DictionaryBuilder) := do
  let s ← reserveRoot dawg
  match ← s.buildStates dawg with
  | none => pure none
  | some s => some <$> s.fixAllBlocks

/-- `Build`: the dictionary and the number of units that are not used. -/
def build : Except Fault (Option (Dictionary × ℕ)) := do
  pure ((← buildDictionary dawg).map fun s => (⟨s.units⟩, s.numOfUnusedUnits))

end DictionaryBuilder

end InfixSearch.Dawgdic
