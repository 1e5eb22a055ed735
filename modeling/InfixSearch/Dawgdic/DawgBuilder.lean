import InfixSearch.Dawgdic.Units
import InfixSearch.Library.Probing

/-!
# The builder of a dawg

`DawgBuilder` takes keys in ascending order and makes a dawg of them. The transitions to which
later keys may still add siblings are kept as linked units: the path of the last key, whose
units stand on a stack, and the siblings of these units. When a key leaves the path, what lies
behind the place where it does so can no longer change. It is fixed from its end on: the
siblings of each unit become transitions in the pools, or, if a hash table has the same
transitions already, those are used again.

An access outside a pool, the top of an empty stack and a search that does not end are faults.
What is only printed is left out.
-/

namespace InfixSearch.Dawgdic

open Library

/-- `Dawg`. -/
structure Dawg where
  /-- `base_pool_`. -/
  basePool : List BaseUnit
  /-- `label_pool_`. -/
  labelPool : Block UInt8
  /-- `flag_pool_`. -/
  flagPool : List Bool
  /-- `num_of_states_`. -/
  numOfStates : ℕ
  /-- `num_of_merged_transitions_`. -/
  numOfMergedTransitions : ℕ
  /-- `num_of_merged_states_`. -/
  numOfMergedStates : ℕ
  /-- `num_of_merging_states_`. -/
  numOfMergingStates : ℕ

namespace Dawg

variable (d : Dawg)

/-- `root`. -/
def root (_ : Dawg) : ℕ := 0

/-- `size`. -/
def size : ℕ := d.basePool.length

/-- `child`. -/
def child (index : ℕ) : Except Fault ℕ := BaseUnit.child <$> Pool.get d.basePool index

/-- `sibling`. -/
def sibling (index : ℕ) : Except Fault ℕ := do
  let unit ← Pool.get d.basePool index
  pure (if unit.hasSibling then index + 1 else 0)

/-- `value`. -/
def value (index : ℕ) : Except Fault ℤ := BaseUnit.value <$> Pool.get d.basePool index

/-- `label`. -/
def label (index : ℕ) : Except Fault UInt8 := d.labelPool.read index

/-- `is_leaf`. -/
def isLeaf (index : ℕ) : Except Fault Bool := do pure ((← d.label index) == 0)

/-- `is_merging`. -/
def isMerging (index : ℕ) : Except Fault Bool := Pool.get d.flagPool index

end Dawg

/-- `DawgBuilder`. -/
structure DawgBuilder where
  /-- `initial_hash_table_size_`. -/
  initialHashTableSize : ℕ
  /-- `base_pool_`. -/
  basePool : List BaseUnit
  /-- `label_pool_`: a label is indeterminate until it is set. -/
  labelPool : Block UInt8
  /-- `flag_pool_`. -/
  flagPool : List Bool
  /-- `unit_pool_`. -/
  unitPool : List DawgUnit
  /-- `hash_table_`. -/
  hashTable : List ℕ
  /-- `unfixed_units_`, the top first. -/
  unfixedUnits : List ℕ
  /-- `unused_units_`, the top first. -/
  unusedUnits : List ℕ
  /-- `num_of_states_`. -/
  numOfStates : ℕ
  /-- `num_of_merged_transitions_`. -/
  numOfMergedTransitions : ℕ
  /-- `num_of_merging_states_`. -/
  numOfMergingStates : ℕ

namespace DawgBuilder

/-- `DEFAULT_INITIAL_HASH_TABLE_SIZE`. -/
def defaultInitialHashTableSize : ℕ := 1 <<< 8

/-- The constructor, and `Clear`. -/
def construct (initialHashTableSize : ℕ) : DawgBuilder :=
  ⟨initialHashTableSize, [], [], [], [], [], [], [], 1, 0, 0⟩

variable (s : DawgBuilder)

/-- `num_of_transitions`. -/
def numOfTransitions : ℕ := s.basePool.length - 1

/-- `num_of_merged_states`. -/
def numOfMergedStates : ℕ := s.numOfTransitions + s.numOfMergedTransitions + 1 - s.numOfStates

/-! ### Pools and stacks -/

/-- `AllocateTransition`. -/
def allocateTransition : ℕ × DawgBuilder :=
  (s.labelPool.length, { s with
    flagPool := s.flagPool ++ [false], basePool := s.basePool ++ [BaseUnit.construct], labelPool := s.labelPool ++ [none] })

/-- `AllocateUnit`. -/
def allocateUnit : Except Fault (ℕ × DawgBuilder) :=
  match s.unusedUnits with
  | [] => pure (s.unitPool.length, { s with unitPool := s.unitPool ++ [DawgUnit.construct] })
  | index :: unused => do
    pure (index, { s with unusedUnits := unused, unitPool := ← Pool.set s.unitPool index DawgUnit.construct })

/-- `FreeUnit`. -/
def freeUnit (index : ℕ) : DawgBuilder := { s with unusedUnits := index :: s.unusedUnits }

/-- `unfixed_units_.top()`. -/
def topUnfixed : Except Fault ℕ :=
  match s.unfixedUnits with
  | [] => .error .outOfBounds
  | index :: _ => pure index

/-- A change of a unit. -/
def modifyUnit (index : ℕ) (f : DawgUnit → DawgUnit) : Except Fault DawgBuilder := do
  pure { s with unitPool := ← Pool.modify s.unitPool index f }

/-- The sibling of a unit. -/
def siblingOf (unitPool : List DawgUnit) (index : ℕ) : Except Fault ℕ := DawgUnit.sibling <$> Pool.get unitPool index

/-- A loop over a unit and its siblings. -/
def forSiblings {β : Type} (body : β → ℕ → Except Fault β) (b : β) (index : ℕ) : Except Fault β :=
  forLinks (siblingOf s.unitPool) body (s.unitPool.length + 1) b index

/-! ### The hash table -/

/-- `HashTransition`. -/
def hashTransition : ℕ → ℕ → BaseType → Except Fault BaseType
  | 0, _, _ => .error .diverges
  | fuel + 1, index, hashValue =>
    if index = 0 then pure hashValue
    else do
      let unit ← Pool.get s.basePool index
      let label ← s.labelPool.read index
      let hashValue := hashValue ^^^ hashOf unit.base label
      if unit.hasSibling then hashTransition fuel (index + 1) hashValue else pure hashValue

/-- `HashUnit`. -/
def hashUnit (index : ℕ) : Except Fault BaseType :=
  s.forSiblings (fun hashValue i => do
    let unit ← Pool.get s.unitPool i
    pure (hashValue ^^^ hashOf unit.base unit.label)) 0 index

/-- The first loop of `AreEqual`, over the siblings of a unit: the last transition, if there are as many. -/
def compareNumbers : ℕ → ℕ → ℕ → Except Fault (Option ℕ)
  | 0, _, _ => .error .diverges
  | fuel + 1, i, transitionIndex =>
    if i = 0 then do
      let unit ← Pool.get s.basePool transitionIndex
      pure (if unit.hasSibling then none else some transitionIndex)
    else do
      let unit ← Pool.get s.basePool transitionIndex
      if unit.hasSibling then compareNumbers fuel (← siblingOf s.unitPool i) (transitionIndex + 1) else pure none

/-- The second loop of `AreEqual`, over a unit and its siblings. -/
def compareTransitions : ℕ → ℕ → ℕ → Except Fault Bool
  | 0, _, _ => .error .diverges
  | fuel + 1, i, transitionIndex =>
    if i = 0 then pure true
    else do
      let unit ← Pool.get s.unitPool i
      let transition ← Pool.get s.basePool transitionIndex
      let label ← s.labelPool.read transitionIndex
      if unit.base ≠ transition.base ∨ unit.label ≠ label then pure false
      else compareTransitions fuel unit.sibling (transitionIndex - 1)

/-- `AreEqual`. -/
def areEqual (unitIndex transitionIndex : ℕ) : Except Fault Bool := do
  match ← s.compareNumbers (s.unitPool.length + 1) (← siblingOf s.unitPool unitIndex) transitionIndex with
  | none => pure false
  | some last => s.compareTransitions (s.unitPool.length + 1) unitIndex last

/-- `FindUnit`: the transition, or 0, and `hash_id`. -/
def findUnit (unitIndex : ℕ) : Except Fault (ℕ × ℕ) := do
  let hashValue ← s.hashUnit unitIndex
  let (hashId, transitionId) ← scan s.hashTable (fun id => if id = 0 then pure true else s.areEqual unitIndex id)
    s.hashTable.length (hashValue.toNat % s.hashTable.length)
  pure (transitionId, hashId)

/-- `FindTransition`: only `hash_id` is used of what it finds. -/
def findTransition (index : ℕ) : Except Fault ℕ := do
  let hashValue ← s.hashTransition (s.basePool.length + 1) index 0
  let (hashId, _) ← scan s.hashTable (fun id => pure (id == 0)) s.hashTable.length (hashValue.toNat % s.hashTable.length)
  pure hashId

/-- The body of the loop of `ExpandHashTable`. -/
def reenter (s : DawgBuilder) (index : ℕ) : Except Fault DawgBuilder := do
  let label ← s.labelPool.read index
  let unit ← Pool.get s.basePool index
  if label = 0 ∨ unit.isState = true then pure { s with hashTable := ← Pool.set s.hashTable (← s.findTransition index) index }
  else pure s

/-- `ExpandHashTable`. -/
def expandHashTable : Except Fault DawgBuilder :=
  (List.range' 1 (s.basePool.length - 1)).foldlM reenter { s with hashTable := List.replicate (s.hashTable.length <<< 1) 0 }

/-! ### Fixing units -/

/-- A unit becomes the transition `p.1`; the next one is before it. -/
def fixTransition (p : ℕ × DawgBuilder) (i : ℕ) : Except Fault (ℕ × DawgBuilder) := do
  let unit ← Pool.get p.2.unitPool i
  let basePool ← Pool.set p.2.basePool p.1 ⟨unit.base⟩
  let labelPool ← p.2.labelPool.write p.1 unit.label
  pure (p.1 - 1, { p.2 with basePool := basePool, labelPool := labelPool })

/-- The units of a state become transitions. -/
def fixTransitions (numOfSiblings unfixedIndex hashId : ℕ) : Except Fault (ℕ × DawgBuilder) := do
  let (transitionIndex, s) := numOfSiblings.fold (fun _ _ p => p.2.allocateTransition) (0, s)
  let (transitionIndex, s) ← s.forSiblings fixTransition (transitionIndex, s) unfixedIndex
  let matchedIndex := transitionIndex + 1
  pure (matchedIndex, { s with
    hashTable := ← Pool.set s.hashTable hashId matchedIndex, numOfStates := s.numOfStates + 1 })

/-- The units of a state are merged into the transitions of a state that is there. -/
def mergeTransitions (numOfSiblings matchedIndex : ℕ) : Except Fault DawgBuilder := do
  let s := { s with numOfMergedTransitions := s.numOfMergedTransitions + numOfSiblings }
  if ← Pool.get s.flagPool matchedIndex then pure s
  else pure { s with
    numOfMergingStates := s.numOfMergingStates + 1, flagPool := ← Pool.set s.flagPool matchedIndex true }

/-- The table is expanded when it is getting full. -/
def expanded : Except Fault DawgBuilder :=
  if s.numOfStates ≥ s.hashTable.length - (s.hashTable.length >>> 2) then s.expandHashTable else pure s

/-- A unit and its siblings are found among the transitions, or become some. -/
def matchUnit (numOfSiblings unfixedIndex : ℕ) : Except Fault (ℕ × DawgBuilder) := do
  let (matchedIndex, hashId) ← s.findUnit unfixedIndex
  if matchedIndex ≠ 0 then do pure (matchedIndex, ← s.mergeTransitions numOfSiblings matchedIndex)
  else s.fixTransitions numOfSiblings unfixedIndex hashId

/-- The body of the loop of `FixUnits`. -/
def fixUnit : Except Fault DawgBuilder := do
  let unfixedIndex ← s.topUnfixed
  let s ← { s with unfixedUnits := s.unfixedUnits.tail }.expanded
  let numOfSiblings ← s.forSiblings (fun n _ => pure (n + 1)) 0 unfixedIndex
  let (matchedIndex, s) ← s.matchUnit numOfSiblings unfixedIndex
  let s ← s.forSiblings (fun s' current => pure (s'.freeUnit current)) s unfixedIndex
  s.modifyUnit (← s.topUnfixed) fun unit => { unit with child := matchedIndex }

/-- `FixUnits`. -/
def fixUnits : ℕ → DawgBuilder → ℕ → Except Fault DawgBuilder
  | 0, _, _ => .error .diverges
  | fuel + 1, s, index => do
    if (← s.topUnfixed) = index then pure { s with unfixedUnits := s.unfixedUnits.tail }
    else fixUnits fuel (← s.fixUnit) index

/-! ### Inserting keys -/

/-- `Init`. -/
def init : Except Fault DawgBuilder := do
  let s := { s with hashTable := List.replicate s.initialHashTableSize 0 }
  let (_, s) ← s.allocateUnit
  let (_, s) := s.allocateTransition
  let s ← s.modifyUnit 0 fun unit => { unit with label := 0xFF }
  pure { s with unfixedUnits := 0 :: s.unfixedUnits }

/-- The builder is initialized if it is not. -/
def initialized : Except Fault DawgBuilder := if s.hashTable.isEmpty then s.init else pure s

/-- The first loop of `InsertKey`, over the labels of the key and the `'\0'` after them: it finds a separate unit. -/
def separate (s : DawgBuilder) (index : ℕ) : List UInt8 → Except Fault (Option (DawgBuilder × ℕ × List UInt8))
  | [] => pure (some (s, index, []))
  | keyLabel :: labels => do
    let childIndex := (← Pool.get s.unitPool index).child
    if childIndex = 0 then pure (some (s, index, keyLabel :: labels))
    else do
      let unitLabel := (← Pool.get s.unitPool childIndex).label
      if keyLabel < unitLabel then pure none
      else if keyLabel > unitLabel then do
        let s ← s.modifyUnit childIndex fun unit => { unit with hasSibling := true }
        let s ← fixUnits s.unfixedUnits.length s childIndex
        pure (some (s, index, keyLabel :: labels))
      else separate s childIndex labels

/-- The body of the second loop of `InsertKey`: the new unit. -/
def addUnit (index : ℕ) (keyLabel : UInt8) : Except Fault (ℕ × DawgBuilder) := do
  let (childIndex, s) ← s.allocateUnit
  let child := (← Pool.get s.unitPool index).child
  let s ← s.modifyUnit childIndex fun unit => if child = 0 then { unit with isState := true } else unit
  let s ← s.modifyUnit childIndex fun unit => { unit with sibling := child }
  let s ← s.modifyUnit childIndex fun unit => { unit with label := keyLabel }
  let s ← s.modifyUnit index fun unit => { unit with child := childIndex }
  pure (childIndex, { s with unfixedUnits := childIndex :: s.unfixedUnits })

/-- The second loop of `InsertKey`: it adds new units. -/
def addUnits (s : DawgBuilder) (index : ℕ) : List UInt8 → Except Fault (ℕ × DawgBuilder)
  | [] => pure (index, s)
  | keyLabel :: labels => do
    let (index, s) ← s.addUnit index keyLabel
    s.addUnits index labels

/-- `InsertKey`. -/
def insertKey (key : List UInt8) (value : ℤ) : Except Fault (Bool × DawgBuilder) := do
  let s ← s.initialized
  match ← s.separate 0 (key ++ [0]) with
  | none => pure (false, s)
  | some (s, index, labels) =>
    let (index, s) ← s.addUnits index labels
    let s ← s.modifyUnit index fun unit => unit.setValue value
    pure (true, s)

/-- `Insert` of a key with a length; `none` is a null pointer. -/
def insert (key : Option (List UInt8)) (value : ℤ) : Except Fault (Bool × DawgBuilder) :=
  match key with
  | none => pure (false, s)
  | some key => if key.length = 0 ∨ value < 0 ∨ 0 ∈ key then pure (false, s) else s.insertKey key value

/-- `Insert` of a C string. -/
def insertString (key : Option (Block UInt8)) (value : ℤ) : Except Fault (Bool × DawgBuilder) :=
  match key with
  | none => pure (false, s)
  | some key => do
    let first ← key.read 0
    if first = 0 ∨ value < 0 then pure (false, s) else s.insertKey (← cstr key) value

/-- `Finish`. -/
def finish : Except Fault (Dawg × DawgBuilder) := do
  let s ← s.initialized
  let s ← fixUnits s.unfixedUnits.length s 0
  let unit ← Pool.get s.unitPool 0
  let basePool ← Pool.set s.basePool 0 ⟨unit.base⟩
  let labelPool ← s.labelPool.write 0 unit.label
  pure (⟨basePool, labelPool, s.flagPool, s.numOfStates, s.numOfMergedTransitions, s.numOfMergedStates,
    s.numOfMergingStates⟩, construct s.initialHashTableSize)

end DawgBuilder

end InfixSearch.Dawgdic
