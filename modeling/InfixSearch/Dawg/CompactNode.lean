import InfixSearch.Library.Bits

/-!
# Compact nodes

The Java port of `dawgdic` keeps the nodes of a graph of words as `Node` objects while it is
built, and makes an `int` of each: the index of the child, or the value of a word at its end,
above two bits or one for the flags. `CompactNode` reads such an `int`. It shifts the index
down with `>>`, which keeps the sign: an index whose highest bit came to stand at the sign
comes back negative (`decodes_iff`).

An `int` is an `Int32`: its shifts take the distance modulo 32 and `>>` is arithmetic, as in Java.
-/

namespace InfixSearch.Dawg

open Library

/-- `EOL`, the label of the end of a word. -/
def eol : UInt16 := 10

/-- `Node`. -/
structure Node where
  /-- `child`. -/
  child : Int32
  /-- `sibling`. -/
  sibling : Int32
  /-- `label`. -/
  label : UInt16
  /-- `isState`. -/
  isState : Bool
  /-- `hasSibling`. -/
  hasSibling : Bool

/-- `CompactNode`. -/
structure CompactNode where
  /-- `compactNodeInt`. -/
  compactNodeInt : Int32

namespace Node

/-- The constructor. -/
def construct : Node := ⟨0, 0, eol, false, false⟩

/-- `getCompactNodeInt`. -/
def getCompactNodeInt (n : Node) : Int32 :=
  if n.label = eol then n.child <<< 1 ||| (if n.hasSibling then 1 else 0)
  else n.child <<< 2 ||| (if n.isState then 2 else 0) ||| (if n.hasSibling then 1 else 0)

end Node

namespace CompactNode

/-- The constructor. -/
def construct : CompactNode := ⟨0⟩

/-- `setCompactNodeInt`. -/
def setCompactNodeInt (_ : CompactNode) (compactNodeInt : Int32) : CompactNode := ⟨compactNodeInt⟩

/-- `BITSHIFTS_VALUE`. -/
def bitshiftsValue : Int32 := 1

/-- `BITSHIFTS_CHILD`. -/
def bitshiftsChild : Int32 := 2

/-- `BIT_MASK_SIBLING`. -/
def bitMaskSibling : Int32 := 1

/-- `BIT_MASK_STATE`. -/
def bitMaskState : Int32 := 2

/-- `getChild`. -/
def getChild (n : CompactNode) : Int32 := n.compactNodeInt >>> bitshiftsChild

/-- `hasSibling`. -/
def hasSibling (n : CompactNode) : Bool := if n.compactNodeInt &&& bitMaskSibling > 0 then true else false

/-- `getValue`. -/
def getValue (n : CompactNode) : Int32 := n.compactNodeInt >>> bitshiftsValue

/-- `isState`. -/
def isState (n : CompactNode) : Bool := if n.compactNodeInt &&& bitMaskState > 0 then true else false

end CompactNode

namespace Node

variable {n : Node}

/-- The compact node that is read. -/
def compact (n : Node) : CompactNode := CompactNode.construct.setCompactNodeInt n.getCompactNodeInt

/-- The child fits above the flags. -/
def Fits (n : Node) : Prop := 0 ≤ n.child.toInt ∧ n.child.toInt < if n.label = eol then 2 ^ 31 else 2 ^ 30

/-- What was put into the compact node is read from it. -/
def Decodes (n : Node) : Prop :=
  n.compact.hasSibling = n.hasSibling ∧
    if n.label = eol then n.compact.getValue = n.child
    else n.compact.getChild = n.child ∧ n.compact.isState = n.isState

/-- The flags of a node. -/
def flags (n : Node) : BitVec 32 :=
  if n.label = eol then (if n.hasSibling then 1 else 0) else (if n.isState then 2 else 0) ||| (if n.hasSibling then 1 else 0)

/-- How many bits they take. -/
def bits (n : Node) : ℕ := if n.label = eol then 1 else 2

theorem toBitVec_getCompactNodeInt (n : Node) : n.getCompactNodeInt.toBitVec = pack n.child.toBitVec n.bits n.flags := by
  by_cases hlabel : n.label = eol
  · simp only [getCompactNodeInt, bits, flags, if_pos hlabel, pack]
    cases n.hasSibling
    · rfl
    · rfl
  · simp only [getCompactNodeInt, bits, flags, if_neg hlabel, pack, Int32.toBitVec_or, BitVec.or_assoc]
    cases n.isState
    · cases n.hasSibling
      · rfl
      · rfl
    · cases n.hasSibling
      · rfl
      · rfl

theorem flags_lt (n : Node) : n.flags.toNat < 2 ^ n.bits := by
  have hend : ∀ sibling : Bool, (if sibling then 1 else 0 : BitVec 32).toNat < 2 ^ 1 := by decide
  have hinner : ∀ state sibling : Bool,
      ((if state then 2 else 0 : BitVec 32) ||| if sibling then 1 else 0).toNat < 2 ^ 2 := by decide
  by_cases hlabel : n.label = eol
  · simp only [flags, bits, if_pos hlabel]
    exact hend n.hasSibling
  · simp only [flags, bits, if_neg hlabel]
    exact hinner n.isState n.hasSibling

/-- A mask of the flags sees only them. -/
theorem getCompactNodeInt_and {m : Int32} (hm : m.toBitVec.toNat < 2 ^ n.bits) :
    n.getCompactNodeInt &&& m = Int32.ofBitVec (n.flags &&& m.toBitVec) := by
  rw [← Int32.toBitVec_inj, Int32.toBitVec_and, toBitVec_getCompactNodeInt]
  exact pack_and hm

/-- The sibling flag is always read as it was. -/
theorem hasSibling_compact (n : Node) : n.compact.hasSibling = n.hasSibling := by
  have hmask : n.getCompactNodeInt &&& 1 = Int32.ofBitVec (n.flags &&& 1) := by
    refine getCompactNodeInt_and (Nat.one_lt_two_pow ?_)
    rw [bits]
    split_ifs
    · exact one_ne_zero
    · exact two_ne_zero
  have hend : ∀ sibling : Bool,
      (if Int32.ofBitVec ((if sibling then 1 else 0) &&& 1) > 0 then true else false) = sibling := by decide
  have hinner : ∀ state sibling : Bool,
      (if Int32.ofBitVec (((if state then 2 else 0) ||| if sibling then 1 else 0) &&& 1) > 0 then true else false) = sibling := by
    decide
  simp only [CompactNode.hasSibling, compact, CompactNode.setCompactNodeInt, CompactNode.bitMaskSibling, hmask, flags]
  by_cases hlabel : n.label = eol
  · simp only [if_pos hlabel]
    exact hend n.hasSibling
  · simp only [if_neg hlabel]
    exact hinner n.isState n.hasSibling

/-- So is the state flag, where there is one. -/
theorem isState_compact (hlabel : n.label ≠ eol) : n.compact.isState = n.isState := by
  have hmask : n.getCompactNodeInt &&& 2 = Int32.ofBitVec (n.flags &&& 2) := by
    refine getCompactNodeInt_and ?_
    rw [bits, if_neg hlabel]
    decide
  have hinner : ∀ state sibling : Bool,
      (if Int32.ofBitVec (((if state then 2 else 0) ||| if sibling then 1 else 0) &&& 2) > 0 then true else false) = state := by
    decide
  simp only [CompactNode.isState, compact, CompactNode.setCompactNodeInt, CompactNode.bitMaskState, hmask, flags, if_neg hlabel]
  exact hinner n.isState n.hasSibling

theorem toNat_child (h : 0 ≤ n.child.toInt) : (n.child.toBitVec.toNat : ℤ) = n.child.toInt := by
  have hmsb : n.child.toBitVec.msb = false := by
    rw [BitVec.msb_eq_toInt, decide_eq_false_iff_not, not_lt]
    exact h
  exact (BitVec.toInt_eq_toNat_of_msb hmsb).symm

/-- The index comes back if and only if it has not reached the sign. -/
theorem sshiftRight_getCompactNodeInt_iff (h : n.Fits) :
    n.getCompactNodeInt.toBitVec.sshiftRight n.bits = n.child.toBitVec ↔ n.child.toInt < 2 ^ (31 - n.bits) := by
  obtain ⟨hnonneg, hlt⟩ := h
  have hnat := toNat_child hnonneg
  have hchild : n.child.toBitVec.toNat < 2 ^ (32 - n.bits) := by
    rw [bits]
    split_ifs at hlt ⊢
    · omega
    · omega
  have hbits : 0 < n.bits ∧ n.bits < 32 := by
    rw [bits]
    split_ifs
    · decide
    · decide
  rw [toBitVec_getCompactNodeInt, sshiftRight_pack_eq_iff hbits.1 hbits.2 hchild n.flags_lt, ← hnat]
  exact_mod_cast Iff.rfl

/-- **What comes back.** Of a node whose child fits above its flags, the compact node has the
sibling flag, the value or the child, and the state flag, if and only if the child does not
come to stand at the sign. -/
theorem decodes_iff (h : n.Fits) : n.Decodes ↔ n.child.toInt < if n.label = eol then 2 ^ 30 else 2 ^ 29 := by
  have hshift := sshiftRight_getCompactNodeInt_iff h
  by_cases hlabel : n.label = eol
  · have hvalue : n.compact.getValue = n.child ↔ n.getCompactNodeInt.toBitVec.sshiftRight 1 = n.child.toBitVec :=
      Int32.toBitVec_inj.symm
    simp only [bits, if_pos hlabel] at hshift
    simp only [Decodes, if_pos hlabel, hasSibling_compact, hvalue, hshift, true_and]
  · have hchild : n.compact.getChild = n.child ↔ n.getCompactNodeInt.toBitVec.sshiftRight 2 = n.child.toBitVec :=
      Int32.toBitVec_inj.symm
    simp only [bits, if_neg hlabel] at hshift
    simp only [Decodes, if_neg hlabel, hasSibling_compact, isState_compact hlabel, hchild, hshift, true_and, and_true]

theorem decodes_iff_five : (⟨5, 0, 97, true, false⟩ : Node).Decodes ↔
    (⟨5, 0, 97, true, false⟩ : Node).child.toInt < if (⟨5, 0, 97, true, false⟩ : Node).label = eol then 2 ^ 30 else 2 ^ 29 :=
  decodes_iff ⟨by decide, by decide⟩

/-- A value of `2³⁰` comes back as `-2³⁰`. -/
theorem not_decodes : (⟨2 ^ 30, 0, eol, false, false⟩ : Node).Fits ∧
    (⟨2 ^ 30, 0, eol, false, false⟩ : Node).compact.getValue = -2 ^ 30 ∧ ¬ (⟨2 ^ 30, 0, eol, false, false⟩ : Node).Decodes := by
  refine ⟨⟨by decide, by decide⟩, by decide, ?_⟩
  rintro ⟨-, hvalue⟩
  revert hvalue
  decide

end Node

end InfixSearch.Dawg
