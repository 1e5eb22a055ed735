import InfixSearch.Dawgdic.Units

/-!
# Units of a dictionary

A unit of a dictionary holds a value, with a bit that says so, or else a label, an offset and
whether a value is among its children. An offset takes 21 bits; one that needs up to 29 is held
without its low 8 bits, which must then be zero (`Encodable`), and with a bit that says so. As
long as only such offsets are set, the parts of a unit do not get into each other's way:
`DictionaryUnit.inner` is the unit with given parts, and the setters and getters are those of a
record (`inner_setOffset`, `offset_inner` and so on).

A builder links the units it has not used yet in a ring, and keeps two flags below the links
(`DictionaryExtraUnit`).
-/

namespace InfixSearch.Dawgdic

open Library

/-- `DictionaryUnit`. -/
structure DictionaryUnit where
  /-- `base_`. -/
  base : BaseType
  deriving DecidableEq

namespace DictionaryUnit

/-- `OFFSET_MAX`. -/
def offsetMax : ℕ := 1 <<< 21

/-- `IS_LEAF_BIT`. -/
def isLeafBit : BaseType := 1 <<< 31

/-- `HAS_LEAF_BIT`. -/
def hasLeafBit : BaseType := 1 <<< 8

/-- `EXTENSION_BIT`. -/
def extensionBit : BaseType := 1 <<< 9

/-- The constructor. -/
def construct : DictionaryUnit := ⟨0⟩

variable (u : DictionaryUnit)

/-- `set_has_leaf`. -/
def setHasLeaf : DictionaryUnit := ⟨u.base ||| hasLeafBit⟩

/-- `set_value`. -/
def setValue (_ : DictionaryUnit) (value : ℤ) : DictionaryUnit := ⟨BitVec.ofInt 32 value ||| isLeafBit⟩

/-- `set_label`. -/
def setLabel (label : UInt8) : DictionaryUnit := ⟨u.base &&& ~~~(0xFF : BaseType) ||| BitVec.ofNat 32 label.toNat⟩

/-- `set_offset`: `none` if it fails. -/
def setOffset (offset : ℕ) : Option DictionaryUnit :=
  if offset ≥ offsetMax <<< 8 then none
  else
    let base := u.base &&& (isLeafBit ||| hasLeafBit ||| 0xFF)
    if offset < offsetMax then some ⟨base ||| BitVec.ofNat 32 offset <<< 10⟩
    else some ⟨base ||| (BitVec.ofNat 32 offset <<< 2 ||| extensionBit)⟩

/-- `has_leaf`. -/
def hasLeaf : Bool := if u.base &&& hasLeafBit ≠ 0 then true else false

/-- `value`. -/
def value : ℤ := (u.base &&& ~~~isLeafBit).toInt

/-- `label`, with the bit of a leaf. -/
def label : BaseType := u.base &&& (isLeafBit ||| 0xFF)

/-- `offset`. -/
def offset : ℕ := ((u.base >>> 10) <<< ((u.base &&& extensionBit) >>> 6).toNat).toNat

end DictionaryUnit

/-- `DictionaryExtraUnit`. -/
structure DictionaryExtraUnit where
  /-- `lo_values_`. -/
  lo : BaseType
  /-- `hi_values_`. -/
  hi : BaseType
  deriving DecidableEq

namespace DictionaryExtraUnit

/-- The constructor, and `clear`. -/
def construct : DictionaryExtraUnit := ⟨0, 0⟩

variable (e : DictionaryExtraUnit)

/-- `set_is_fixed`. -/
def setIsFixed : DictionaryExtraUnit := { e with lo := e.lo ||| 1 }

/-- `set_next`. -/
def setNext (next : ℕ) : DictionaryExtraUnit := { e with lo := e.lo &&& (1 : BaseType) ||| BitVec.ofNat 32 next <<< 1 }

/-- `set_is_used`. -/
def setIsUsed : DictionaryExtraUnit := { e with hi := e.hi ||| 1 }

/-- `set_prev`. -/
def setPrev (prev : ℕ) : DictionaryExtraUnit := { e with hi := e.hi &&& (1 : BaseType) ||| BitVec.ofNat 32 prev <<< 1 }

/-- `is_fixed`. -/
def isFixed : Bool := e.lo &&& 1 == 1

/-- `next`. -/
def next : ℕ := (e.lo >>> 1).toNat

/-- `is_used`. -/
def isUsed : Bool := e.hi &&& 1 == 1

/-- `prev`. -/
def prev : ℕ := (e.hi >>> 1).toNat

end DictionaryExtraUnit

/-! ### The parts of a unit -/

/-- There are bits enough for an offset. -/
def Encodable (offset : ℕ) : Prop := offset < 2 ^ 21 ∨ offset < 2 ^ 29 ∧ offset % 2 ^ 8 = 0

namespace DictionaryUnit

variable {c : UInt8} {b : Bool} {offset : ℕ}

/-- The bits of an offset. -/
def offsetBits (offset : ℕ) : BaseType :=
  if offset < 2 ^ 21 then pack (BitVec.ofNat 32 offset) 10 0 else pack (BitVec.ofNat 32 (offset / 2 ^ 8)) 10 extensionBit

/-- The unit with a label, an offset, and a value among its children if `b` is set. -/
def inner (c : UInt8) (b : Bool) (offset : ℕ) : DictionaryUnit :=
  ⟨(if b then hasLeafBit else 0) ||| BitVec.ofNat 32 c.toNat ||| offsetBits offset⟩

/-- The unit with a value. -/
def leaf (value : ℕ) : DictionaryUnit := ⟨BitVec.ofNat 32 value ||| isLeafBit⟩

/-- The parts that `set_offset` keeps. -/
def keptBits : BaseType := isLeafBit ||| hasLeafBit ||| 0xFF

theorem offsetBits_and (h : Encodable offset) : offsetBits offset &&& keptBits = 0#32 := by
  have hsplit : keptBits = isLeafBit ||| (hasLeafBit ||| 0xFF) := by decide
  have hlow : (hasLeafBit ||| 0xFF : BaseType).toNat < 2 ^ 10 := by decide
  have htop : ∀ b : BaseType, b.toNat < 2 ^ 31 → b &&& isLeafBit = 0#32 := by
    intro b hb
    apply BitVec.eq_of_toNat_eq
    rw [BitVec.toNat_and, show isLeafBit.toNat = 2 ^ 31 by decide, Nat.and_two_pow, Nat.testBit_lt_two_pow hb]
    rfl
  rw [hsplit, BitVec.and_or_distrib_left, offsetBits]
  split_ifs with hlt
  · have hnat : (BitVec.ofNat 32 offset).toNat = offset := by simp; omega
    rw [pack_and hlow, htop _ (by rw [toNat_pack (by omega) (by decide), hnat]; simp; omega)]
    rfl
  · have hoff : offset < 2 ^ 29 := by
      rcases h with h | h
      · exact absurd h hlt
      · exact h.1
    have hnat : (BitVec.ofNat 32 (offset / 2 ^ 8)).toNat = offset / 2 ^ 8 := by simp; omega
    rw [pack_and hlow, htop _ (by rw [toNat_pack (by omega) (by decide), hnat, show extensionBit.toNat = 2 ^ 9 by decide]; omega)]
    decide

theorem offset_offsetBits (h : Encodable offset) :
    ((offsetBits offset >>> 10) <<< ((offsetBits offset &&& extensionBit) >>> 6).toNat).toNat = offset := by
  have hext : extensionBit.toNat < 2 ^ 10 := by decide
  rw [offsetBits]
  split_ifs with hlt
  · have hnat : (BitVec.ofNat 32 offset).toNat = offset := by simp; omega
    rw [pack_and hext, show (((0 : BaseType) &&& extensionBit) >>> 6).toNat = 0 by decide, BitVec.shiftLeft_zero,
      BitVec.toNat_ushiftRight, toNat_pack (by omega) (by decide), hnat, Nat.shiftRight_eq_div_pow]
    simp
  · obtain ⟨hoff, hmod⟩ : offset < 2 ^ 29 ∧ offset % 2 ^ 8 = 0 := h.resolve_left hlt
    have hnat : (BitVec.ofNat 32 (offset / 2 ^ 8)).toNat = offset / 2 ^ 8 := by simp; omega
    have hpack : (pack (BitVec.ofNat 32 (offset / 2 ^ 8)) 10 extensionBit).toNat = offset / 2 ^ 8 * 2 ^ 10 + 2 ^ 9 := by
      rw [toNat_pack (by omega) (by decide), hnat]
      rfl
    rw [pack_and hext, show ((extensionBit &&& extensionBit) >>> 6).toNat = 8 by decide, BitVec.toNat_shiftLeft,
      BitVec.toNat_ushiftRight, hpack, Nat.shiftRight_eq_div_pow, Nat.shiftLeft_eq]
    omega

/-- A mask of other parts does not see the offset. -/
theorem offsetBits_and_eq_zero {m : BaseType} (h : Encodable offset) (hm : keptBits &&& m = m) : offsetBits offset &&& m = 0#32 := by
  rw [← hm, ← BitVec.and_assoc, offsetBits_and h, BitVec.zero_and]

/-- What a mask sees of the parts. -/
theorem inner_base_and {m : BaseType} (h : Encodable offset) (hm : keptBits &&& m = m) :
    (inner c b offset).base &&& m = (if b then hasLeafBit else 0) &&& m ||| BitVec.ofNat 32 c.toNat &&& m := by
  rw [inner, BitVec.and_comm, BitVec.and_or_distrib_left, BitVec.and_or_distrib_left, BitVec.and_comm m, BitVec.and_comm m,
    BitVec.and_comm m, offsetBits_and_eq_zero h hm, BitVec.or_zero]

theorem inner_zero : inner 0 false 0 = construct := by decide

theorem inner_setHasLeaf : (inner c b offset).setHasLeaf = inner c true offset := by
  have hleaf : ∀ b : Bool, (if b then hasLeafBit else 0) ||| hasLeafBit = hasLeafBit := by decide
  have hmove : (inner c b offset).base ||| hasLeafBit =
      ((if b then hasLeafBit else 0) ||| hasLeafBit) ||| BitVec.ofNat 32 c.toNat ||| offsetBits offset := by
    rw [inner]
    ac_rfl
  rw [setHasLeaf, hmove, hleaf]
  rfl

theorem inner_setLabel (h : Encodable offset) (c' : UInt8) : (inner c b offset).setLabel c' = inner c' b offset := by
  have hlabel : ∀ c : UInt8, BitVec.ofNat 32 c.toNat &&& ~~~(0xFF : BaseType) = 0#32 := by decide +kernel
  have hleaf : ∀ b : Bool, (if b then hasLeafBit else 0) &&& ~~~(0xFF : BaseType) = if b then hasLeafBit else 0 := by decide
  have hoffset : offsetBits offset &&& ~~~(0xFF : BaseType) = offsetBits offset := by
    have hsplit : offsetBits offset &&& (0xFF ||| ~~~0xFF) = offsetBits offset &&& ~~~(0xFF : BaseType) := by
      rw [BitVec.and_or_distrib_left, offsetBits_and_eq_zero h (by decide), BitVec.zero_or]
    rw [← hsplit, show (0xFF ||| ~~~0xFF : BaseType) = BitVec.allOnes 32 by decide, BitVec.and_allOnes]
  have hmask : (inner c b offset).base &&& ~~~(0xFF : BaseType) = (if b then hasLeafBit else 0) ||| offsetBits offset := by
    rw [inner, BitVec.and_comm, BitVec.and_or_distrib_left, BitVec.and_or_distrib_left, BitVec.and_comm _ (if b then _ else _), hleaf,
      BitVec.and_comm _ (BitVec.ofNat 32 _), hlabel, BitVec.and_comm _ (offsetBits _), hoffset, BitVec.or_zero]
  rw [setLabel, hmask, inner]
  congr 1
  ac_rfl

theorem inner_setOffset {offset' : ℕ} (h : Encodable offset) (h' : Encodable offset') :
    (inner c b offset).setOffset offset' = some (inner c b offset') := by
  have hlabel : ∀ c : UInt8, BitVec.ofNat 32 c.toNat &&& keptBits = BitVec.ofNat 32 c.toNat := by decide +kernel
  have hleaf : ∀ b : Bool, (if b then hasLeafBit else 0) &&& keptBits = if b then hasLeafBit else 0 := by decide
  have hlt : offset' < 2 ^ 29 := by
    rcases h' with h' | h'
    · omega
    · exact h'.1
  have hbits : (if offset' < offsetMax then BitVec.ofNat 32 offset' <<< 10 else BitVec.ofNat 32 offset' <<< 2 ||| extensionBit) =
      offsetBits offset' := by
    rw [offsetBits, show offsetMax = 2 ^ 21 by decide]
    split_ifs with hmax
    · exact BitVec.or_zero.symm
    · have hmod := (h'.resolve_left hmax).2
      have hmul : BitVec.ofNat 32 offset' = BitVec.ofNat 32 (offset' / 2 ^ 8) <<< 8 := by
        apply BitVec.eq_of_toNat_eq
        rw [BitVec.toNat_shiftLeft, BitVec.toNat_ofNat, BitVec.toNat_ofNat, Nat.shiftLeft_eq]
        omega
      rw [pack, hmul, ← BitVec.shiftLeft_add]
  rw [setOffset, if_neg (by rw [show offsetMax <<< 8 = 2 ^ 29 by decide]; omega)]
  refine (apply_ite (fun x => some (⟨(inner c b offset).base &&& keptBits ||| x⟩ : DictionaryUnit)) _ _ _).symm.trans ?_
  rw [hbits, inner_base_and h (by decide), hlabel, hleaf]
  rfl

theorem setOffset_eq_none_iff {u : DictionaryUnit} : u.setOffset offset = none ↔ 2 ^ 29 ≤ offset := by
  rw [setOffset, show offsetMax <<< 8 = 2 ^ 29 by decide]
  split_ifs with h h' <;> simp <;> omega

theorem hasLeaf_inner (h : Encodable offset) : (inner c b offset).hasLeaf = b := by
  have hlabel : ∀ c : UInt8, BitVec.ofNat 32 c.toNat &&& hasLeafBit = 0#32 := by decide +kernel
  rw [hasLeaf, inner_base_and h (by decide), hlabel, BitVec.or_zero]
  cases b <;> decide

theorem label_inner (h : Encodable offset) : (inner c b offset).label = BitVec.ofNat 32 c.toNat := by
  have hlabel : ∀ c : UInt8, BitVec.ofNat 32 c.toNat &&& (isLeafBit ||| 0xFF) = BitVec.ofNat 32 c.toNat := by decide +kernel
  have hleaf : ∀ b : Bool, (if b then hasLeafBit else 0) &&& (isLeafBit ||| 0xFF) = 0#32 := by decide
  rw [label, inner_base_and h (by decide), hlabel, hleaf, BitVec.zero_or]

theorem offset_inner (h : Encodable offset) : (inner c b offset).offset = offset := by
  have hlabel : ∀ c : UInt8, BitVec.ofNat 32 c.toNat >>> 10 = 0#32 ∧ BitVec.ofNat 32 c.toNat &&& extensionBit = 0#32 := by decide +kernel
  have hleaf : ∀ b : Bool, (if b then hasLeafBit else 0) >>> 10 = 0#32 ∧ (if b then hasLeafBit else 0) &&& extensionBit = 0#32 := by
    decide
  have hshift : (inner c b offset).base >>> 10 = offsetBits offset >>> 10 := by
    rw [inner, BitVec.ushiftRight_or_distrib, BitVec.ushiftRight_or_distrib, (hleaf b).1, (hlabel c).1, BitVec.zero_or, BitVec.zero_or]
  have hand : (inner c b offset).base &&& extensionBit = offsetBits offset &&& extensionBit := by
    rw [inner, BitVec.and_comm, BitVec.and_or_distrib_left, BitVec.and_or_distrib_left, BitVec.and_comm _ (if b then _ else _), (hleaf b).2,
      BitVec.and_comm _ (BitVec.ofNat 32 _), (hlabel c).2, BitVec.zero_or, BitVec.zero_or, BitVec.and_comm]
  rw [DictionaryUnit.offset, hshift, hand, offset_offsetBits h]

theorem value_leaf {v : ℕ} (h : v < 2 ^ 31) : (leaf v).value = v := by
  have hnat : ((leaf v).base &&& ~~~isLeafBit).toNat = v := by
    have hsplit : (leaf v).base &&& ~~~isLeafBit = BitVec.ofNat 32 v &&& ~~~isLeafBit := by
      rw [leaf, BitVec.and_comm, BitVec.and_or_distrib_left, show ~~~isLeafBit &&& isLeafBit = 0#32 by decide, BitVec.or_zero, BitVec.and_comm]
    rw [hsplit, BitVec.toNat_and, show (~~~isLeafBit).toNat = 2 ^ 31 - 1 by decide, Nat.and_two_pow_sub_one_eq_mod, BitVec.toNat_ofNat]
    omega
  rw [value, BitVec.toInt_eq_toNat_of_lt (by omega), hnat]

theorem label_leaf_ne (v : ℕ) (c : UInt8) : (leaf v).label ≠ BitVec.ofNat 32 c.toNat := by
  have hlabel : ∀ c : UInt8, BitVec.ofNat 32 c.toNat &&& isLeafBit = 0#32 := by decide +kernel
  intro h
  have hmask : (leaf v).label &&& isLeafBit = isLeafBit := by
    have hbits : (isLeafBit ||| 0xFF) &&& isLeafBit = isLeafBit := by decide
    rw [label, BitVec.and_assoc, hbits, leaf, BitVec.and_comm, BitVec.and_or_distrib_left, BitVec.and_self]
    exact BitVec.eq_of_getLsbD_eq fun i hi => by simp +contextual
  rw [h, hlabel] at hmask
  exact absurd hmask (by decide)

end DictionaryUnit

/-! ### The parts of an extra unit -/

namespace DictionaryExtraUnit

variable {fixed used : Bool} {n p i : ℕ}

/-- The extra unit with given links and flags. -/
def linked (fixed used : Bool) (n p : ℕ) : DictionaryExtraUnit :=
  ⟨pack (BitVec.ofNat 32 n) 1 (if fixed then 1 else 0), pack (BitVec.ofNat 32 p) 1 (if used then 1 else 0)⟩

theorem linked_false : linked false false 0 0 = construct := by decide

theorem flag_and (n : ℕ) (b : Bool) : pack (BitVec.ofNat 32 n) 1 (if b then 1 else 0) &&& (1 : BaseType) = if b then 1 else 0 := by
  rw [pack_and (show (1 : BaseType).toNat < 2 ^ 1 by decide)]
  cases b <;> rfl

theorem flag_or (n : ℕ) (b : Bool) : pack (BitVec.ofNat 32 n) 1 (if b then 1 else 0) ||| (1 : BaseType) = pack (BitVec.ofNat 32 n) 1 1 := by
  rw [pack, BitVec.or_assoc]
  cases b <;> rfl

theorem toNat_link (h : n < 2 ^ 31) (b : Bool) : (pack (BitVec.ofNat 32 n) 1 (if b then (1 : BaseType) else 0) >>> 1).toNat = n := by
  have hnat : (BitVec.ofNat 32 n).toNat = n := by simp; omega
  have hflag : ∀ b : Bool, (if b then (1 : BaseType) else 0).toNat < 2 ^ 1 := by decide
  have hlt := hflag b
  rw [BitVec.toNat_ushiftRight, toNat_pack (by omega) hlt, hnat, Nat.shiftRight_eq_div_pow]
  omega

theorem linked_setNext : (linked fixed used n p).setNext i = linked fixed used i p := by
  rw [setNext, linked]
  dsimp only
  rw [flag_and, BitVec.or_comm]
  rfl

theorem linked_setPrev : (linked fixed used n p).setPrev i = linked fixed used n i := by
  rw [setPrev, linked]
  dsimp only
  rw [flag_and, BitVec.or_comm]
  rfl

theorem linked_setIsFixed : (linked fixed used n p).setIsFixed = linked true used n p := by
  rw [setIsFixed, linked]
  dsimp only
  rw [flag_or]
  rfl

theorem linked_setIsUsed : (linked fixed used n p).setIsUsed = linked fixed true n p := by
  rw [setIsUsed, linked]
  dsimp only
  rw [flag_or]
  rfl

theorem isFixed_linked : (linked fixed used n p).isFixed = fixed := by
  rw [isFixed, linked]
  dsimp only
  rw [flag_and]
  cases fixed <;> rfl

theorem isUsed_linked : (linked fixed used n p).isUsed = used := by
  rw [isUsed, linked]
  dsimp only
  rw [flag_and]
  cases used <;> rfl

theorem next_linked (h : n < 2 ^ 31) : (linked fixed used n p).next = n := toNat_link h fixed

theorem prev_linked (h : p < 2 ^ 31) : (linked fixed used n p).prev = p := toNat_link h used

end DictionaryExtraUnit

end InfixSearch.Dawgdic
