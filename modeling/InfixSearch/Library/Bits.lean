import Mathlib

/-!
# Flags below a number

A number is moved up by `k` bits, and flags are put in the `k` bits below it. A mask of these
bits gets the flags back. An arithmetic shift down by `k` bits gets the number back if and only
if its bits have not reached the sign (`sshiftRight_pack_eq_iff`).
-/

namespace InfixSearch.Library

variable {w k : ℕ} {c f : BitVec w}

/-- A number and the flags below it. -/
def pack (c : BitVec w) (k : ℕ) (f : BitVec w) : BitVec w := c <<< k ||| f

/-- A mask of the flags sees only them. -/
theorem pack_and {m : BitVec w} (hm : m.toNat < 2 ^ k) : pack c k f &&& m = f &&& m := by
  have hzero : c <<< k &&& m = 0#w := by
    ext i hi
    rw [BitVec.getElem_and, BitVec.getElem_shiftLeft]
    by_cases hik : i < k
    · simp [hik]
    · have htest : m.toNat.testBit i = false :=
        Nat.testBit_lt_two_pow (hm.trans_le (Nat.pow_le_pow_right (by omega) (by omega)))
      simp [BitVec.getElem_eq_testBit_toNat, htest]
  rw [pack, BitVec.and_comm, BitVec.and_or_distrib_left, BitVec.and_comm m, hzero, BitVec.zero_or, BitVec.and_comm]

theorem toNat_pack (hc : c.toNat * 2 ^ k < 2 ^ w) (hf : f.toNat < 2 ^ k) : (pack c k f).toNat = c.toNat * 2 ^ k + f.toNat := by
  rw [pack, BitVec.toNat_or, BitVec.toNat_shiftLeft, Nat.shiftLeft_eq, Nat.mod_eq_of_lt hc, ← Nat.shiftLeft_eq,
    ← Nat.shiftLeft_add_eq_or_of_lt hf]

/-- The number comes back if and only if it has not reached the sign. -/
theorem sshiftRight_pack_eq_iff (hk : 0 < k) (hkw : k < w) (hc : c.toNat < 2 ^ (w - k)) (hf : f.toNat < 2 ^ k) :
    (pack c k f).sshiftRight k = c ↔ c.toNat < 2 ^ (w - 1 - k) := by
  have hpos : 0 < 2 ^ k := Nat.two_pow_pos k
  have hw : 2 ^ (w - k) * 2 ^ k = 2 ^ w := by rw [← pow_add, Nat.sub_add_cancel hkw.le]
  have hw₁ : 2 ^ (w - 1 - k) * 2 ^ k = 2 ^ (w - 1) := by rw [← pow_add, Nat.sub_add_cancel (by omega)]
  have hpack := toNat_pack (hw ▸ Nat.mul_lt_mul_of_pos_right hc hpos) hf
  have hmsb : (pack c k f).msb = false ↔ c.toNat < 2 ^ (w - 1 - k) := by
    rw [BitVec.msb_eq_decide, decide_eq_false_iff_not, not_le, hpack, ← hw₁]
    constructor
    · intro h
      exact Nat.lt_of_mul_lt_mul_right (show c.toNat * 2 ^ k < _ by omega)
    · intro h
      have := Nat.mul_le_mul_right (2 ^ k) (Nat.succ_le_of_lt h)
      rw [Nat.succ_mul] at this
      omega
  constructor
  · intro h
    rw [← hmsb, ← BitVec.msb_sshiftRight (n := k), h, BitVec.msb_eq_decide, decide_eq_false_iff_not, not_le]
    exact hc.trans_le (Nat.pow_le_pow_right (by omega) (by omega))
  · intro h
    apply BitVec.eq_of_toNat_eq
    rw [BitVec.sshiftRight_eq_of_msb_false (hmsb.mpr h), BitVec.toNat_ushiftRight, hpack, Nat.shiftRight_eq_div_pow,
      Nat.mul_comm, Nat.mul_add_div hpos, Nat.div_eq_of_lt hf, Nat.add_zero]

end InfixSearch.Library
