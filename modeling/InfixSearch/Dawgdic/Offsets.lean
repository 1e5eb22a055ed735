import InfixSearch.Dawgdic.Placing

/-!
# Offsets for states

The builder goes over the ring of the units that are not fixed, for one that is free for the
first label of a state while the units of its other labels are free as well, and whose offset is
not used and can be encoded (`Good`). If there is none, then it takes an offset in the next block
(`exists_findGoodOffset`), which can be encoded unless the dictionary is full
(`encodable_nextOffset`).
-/

namespace InfixSearch.Dawgdic

open Library DictionaryUnit DictionaryBuilder

/-! ### Offsets that can be encoded -/

theorem encodable_of_mod {r : ℕ} (h : r < 2 ^ 29) (hmod : r % 256 = 0) : Encodable r := .inr ⟨h, hmod⟩

/-- What the masks let through can be encoded. -/
theorem encodable_of_encodable {r : ℕ} (h : r < 2 ^ 29) (he : encodable r = true) : Encodable r := by
  have hnat : (BitVec.ofNat 32 r).toNat = r := by
    rw [BitVec.toNat_ofNat]
    omega
  rw [encodable, Bool.or_eq_true, beq_iff_eq, beq_iff_eq] at he
  rcases he with he | he
  · refine encodable_of_mod h ?_
    have hlow := congrArg BitVec.toNat he
    rwa [BitVec.toNat_and, hnat, show lowerMask.toNat = 2 ^ 8 - 1 by decide, Nat.and_two_pow_sub_one_eq_mod] at hlow
  · left
    by_contra hlt
    have hsplit : BitVec.ofNat 32 r = BitVec.ofNat 32 r &&& (2 ^ 21 - 1 : BaseType) := by
      have hall : BitVec.ofNat 32 r &&& (upperMask ||| (2 ^ 21 - 1 : BaseType)) = BitVec.ofNat 32 r := by
        rw [show (upperMask ||| (2 ^ 21 - 1 : BaseType)) = BitVec.allOnes 32 by decide, BitVec.and_allOnes]
      rw [BitVec.and_or_distrib_left, he] at hall
      exact hall.symm.trans (BitVec.zero_or)
    have hmod := congrArg BitVec.toNat hsplit
    rw [BitVec.toNat_and, hnat, show ((2 ^ 21 - 1 : BaseType)).toNat = 2 ^ 21 - 1 by decide,
      Nat.and_two_pow_sub_one_eq_mod] at hmod
    omega

/-- The offset in the next block. -/
theorem nextOffset_eq (n i : ℕ) : n * 256 ||| (i &&& 0xFF) = n * 256 + i % 256 := by
  rw [show (0xFF : ℕ) = 2 ^ 8 - 1 by decide, Nat.and_two_pow_sub_one_eq_mod, show (256 : ℕ) = 2 ^ 8 by decide,
    ← Nat.shiftLeft_eq,
    Nat.shiftLeft_add_eq_or_of_lt (Nat.mod_lt _ (by decide))]

/-- It can be encoded unless the dictionary is full. -/
theorem encodable_nextOffset {n i : ℕ} (hn : n < 2 ^ 21) (hi : i < 2 ^ 29) :
    Encodable (i ^^^ (n * 256 ||| (i &&& 0xFF))) := by
  rw [nextOffset_eq]
  refine encodable_of_mod (Nat.xor_lt_two_pow hi (by omega)) ?_
  rw [show (256 : ℕ) = 2 ^ 8 by decide, Nat.xor_mod_two_pow, Nat.add_mod, Nat.mul_mod_left, Nat.zero_add, Nat.mod_mod,
    Nat.mod_mod, Nat.xor_self]

/-- Then it cannot. -/
theorem le_nextOffset {i : ℕ} (hi : i < 2 ^ 29) : 2 ^ 29 ≤ i ^^^ (2 ^ 21 * 256 ||| (i &&& 0xFF)) := by
  have hdiv : (i ^^^ (2 ^ 21 * 256 ||| (i &&& 0xFF))) / 2 ^ 29 = 1 := by
    rw [nextOffset_eq, Nat.xor_div_two_pow, Nat.div_eq_of_lt hi, Nat.zero_xor]
    omega
  omega

/-! ### The search -/

/-- An offset at which a state can be placed. -/
structure Good (s : DictionaryBuilder) (v : Marks) (labels : List UInt8) (index offset : ℕ) : Prop where
  /-- It is in one of the last blocks. -/
  live : Live s.extras.length offset
  /-- It is not used. -/
  unused : v.used offset = false
  /-- The units of the labels are free. -/
  free : ∀ c ∈ labels, v.fixed (cell offset c) = false
  /-- It can be encoded. -/
  encodable : Encodable (index ^^^ offset)

namespace DictionaryBuilder

variable {s : DictionaryBuilder} {v : Marks} {c : UInt8} {labels : List UInt8} {index offset u : ℕ}

theorem Marked.collides_eq (h : s.Marked v) (hlive : Live s.extras.length offset) :
    s.collides offset labels = .ok (labels.any fun c => v.fixed (cell offset c)) := by
  induction labels with
  | nil => rfl
  | cons c labels ih =>
    have hcell : Live s.extras.length (cell offset c) := by
      rw [Live, cell_div]
      exact hlive
    have hextra : s.extra (offset ^^^ c.toNat) = .ok (v.at (cell offset c)) := h.extra_eq hcell
    rw [collides, hextra, ok_bind, Marks.at, DictionaryExtraUnit.isFixed_linked, List.any_cons, ih]
    cases v.fixed (cell offset c) <;> rfl

theorem Marked.exists_isGoodOffset (h : s.Marked v) (hlive : Live s.extras.length offset)
    (hfirst : v.fixed (cell offset c) = false) (hindex : index < 2 ^ 29) (hoffset : offset < 2 ^ 29) :
    ∃ b, s.isGoodOffset (c :: labels) index offset = .ok b ∧ (b = true → Good s v (c :: labels) index offset) := by
  rw [isGoodOffset, h.extra_eq hlive, ok_bind, Marks.at, DictionaryExtraUnit.isUsed_linked, List.tail_cons,
    h.collides_eq hlive]
  cases hused : v.used offset with
  | true => exact ⟨false, rfl, fun hc => absurd hc Bool.false_ne_true⟩
  | false =>
    cases he : encodable (index ^^^ offset) with
    | false => exact ⟨false, rfl, fun hc => absurd hc Bool.false_ne_true⟩
    | true =>
      refine ⟨!labels.any fun c => v.fixed (cell offset c), rfl, fun hb => ⟨hlive, hused, ?_, ?_⟩⟩
      · rw [Bool.not_eq_true', List.any_eq_false] at hb
        refine List.forall_mem_cons.mpr ⟨hfirst, fun c hc => ?_⟩
        rw [← Bool.not_eq_true]
        exact hb c hc
      · exact encodable_of_encodable (Nat.xor_lt_two_pow hindex hoffset) he

/-- The offset is tried that leads to a free unit with the first label. -/
theorem Unused.exists_isGoodOffset_unit (h : s.Unused v) (hu : Live s.extras.length u ∧ v.fixed u = false)
    (hindex : index < 2 ^ 29) (hbound : s.units.length ≤ 2 ^ 29) :
    ∃ b, s.isGoodOffset (c :: labels) index (u ^^^ c.toNat) = .ok b ∧ (b = true → Good s v (c :: labels) index (u ^^^ c.toNat)) := by
  have hlive : Live s.extras.length (u ^^^ c.toNat) := by
    rw [Live, show u ^^^ c.toNat = cell u c from rfl, cell_div]
    exact hu.1
  refine h.marked.exists_isGoodOffset hlive ?_ hindex ?_
  · rw [show u ^^^ c.toNat = cell u c from rfl, cell_cell]
    exact hu.2
  · have := hlive.lt
    rw [h.marked.units] at hbound
    omega

/-- The units that are left in the ring are tried one by one. -/
theorem Unused.exists_scanUnused (h : s.Unused v) {pre post : List ℕ} (hring : Ring v.next v.prev (pre ++ u :: post))
    (hhead : s.unfixedIndex = (pre ++ u :: post).headD s.units.length)
    (hmem : ∀ i ∈ pre ++ u :: post, Live s.extras.length i ∧ v.fixed i = false) {fuel : ℕ} (hfuel : post.length < fuel)
    (hindex : index < 2 ^ 29) (hbound : s.units.length ≤ 2 ^ 29) :
    ∃ offset, s.scanUnused (c :: labels) index fuel u = .ok offset ∧
      (offset = s.units.length ||| (index &&& 0xFF) ∨ Good s v (c :: labels) index offset) := by
  induction post generalizing pre u fuel with
  | nil =>
    obtain ⟨b, hgood, hb⟩ := h.exists_isGoodOffset_unit (hmem u (by simp)) hindex hbound
    obtain ⟨fuel, rfl⟩ := Nat.exists_eq_succ_of_ne_zero (Nat.ne_zero_of_lt hfuel)
    obtain ⟨hlive, hfree⟩ := hmem u (by simp)
    have hnext : v.next u = s.unfixedIndex := by
      rw [hhead]
      cases pre with
      | nil => exact (hring.next_last (x := u) rfl).1
      | cons a pre => exact (hring.next_last (l := pre ++ [u]) (List.getLast?_concat (l := a :: pre))).1
    rw [scanUnused, Pool.get_eq rfl, ok_bind, hgood, ok_bind, h.marked.extra_eq hlive, ok_bind,
      (h.links hlive hfree).1, hnext]
    cases b with
    | true => exact ⟨_, rfl, .inr (hb rfl)⟩
    | false => exact ⟨_, by rw [if_neg Bool.false_ne_true, if_neg (not_not_intro rfl)]; rfl, .inl rfl⟩
  | cons y post ih =>
    obtain ⟨b, hgood, hb⟩ := h.exists_isGoodOffset_unit (hmem u (by simp)) hindex hbound
    obtain ⟨fuel, rfl⟩ := Nat.exists_eq_succ_of_ne_zero (Nat.ne_zero_of_lt hfuel)
    obtain ⟨hlive, hfree⟩ := hmem u (by simp)
    have hnext : v.next u = y := hring.next.1
    have hne : y ≠ s.unfixedIndex := by
      rw [hhead]
      intro hy
      have hnodup := hring.nodup
      rw [List.append_cons] at hnodup
      refine List.disjoint_of_nodup_append hnodup ?_ List.mem_cons_self
      rw [hy]
      cases pre <;> simp
    rw [scanUnused, Pool.get_eq rfl, ok_bind, hgood, ok_bind, h.marked.extra_eq hlive, ok_bind,
      (h.links hlive hfree).1, hnext]
    cases b with
    | true => exact ⟨_, rfl, .inr (hb rfl)⟩
    | false =>
      rw [if_neg Bool.false_ne_true, if_pos hne]
      rw [List.append_cons] at hring hhead hmem
      exact ih hring hhead hmem (Nat.lt_of_succ_lt_succ hfuel)

/-- An offset is found that is good, or in the next block. -/
theorem Unused.exists_findGoodOffset (h : s.Unused v) (c : UInt8) (labels : List UInt8) (hindex : index < 2 ^ 29)
    (hbound : s.units.length ≤ 2 ^ 29) :
    ∃ offset, s.findGoodOffset (c :: labels) index = .ok offset ∧
      (offset = s.units.length ||| (index &&& 0xFF) ∨ Good s v (c :: labels) index offset) := by
  obtain ⟨l, hring, hhead, hmem⟩ := h.ring
  have hlt : ∀ i ∈ l, i < s.units.length := fun i hi => h.marked.units ▸ ((hmem i).mp hi).1.lt
  rw [findGoodOffset, numOfUnits]
  cases l with
  | nil => exact ⟨_, if_pos hhead.ge, .inl rfl⟩
  | cons u l =>
    have hunfixed : s.unfixedIndex = u := hhead
    have hcard : (u :: l).length ≤ s.units.length := by
      rw [← List.toFinset_card_of_nodup hring.nodup, ← Finset.card_range s.units.length]
      refine Finset.card_le_card fun i hi => ?_
      rw [List.mem_toFinset] at hi
      exact Finset.mem_range.mpr (hlt i hi)
    rw [hunfixed, if_neg (not_le.mpr (hlt u List.mem_cons_self))]
    exact h.exists_scanUnused (show Ring v.next v.prev ([] ++ u :: l) from hring) hhead (fun i hi => (hmem i).mp hi)
      (by rw [List.length_cons] at hcard; omega) hindex hbound

end DictionaryBuilder

end InfixSearch.Dawgdic
