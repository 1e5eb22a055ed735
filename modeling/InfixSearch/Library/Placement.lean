import Mathlib

/-!
# Placements

Lists of entries with labels are put in an array of cells. The list at an offset puts the entry
with the label `c` in the cell whose index differs from the offset by the bits of `c` (`cell`),
so all its entries are in the block of 256 cells that the offset is in. No two entries may be
put in one cell (`Apart`). If a cell of a block is free then so is an offset
(`Apart.exists_free`).

Cell 0 and offset 0 are not for lists.
-/

namespace InfixSearch.Library

variable {α : Type*} {o o' i w : ℕ} {c c' : UInt8}

/-- The cell of a label. -/
def cell (o : ℕ) (c : UInt8) : ℕ := o ^^^ c.toNat

/-- The label that leads from an offset to a cell. -/
def labelOf (i o : ℕ) : UInt8 := UInt8.ofNat (i ^^^ o)

theorem xor_div_eq_zero_iff : (i ^^^ o) / 256 = 0 ↔ i / 256 = o / 256 := by
  rw [show (256 : ℕ) = 2 ^ 8 by decide, Nat.xor_div_two_pow, Nat.xor_eq_zero_iff]

@[simp] theorem cell_zero (o : ℕ) : cell o 0 = o := Nat.xor_zero o

@[simp] theorem cell_cell (o : ℕ) (c : UInt8) : cell (cell o c) c = o := by rw [cell, cell, Nat.xor_assoc, Nat.xor_self, Nat.xor_zero]

/-- A list is in one block. -/
theorem cell_div (o : ℕ) (c : UInt8) : cell o c / 256 = o / 256 := by
  have hc : c.toNat / 256 = 0 := Nat.div_eq_of_lt c.toNat_lt
  rw [cell, show (256 : ℕ) = 2 ^ 8 by decide, Nat.xor_div_two_pow, show (2 : ℕ) ^ 8 = 256 by decide, hc, Nat.xor_zero]

theorem cell_right_inj : cell o c = cell o c' ↔ c = c' := by rw [cell, cell, Nat.xor_right_inj, UInt8.toNat_inj]

theorem cell_left_inj : cell o c = cell o' c ↔ o = o' := Nat.xor_left_inj

/-- A cell of the block is that of one label. -/
theorem labelOf_eq_iff (h : i / 256 = o / 256) : labelOf i o = c ↔ cell i c = o := by
  have hlt : i ^^^ o < 256 := by
    have := xor_div_eq_zero_iff.mpr h
    omega
  rw [labelOf, ← UInt8.toNat_inj, UInt8.toNat_ofNat', Nat.mod_eq_of_lt hlt, cell]
  constructor
  · intro he
    rw [← he, ← Nat.xor_assoc, Nat.xor_self, Nat.zero_xor]
  · rintro rfl
    rw [← Nat.xor_assoc, Nat.xor_self, Nat.zero_xor]

/-- The list at each offset, or none. -/
abbrev Placement (α : Type*) := ℕ → List (UInt8 × α)

/-- An entry is put in the cell. -/
def Taken (g : Placement α) (i : ℕ) : Prop := ∃ o, ∃ x ∈ g o, i = cell o x.1

/-- No two entries are put in one cell. -/
structure Apart (g : Placement α) : Prop where
  /-- The labels of a list are different. -/
  labels : ∀ o, ((g o).map Prod.fst).Nodup
  /-- The cells of lists are different. -/
  cells : ∀ o o', ∀ x ∈ g o, ∀ x' ∈ g o', cell o x.1 = cell o' x'.1 → o = o'
  /-- There is no list at offset 0. -/
  offset : g 0 = []
  /-- There is no entry in cell 0. -/
  first : ¬ Taken g 0

theorem taken_update {g : Placement α} {xs : List (UInt8 × α)} (hg : g o = []) :
    Taken (Function.update g o xs) i ↔ Taken g i ∨ ∃ x ∈ xs, i = cell o x.1 := by
  constructor
  · rintro ⟨o', x, hx, rfl⟩
    by_cases he : o' = o
    · subst he
      rw [Function.update_self] at hx
      exact .inr ⟨x, hx, rfl⟩
    · rw [Function.update_of_ne he] at hx
      exact .inl ⟨o', x, hx, rfl⟩
  · rintro (⟨o', x, hx, rfl⟩ | ⟨x, hx, rfl⟩)
    · have he : o' ≠ o := by
        rintro rfl
        rw [hg] at hx
        cases hx
      exact ⟨o', x, by rwa [Function.update_of_ne he], rfl⟩
    · exact ⟨o, x, by rwa [Function.update_self], rfl⟩

namespace Apart

variable {g : Placement α} {xs : List (UInt8 × α)} {x x' : UInt8 × α}

theorem empty : Apart fun _ => ([] : List (UInt8 × α)) where
  labels _ := .nil
  cells _ _ _ hx := absurd hx List.not_mem_nil
  offset := rfl
  first := fun ⟨_, _, hx, _⟩ => absurd hx List.not_mem_nil

/-- A cell has one entry. -/
theorem unique (h : Apart g) (hx : x ∈ g o) (hx' : x' ∈ g o') (he : cell o x.1 = cell o' x'.1) : o = o' ∧ x = x' := by
  obtain rfl := h.cells o o' x hx x' hx' he
  exact ⟨rfl, List.inj_on_of_nodup_map (h.labels o) hx hx' (cell_right_inj.mp he)⟩

/-- The offsets of a block have different cells for the first entries of their lists, so if a cell is left, then so is an offset. -/
theorem exists_free (h : Apart g) (hi : i ≠ 0) (hfree : ¬ Taken g i) : ∃ w, w / 256 = i / 256 ∧ w ≠ 0 ∧ g w = [] := by
  by_contra hnone
  have hlist : ∀ w, w / 256 = i / 256 → w ≠ 0 → ∃ c, ∃ x ∈ g w, x.1 = c := fun w hw hw0 => by
    obtain ⟨x, hx⟩ := List.exists_mem_of_ne_nil _ fun he : g w = [] => hnone ⟨w, hw, hw0, he⟩
    exact ⟨x.1, x, hx, rfl⟩
  choose! f hf using hlist
  let block : Finset ℕ := (Finset.Ico (i / 256 * 256) (i / 256 * 256 + 256)).erase 0
  have hmem : ∀ w, w ∈ block ↔ w ≠ 0 ∧ w / 256 = i / 256 := by
    intro w
    rw [Finset.mem_erase, Finset.mem_Ico]
    omega
  have hcard : (block.erase i).card < block.card := Finset.card_erase_lt_of_mem ((hmem i).mpr ⟨hi, rfl⟩)
  obtain ⟨w, hw, w', hw', hne, he⟩ := Finset.exists_ne_map_eq_of_card_lt_of_maps_to hcard (f := fun w => cell w (f w)) fun w hw => by
    rw [Finset.mem_coe, hmem] at hw
    obtain ⟨x, hx, hc⟩ := hf w hw.2 hw.1
    dsimp only
    rw [← hc, Finset.mem_coe, Finset.mem_erase, hmem, cell_div]
    refine ⟨fun he => hfree ⟨w, x, hx, he.symm⟩, fun he => h.first ⟨w, x, hx, he.symm⟩, hw.2⟩
  rw [hmem] at hw hw'
  obtain ⟨x, hx, hc⟩ := hf w hw.2 hw.1
  obtain ⟨x', hx', hc'⟩ := hf w' hw'.2 hw'.1
  rw [← hc, ← hc'] at he
  exact hne (h.cells w w' x hx x' hx' he)

/-- A list is put at an offset. -/
theorem update (h : Apart g) (ho : o ≠ 0) (hg : g o = []) (hxs : (xs.map Prod.fst).Nodup)
    (hfree : ∀ x ∈ xs, cell o x.1 ≠ 0 ∧ ¬ Taken g (cell o x.1)) : Apart (Function.update g o xs) where
  labels w := by
    rw [Function.update_apply]
    split_ifs
    · exact hxs
    · exact h.labels w
  cells w w' x hx x' hx' he := by
    rw [Function.update_apply] at hx hx'
    split_ifs at hx hx' with hw hw' hw'
    · rw [hw, hw']
    · subst hw
      exact absurd ⟨w', x', hx', he⟩ (hfree x hx).2
    · subst hw'
      exact absurd ⟨w, x, hx, he.symm⟩ (hfree x' hx').2
    · exact h.cells w w' x hx x' hx' he
  offset := by rw [Function.update_of_ne (Ne.symm ho), h.offset]
  first := by
    rw [taken_update hg]
    rintro (ht | ⟨x, hx, he⟩)
    · exact h.first ht
    · exact (hfree x hx).1 he.symm

end Apart

end InfixSearch.Library
