import InfixSearch.Library.Block

/-!
# Open addressing

A table keeps its entries in cells. An entry is looked for from its home cell on, around the
end of the table, to a cell where the search stops: one that is free, or one that holds what is
looked for (`scan`). As long as the table is *settled* - between the home of an entry and the
cell that holds it no cell is free - an entry that is there is found (`exists_scan_of_mem`), and
entering one where the search for it stopped leaves the table settled (`Settled.set`).
-/

namespace InfixSearch.Library

variable {α : Type}

/-- The first cell from `i` on, around the end of the table, at which to stop, and what it holds. -/
def scan (table : List α) (stop : α → Except Fault Bool) : ℕ → ℕ → Except Fault (ℕ × α)
  | 0, _ => .error .diverges
  | fuel + 1, i =>
    match table[i]? with
    | none => .error .outOfBounds
    | some x => do if ← stop x then pure (i, x) else scan table stop fuel ((i + 1) % table.length)

variable {table : List α} {home : α → ℕ} {full p : α → Prop} {i k : ℕ} {x y z : α}

/-- The cell `k` after `i`, around the end of the table. -/
def Holds (table : List α) (i k : ℕ) (x : α) : Prop := table[(i + k) % table.length]? = some x

/-- Between the home of an entry and its cell no cell is free. -/
def Settled (home : α → ℕ) (full : α → Prop) (table : List α) : Prop :=
  ∀ i x, table[i]? = some x → full x →
    ∃ k, i = (home x + k) % table.length ∧ ∀ j < k, ∃ y, Holds table (home x) j y ∧ full y

theorem Holds.unique (h : Holds table i k x) (h' : Holds table i k y) : x = y := Option.some.inj (h.symm.trans h')

theorem exists_holds (hi : i < table.length) (k : ℕ) : ∃ x, Holds table i k x :=
  ⟨_, List.getElem?_eq_getElem (Nat.mod_lt _ (Nat.zero_lt_of_lt hi))⟩

/-- What is in the table is in a cell after `i`. -/
theorem exists_holds_of_mem (hi : i < table.length) (h : x ∈ table) : ∃ k < table.length, Holds table i k x := by
  obtain ⟨j, hj, rfl⟩ := List.mem_iff_getElem.mp h
  refine ⟨(j + (table.length - i)) % table.length, Nat.mod_lt _ (Nat.zero_lt_of_lt hi), ?_⟩
  have hmod : (i + (j + (table.length - i)) % table.length) % table.length = j := by
    rw [Nat.add_mod_mod, show i + (j + (table.length - i)) = j + table.length by omega, Nat.add_mod_right,
      Nat.mod_eq_of_lt hj]
  rw [Holds, hmod, List.getElem?_eq_getElem hj]

/-- The search stops at the first cell that it should stop at. -/
theorem scan_eq [DecidablePred p] {stop : α → Except Fault Bool} (hstop : ∀ x ∈ table, stop x = .ok (decide (p x)))
    {fuel : ℕ} (hi : i < table.length) (hk : k < fuel) (hx : Holds table i k x) (hp : p x)
    (hfirst : ∀ j < k, ∃ y, Holds table i j y ∧ ¬ p y) :
    scan table stop fuel i = .ok ((i + k) % table.length, x) := by
  induction fuel generalizing i k with
  | zero => exact absurd hk (Nat.not_lt_zero k)
  | succ fuel ih =>
    cases k with
    | zero =>
      rw [Holds, Nat.add_zero, Nat.mod_eq_of_lt hi] at hx
      rw [scan, hx, show (i + 0) % table.length = i from Nat.mod_eq_of_lt hi]
      simp [hstop x (List.mem_of_getElem? hx), hp]
    | succ k =>
      obtain ⟨y, hy, hpy⟩ := hfirst 0 (Nat.succ_pos k)
      rw [Holds, Nat.add_zero, Nat.mod_eq_of_lt hi] at hy
      have hnext : ∀ j, ((i + 1) % table.length + j) % table.length = (i + (j + 1)) % table.length := by
        intro j
        rw [Nat.mod_add_mod, Nat.add_assoc, Nat.add_comm 1 j]
      rw [scan, hy, ← hnext k]
      simp only [hstop y (List.mem_of_getElem? hy), hpy, decide_false, ok_bind, Bool.false_eq_true, if_false]
      refine ih (Nat.mod_lt _ (Nat.zero_lt_of_lt hi)) (Nat.lt_of_succ_lt_succ hk) (by rwa [Holds, hnext]) fun j hj => ?_
      obtain ⟨y, hy, hpy⟩ := hfirst (j + 1) (Nat.succ_lt_succ hj)
      exact ⟨y, by rwa [Holds, hnext], hpy⟩

/-- A search that has a cell to stop at stops. -/
theorem exists_scan [DecidablePred p] {stop : α → Except Fault Bool} (hstop : ∀ x ∈ table, stop x = .ok (decide (p x)))
    (hi : i < table.length) (hx : x ∈ table) (hp : p x) :
    ∃ k y, scan table stop table.length i = .ok ((i + k) % table.length, y) ∧ Holds table i k y ∧ p y ∧
      ∀ j < k, ∃ z, Holds table i j z ∧ ¬ p z := by
  classical
  obtain ⟨k, hk, hxk⟩ := exists_holds_of_mem hi hx
  have hex : ∃ k, ∃ y, Holds table i k y ∧ p y := ⟨k, x, hxk, hp⟩
  obtain ⟨y, hy, hpy⟩ := Nat.find_spec hex
  have hfirst : ∀ j < Nat.find hex, ∃ z, Holds table i j z ∧ ¬ p z := by
    intro j hj
    obtain ⟨z, hz⟩ := exists_holds hi j
    exact ⟨z, hz, fun hpz => Nat.find_min hex hj ⟨z, hz, hpz⟩⟩
  exact ⟨_, y, scan_eq hstop hi ((Nat.find_le ⟨x, hxk, hp⟩).trans_lt hk) hy hpy hfirst, hy, hpy, hfirst⟩

namespace Settled

/-- An entry that is in a settled table is found, as one that matches it. -/
theorem full_of_scan (h : Settled home full table) {m : α → Prop} (hx : x ∈ table) (hfull : full x) (hm : m x)
    (hy : Holds table (home x) k y) (hp : ¬ full y ∨ m y)
    (hfirst : ∀ j < k, ∃ z, Holds table (home x) j z ∧ ¬ (¬ full z ∨ m z)) :
    full y ∧ m y := by
  obtain ⟨i, hi⟩ := List.mem_iff_getElem?.mp hx
  obtain ⟨n, rfl, hn⟩ := h i x hi hfull
  rcases lt_trichotomy k n with hlt | rfl | hlt
  · obtain ⟨y', hy', hf⟩ := hn k hlt
    obtain rfl := hy.unique hy'
    exact ⟨hf, hp.resolve_left (not_not_intro hf)⟩
  · obtain rfl := hy.unique hi
    exact ⟨hfull, hm⟩
  · obtain ⟨z, hz, hnz⟩ := hfirst n hlt
    obtain rfl := hz.unique hi
    exact absurd (.inr hm) hnz

/-- An entry is put into a cell with none free between its home and the cell. -/
theorem set (h : Settled home full table) (hz : full z)
    (hpath : ∀ j < k, ∃ y, Holds table (home z) j y ∧ full y) :
    Settled home full (table.set ((home z + k) % table.length) z) := by
  have hstay : ∀ {i j : ℕ} {y : α}, Holds table i j y → full y →
      ∃ y', Holds (table.set ((home z + k) % table.length) z) i j y' ∧ full y' := by
    intro i j y hy hf
    rw [Holds] at hy
    by_cases he : (home z + k) % table.length = (i + j) % table.length
    · refine ⟨z, ?_, hz⟩
      rw [Holds, List.length_set, ← he, List.getElem?_set_self]
      rw [he]
      exact (List.getElem?_eq_some_iff.mp hy).1
    · refine ⟨y, ?_, hf⟩
      rwa [Holds, List.length_set, List.getElem?_set_ne he]
  intro i x hi hf
  rw [List.length_set]
  by_cases he : (home z + k) % table.length = i
  · subst he
    have hlt : (home z + k) % table.length < table.length := by
      have := (List.getElem?_eq_some_iff.mp hi).1
      rwa [List.length_set] at this
    rw [List.getElem?_set_self hlt] at hi
    obtain rfl := Option.some.inj hi
    refine ⟨k, rfl, fun j hj => ?_⟩
    obtain ⟨y, hy, hfy⟩ := hpath j hj
    exact hstay hy hfy
  · rw [List.getElem?_set_ne he] at hi
    obtain ⟨n, hn, hpath⟩ := h i x hi hf
    refine ⟨n, hn, fun j hj => ?_⟩
    obtain ⟨y, hy, hfy⟩ := hpath j hj
    exact hstay hy hfy

theorem congr {home' : α → ℕ} (h : Settled home full table) (hhome : ∀ x ∈ table, full x → home x = home' x) :
    Settled home' full table := by
  intro i x hi hf
  rw [← hhome x (List.mem_of_getElem? hi) hf]
  exact h i x hi hf

/-- A table without entries. -/
theorem replicate {n : ℕ} (hx : ¬ full x) : Settled home full (List.replicate n x) := by
  intro i y hi hf
  rw [(List.mem_replicate.mp (List.mem_of_getElem? hi)).2] at hf
  exact absurd hf hx

end Settled

end InfixSearch.Library
