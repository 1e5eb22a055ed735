import InfixSearch.Dawgdic.Units
import InfixSearch.Library.Probing

/-!
# The table of links

`LinkTable` keeps the offset of a state under the index of the state. It does not grow: it is
made with as many cells as there will be indices, or more, and may get full. Then a search still
ends for every index that is there. So if all indices are from a set that is not larger than the
table, then `Find` always returns, and what it returns is the last offset that was inserted under
the index (`exists_find`, `exists_insert`).
-/

namespace InfixSearch.Dawgdic

open Library

/-- `LinkTable`. -/
structure LinkTable where
  /-- `hash_table_`. -/
  hashTable : List (ℕ × ℕ)

namespace LinkTable

/-- `Init`. -/
def init (tableSize : ℕ) : LinkTable := ⟨List.replicate tableSize (0, 0)⟩

variable (t : LinkTable)

/-- `FindId`: the id, and what is there. -/
def findId (index : ℕ) : Except Fault (ℕ × ℕ × ℕ) :=
  scan t.hashTable (fun p => pure (p.1 == 0 || index == p.1)) t.hashTable.length
    ((hash (BitVec.ofNat 32 index)).toNat % t.hashTable.length)

/-- `Find`. -/
def find (index : ℕ) : Except Fault ℕ := do
  let (_, _, offset) ← t.findId index
  pure offset

/-- `Insert`. -/
def insert (index offset : ℕ) : Except Fault LinkTable := do
  let (hashId, _) ← t.findId index
  pure ⟨← Pool.set t.hashTable hashId (index, offset)⟩

/-! ### What it holds -/

/-- The home cell of a pair. -/
def home (size : ℕ) (p : ℕ × ℕ) : ℕ := (hash (BitVec.ofNat 32 p.1)).toNat % size

/-- The table holds offsets for indices out of `K`. -/
structure Links (t : LinkTable) (K : Finset ℕ) (f : ℕ → ℕ) : Prop where
  /-- It is settled. -/
  settled : Settled (home t.hashTable.length) (fun p => p.1 ≠ 0) t.hashTable
  /-- The indices are from `K`. -/
  mem : ∀ p ∈ t.hashTable, p.1 ≠ 0 → p.1 ∈ K
  /-- The offsets are those of `f`. -/
  value : ∀ p ∈ t.hashTable, p.2 = if p.1 = 0 then 0 else f p.1
  /-- There are no others. -/
  absent : ∀ k, k ≠ 0 → (∀ p ∈ t.hashTable, p.1 ≠ k) → f k = 0
  /-- An index is there once. -/
  once : ∀ (i j : ℕ) (p q : ℕ × ℕ), t.hashTable[i]? = some p → t.hashTable[j]? = some q → p.1 = q.1 → p.1 ≠ 0 → i = j
  /-- There is no index 0. -/
  pos : 0 ∉ K
  /-- There is a cell for each index. -/
  card : K.card ≤ t.hashTable.length

variable {t : LinkTable} {K : Finset ℕ} {f : ℕ → ℕ} {k : ℕ}

theorem links_init (K : Finset ℕ) (hpos : 0 ∉ K) {size : ℕ} (hsize : K.card ≤ size) : (init size).Links K fun _ => 0 where
  settled := .replicate (not_not_intro rfl)
  mem p hp hne := absurd (by rw [(List.mem_replicate.mp hp).2]) hne
  value p hp := by
    rw [(List.mem_replicate.mp hp).2]
    rfl
  absent _ _ _ := rfl
  once i j p q hp _ _ hne := absurd (by rw [(List.mem_replicate.mp (List.mem_of_getElem? hp)).2]) hne
  pos := hpos
  card := by
    rw [init, List.length_replicate]
    exact hsize

/-- A search for an index out of `K` comes to its cell or, if it is not there, to a free one. -/
theorem Links.exists_findId (h : t.Links K f) (hk : k ∈ K) :
    ∃ n p, t.findId k = .ok ((home t.hashTable.length (k, 0) + n) % t.hashTable.length, p) ∧
      Holds t.hashTable (home t.hashTable.length (k, 0)) n p ∧ (p.1 = k ∨ ∀ q ∈ t.hashTable, q.1 ≠ k) ∧ p.2 = f k ∧
      (p.1 = 0 ∨ p.1 = k) ∧ ∀ j < n, ∃ q, Holds t.hashTable (home t.hashTable.length (k, 0)) j q ∧ q.1 ≠ 0 := by
  have hk0 : k ≠ 0 := fun h0 => h.pos (h0 ▸ hk)
  have hlen : 0 < t.hashTable.length := lt_of_lt_of_le (Finset.card_pos.mpr ⟨k, hk⟩) h.card
  have hstop : ∀ p ∈ t.hashTable, (pure (p.1 == 0 || k == p.1) : Except Fault Bool) = .ok (decide (p.1 = 0 ∨ p.1 = k)) := by
    intro p _
    refine congrArg Except.ok (Bool.eq_iff_iff.mpr ?_)
    rw [Bool.or_eq_true, beq_iff_eq, beq_iff_eq, decide_eq_true_iff, eq_comm (a := k)]
  -- if the index is not there, then there is a free cell, since `K` has no more indices than there are cells
  obtain ⟨x, hx, hp⟩ : ∃ x ∈ t.hashTable, x.1 = 0 ∨ x.1 = k := by
    by_contra hnone
    push Not at hnone
    have hcard : (Finset.range t.hashTable.length).card ≤ (K.erase k).card := by
      refine Finset.card_le_card_of_injOn (fun i => (t.hashTable.getD i (0, 0)).1) (fun i hi => ?_) fun i hi j hj he => ?_
      · rw [Finset.coe_range, Set.mem_Iio] at hi
        have hmem := List.getElem_mem hi
        simp only [List.getD_eq_getElem _ _ hi, Finset.coe_erase]
        exact ⟨h.mem _ hmem (hnone _ hmem).1, (hnone _ hmem).2⟩
      · rw [Finset.coe_range, Set.mem_Iio] at hi hj
        simp only [List.getD_eq_getElem _ _ hi, List.getD_eq_getElem _ _ hj] at he
        exact h.once i j _ _ (List.getElem?_eq_getElem hi) (List.getElem?_eq_getElem hj) he (hnone _ (List.getElem_mem hi)).1
    rw [Finset.card_range, Finset.card_erase_of_mem hk] at hcard
    have := h.card
    have := Finset.card_pos.mpr ⟨k, hk⟩
    omega
  obtain ⟨n, y, hscan, hy, hpy, hfirst⟩ := exists_scan (i := home t.hashTable.length (k, 0)) hstop (Nat.mod_lt _ hlen) hx hp
  have hgone : y.1 = k ∨ ∀ q ∈ t.hashTable, q.1 ≠ k := by
    refine or_iff_not_imp_left.mpr fun hyk q hq hqk => ?_
    have hhome : home t.hashTable.length q = home t.hashTable.length (k, 0) := by rw [home, home, hqk]
    rw [← hhome] at hy hfirst
    refine hyk (h.settled.full_of_scan (m := fun p => p.1 = k) hq (hqk ▸ hk0) hqk hy ?_ fun j hj => ?_).2
    · exact hpy.imp not_not_intro id
    · obtain ⟨z, hz, hnot⟩ := hfirst j hj
      exact ⟨z, hz, fun hn => hnot (hn.imp not_not.mp id)⟩
  refine ⟨n, y, hscan, hy, hgone, ?_, hpy, fun j hj => ?_⟩
  · rw [h.value y (List.mem_of_getElem? hy)]
    rcases hgone with hyk | hgone
    · rw [if_neg (hyk ▸ hk0), hyk]
    · rw [if_pos (hpy.resolve_right (hgone y (List.mem_of_getElem? hy))), h.absent k hk0 hgone]
  · obtain ⟨z, hz, hnot⟩ := hfirst j hj
    exact ⟨z, hz, fun h0 => hnot (.inl h0)⟩

/-- `Find` returns the offset. -/
theorem Links.find_eq (h : t.Links K f) (hk : k ∈ K) : t.find k = .ok (f k) := by
  obtain ⟨n, p, hfind, -, -, hp, -, -⟩ := h.exists_findId hk
  rw [LinkTable.find, hfind, ok_bind, ← hp]
  rfl

/-- `Insert` sets it. -/
theorem Links.exists_insert (h : t.Links K f) (hk : k ∈ K) (o : ℕ) :
    ∃ t', t.insert k o = .ok t' ∧ t'.Links K (Function.update f k o) := by
  have hk0 : k ≠ 0 := fun h0 => h.pos (h0 ▸ hk)
  obtain ⟨n, p, hfind, hp, hgone, -, hfree, hpath⟩ := h.exists_findId hk
  set i := (home t.hashTable.length (k, 0) + n) % t.hashTable.length with hi
  have hlt : i < t.hashTable.length := (List.getElem?_eq_some_iff.mp hp).1
  have hget : ∀ j q, (t.hashTable.set i (k, o))[j]? = some q → (j = i ∧ q = (k, o)) ∨ (j ≠ i ∧ t.hashTable[j]? = some q) := by
    intro j q hj
    by_cases he : j = i
    · subst he
      rw [List.getElem?_set_self hlt] at hj
      exact .inl ⟨rfl, (Option.some.inj hj).symm⟩
    · rw [List.getElem?_set_ne (Ne.symm he)] at hj
      exact .inr ⟨he, hj⟩
  -- no other cell has the index
  have hother : ∀ j q, j ≠ i → t.hashTable[j]? = some q → q.1 ≠ k := by
    intro j q hne hj hq
    rcases hgone with hpk | hgone
    · exact hne (h.once j i q p hj hp (hq.trans hpk.symm) (hq ▸ hk0))
    · exact hgone q (List.mem_of_getElem? hj) hq
  refine ⟨⟨t.hashTable.set i (k, o)⟩, ?_, ⟨?_, ?_, ?_, ?_, ?_, h.pos, ?_⟩⟩
  · rw [LinkTable.insert, hfind, ok_bind]
    dsimp only
    rw [Pool.set_eq hlt]
    rfl
  · have hset := h.settled.set (z := (k, o)) hk0 hpath
    rw [List.length_set]
    exact hset
  · intro q hq hne
    obtain ⟨j, hj⟩ := List.mem_iff_getElem?.mp hq
    rcases hget j q hj with ⟨-, rfl⟩ | ⟨-, hj⟩
    · exact hk
    · exact h.mem q (List.mem_of_getElem? hj) hne
  · intro q hq
    obtain ⟨j, hj⟩ := List.mem_iff_getElem?.mp hq
    rcases hget j q hj with ⟨-, rfl⟩ | ⟨hne, hj⟩
    · rw [if_neg hk0, Function.update_self]
    · rw [h.value q (List.mem_of_getElem? hj), Function.update_of_ne (hother j q hne hj)]
  · intro k' hk' hnone
    have hne : k' ≠ k := by
      rintro rfl
      exact hnone (k', o) (List.mem_iff_getElem?.mpr ⟨i, List.getElem?_set_self hlt⟩) rfl
    rw [Function.update_of_ne hne]
    refine h.absent k' hk' fun q hq hqk => ?_
    obtain ⟨j, hj⟩ := List.mem_iff_getElem?.mp hq
    by_cases hji : j = i
    · subst hji
      obtain rfl := Option.some.inj (hp.symm.trans hj)
      rcases hfree with h0 | h0
      · exact hk' (hqk.symm.trans h0)
      · exact hne (hqk.symm.trans h0)
    · exact hnone q (List.mem_iff_getElem?.mpr ⟨j, by rw [List.getElem?_set_ne (Ne.symm hji)]; exact hj⟩) hqk
  · intro j j' q q' hj hj' he hne
    rcases hget j q hj with ⟨rfl, rfl⟩ | ⟨hji, hj⟩
    · rcases hget j' q' hj' with ⟨rfl, -⟩ | ⟨hji', hj'⟩
      · rfl
      · exact absurd he.symm (hother j' q' hji' hj')
    · rcases hget j' q' hj' with ⟨rfl, rfl⟩ | ⟨hji', hj'⟩
      · exact absurd he (hother j q hji hj)
      · exact h.once j j' q q' hj hj' he hne
  · rw [List.length_set]
    exact h.card

/-! ### A run -/

/-- The offset that was last inserted under an index, or 0. -/
def lastOffset (k : ℕ) (ops : List (ℕ × ℕ)) : ℕ := ((ops.filter fun op => op.1 = k).getLast?.map Prod.snd).getD 0

theorem lastOffset_concat (k : ℕ) (ops : List (ℕ × ℕ)) (op : ℕ × ℕ) :
    lastOffset k (ops ++ [op]) = if op.1 = k then op.2 else lastOffset k ops := by
  rw [lastOffset, List.filter_append]
  split_ifs with hk
  · simp [hk]
  · simp [hk, lastOffset]

theorem exists_inserts {size : ℕ} (hpos : 0 ∉ K) (hsize : K.card ≤ size) {ops : List (ℕ × ℕ)} (hops : ∀ op ∈ ops, op.1 ∈ K) :
    ∃ t, ops.foldlM (fun t op => t.insert op.1 op.2) (init size) = Except.ok t ∧ t.Links K fun k => lastOffset k ops := by
  induction ops using List.reverseRecOn with
  | nil => exact ⟨init size, rfl, links_init K hpos hsize⟩
  | append_singleton ops op ih =>
    rw [List.forall_mem_append, List.forall_mem_singleton] at hops
    obtain ⟨t, hrun, ht⟩ := ih hops.1
    obtain ⟨t', hinsert, ht'⟩ := ht.exists_insert hops.2 op.2
    refine ⟨t', ?_, ?_⟩
    · rw [List.foldlM_append, hrun, ok_bind, List.foldlM_cons, hinsert]
      rfl
    · have hupdate : Function.update (fun k => lastOffset k ops) op.1 op.2 = fun k => lastOffset k (ops ++ [op]) := by
        funext k
        rw [lastOffset_concat, Function.update_apply]
        simp only [eq_comm]
      rwa [hupdate] at ht'

/-- **The table of links keeps the last offset of each index.** After any inserts, under nonzero indices of which
there are no more than the table has cells, every one of these indices is found, with the offset that was last
inserted under it or with 0: no search goes on forever, even in a full table. -/
theorem find_of_inserts (K : Finset ℕ) (size : ℕ) (hpos : 0 ∉ K) (hsize : K.card ≤ size) (ops : List (ℕ × ℕ))
    (hops : ∀ op ∈ ops, op.1 ∈ K) :
    ∃ t, ops.foldlM (fun t op => t.insert op.1 op.2) (init size) = Except.ok t ∧ ∀ k ∈ K, t.find k = .ok (lastOffset k ops) := by
  obtain ⟨t, hrun, ht⟩ := exists_inserts hpos hsize hops
  exact ⟨t, hrun, fun k hk => ht.find_eq hk⟩

/-- A full table. -/
theorem find_of_inserts_full :
    ∃ t, [(7, 300), (2, 40), (7, 8)].foldlM (fun t op => t.insert op.1 op.2) (init 2) = Except.ok t ∧
      ∀ k ∈ ({2, 7} : Finset ℕ), t.find k = .ok (lastOffset k [(7, 300), (2, 40), (7, 8)]) :=
  find_of_inserts {2, 7} 2 (by decide) (by decide) _ (by decide)

end LinkTable

end InfixSearch.Dawgdic
