import InfixSearch.Dawgdic.States

/-!
# Matching units and transitions

A unit and its siblings hold the items of a state, the last first (`chainCells`). The hash of
the units is that of the transitions which encode these items (`hashUnit_eq`, `hashTransition_eq`),
and `AreEqual` compares the items with those of a state (`areEqual_eq`). So as long as the hash
table holds the states, `FindUnit` finds the state with the items of a unit and its siblings if
there is one, and if not, a free cell for it (`findUnit_of_mem`, `findUnit_of_notMem`).
-/

namespace InfixSearch.Dawgdic

open Library

variable {nodes : List (List Item)} {xs ys : List Item} {m : ℕ}

/-! ### Units in a pool -/

/-- The units at these indices. -/
def Shows (pool : List DawgUnit) (cells : List (ℕ × DawgUnit)) : Prop := ∀ c ∈ cells, pool[c.1]? = some c.2

/-- A unit and its siblings, the last first; `sibling` is the flag of the first. -/
def chainCells (sibling : Bool) : List (ℕ × Item) → List (ℕ × DawgUnit)
  | [] => []
  | (i, x) :: us => (i, ⟨x.2, firstLink (us.map Prod.fst), x.1, us.isEmpty, sibling⟩) :: chainCells true us

/-- The items of a unit and its siblings, in order. -/
def chainItems (us : List (ℕ × Item)) : List Item := (us.map Prod.snd).reverse

variable {pool : List DawgUnit} {cells cells' : List (ℕ × DawgUnit)} {us : List (ℕ × Item)} {sibling : Bool}

theorem shows_append : Shows pool (cells ++ cells') ↔ Shows pool cells ∧ Shows pool cells' := by
  simp only [Shows, List.mem_append, or_imp, forall_and]

theorem shows_cons {c : ℕ × DawgUnit} : Shows pool (c :: cells) ↔ pool[c.1]? = some c.2 ∧ Shows pool cells := by
  simp only [Shows, List.forall_mem_cons]

@[simp] theorem map_fst_chainCells (sibling : Bool) (us : List (ℕ × Item)) : (chainCells sibling us).map Prod.fst = us.map Prod.fst := by
  induction us generalizing sibling with
  | nil => rfl
  | cons u us ih => rw [chainCells, List.map_cons, ih, List.map_cons]

@[simp] theorem length_chainCells (sibling : Bool) (us : List (ℕ × Item)) : (chainCells sibling us).length = us.length := by
  rw [← List.length_map (f := Prod.fst), map_fst_chainCells, List.length_map]

@[simp] theorem length_chainItems (us : List (ℕ × Item)) : (chainItems us).length = us.length := by simp [chainItems]

@[simp] theorem chainItems_cons (u : ℕ × Item) (us : List (ℕ × Item)) : chainItems (u :: us) = chainItems us ++ [u.2] := by
  simp [chainItems]

/-- The units have the base values and labels of the transitions which encode their items. -/
theorem map_chainCells (sibling : Bool) (us : List (ℕ × Item)) :
    (chainCells sibling us).map (fun c => (c.2.base, c.2.label)) = (encodeWith true sibling (chainItems us)).reverse := by
  induction us generalizing sibling with
  | nil => rfl
  | cons u us ih =>
    rw [chainCells, List.map_cons, ih, chainItems_cons, encodeWith_concat, List.reverse_append,
      List.reverse_singleton, Bool.and_true]
    cases us with
    | nil => rfl
    | cons u' us => simp [chainItems, itemBase, DawgUnit.base]

/-- The units are linked. -/
theorem linked_chainCells (h : Shows pool (chainCells sibling us)) (hne : ∀ u ∈ us, u.1 ≠ 0) :
    Linked (DawgBuilder.siblingOf pool) (us.map Prod.fst) := by
  induction us generalizing sibling with
  | nil => trivial
  | cons u us ih =>
    rw [chainCells, shows_cons] at h
    obtain ⟨hu, hus⟩ := List.forall_mem_cons.mp hne
    refine ⟨hu, ?_, ih h.2 hus⟩
    rw [DawgBuilder.siblingOf, Pool.get_eq h.1]
    rfl

/-- Different units of a pool are not more than it has. -/
theorem length_le_of_shows (h : Shows pool cells) (hnodup : (cells.map Prod.fst).Nodup) : cells.length ≤ pool.length := by
  have hsub : cells.map Prod.fst ⊆ List.range pool.length := by
    intro i hi
    obtain ⟨c, hc, rfl⟩ := List.mem_map.mp hi
    exact List.mem_range.mpr (Pool.lt_of_getElem? (h c hc))
  have hle := (List.subperm_of_subset hnodup hsub).length_le
  rwa [List.length_map, List.length_range] at hle

/-! ### Hash values -/

/-- The hash of transitions. -/
def hashAll (ts : List (BaseType × UInt8)) (h : BaseType) : BaseType := ts.foldl (fun h t => h ^^^ hashOf t.1 t.2) h

theorem hashAll_perm {ts ts' : List (BaseType × UInt8)} (hp : ts.Perm ts') (h : BaseType) :
    hashAll ts h = hashAll ts' h :=
  @List.Perm.foldl_eq _ _ _ _ _ ⟨fun h t t' => by rw [BitVec.xor_assoc, BitVec.xor_comm (hashOf t.1 t.2), ← BitVec.xor_assoc]⟩ hp h

namespace DawgBuilder

variable {s : DawgBuilder} {β : Type}

/-- A loop over a unit and its siblings goes over all of them. -/
theorem forSiblings_eq (h : Shows s.unitPool (chainCells sibling us)) (hne : ∀ u ∈ us, u.1 ≠ 0)
    (hnodup : (us.map Prod.fst).Nodup) (body : β → ℕ → Except Fault β) (b : β) :
    s.forSiblings body b (firstLink (us.map Prod.fst)) = (us.map Prod.fst).foldlM body b := by
  have hle := length_le_of_shows h (by rwa [map_fst_chainCells])
  rw [length_chainCells, ← List.length_map (f := Prod.fst)] at hle
  exact forLinks_eq (linked_chainCells h hne) (Nat.lt_succ_of_le hle) b

/-- The same with what the loop reads. -/
theorem foldlM_units {body : β → ℕ → Except Fault β} {f : β → BaseType × UInt8 → β}
    (hbody : ∀ b i u, s.unitPool[i]? = some u → body b i = .ok (f b (u.base, u.label)))
    (h : Shows s.unitPool (chainCells sibling us)) (b : β) :
    (us.map Prod.fst).foldlM body b = .ok ((encodeWith true sibling (chainItems us)).reverse.foldl f b) := by
  rw [← map_chainCells, ← map_fst_chainCells sibling, List.foldl_map, List.foldlM_map]
  exact foldlM_ok (fun b c hc => hbody b c.1 c.2 (h c hc)) b

theorem hashUnit_eq (h : Shows s.unitPool (chainCells sibling us)) (hne : ∀ u ∈ us, u.1 ≠ 0)
    (hnodup : (us.map Prod.fst).Nodup) :
    s.hashUnit (firstLink (us.map Prod.fst)) = .ok (hashAll (encodeWith true sibling (chainItems us)) 0) := by
  rw [hashUnit, forSiblings_eq h hne hnodup, foldlM_units (f := fun h t => h ^^^ hashOf t.1 t.2) _ h]
  · exact congrArg _ (hashAll_perm (List.reverse_perm _) 0)
  · intro b i u hu
    rw [Pool.get_eq hu]
    rfl

theorem hashTransition_eq (h : Pools nodes s.basePool s.labelPool) (hm : At nodes m xs) (hne : xs ≠ []) {fuel : ℕ}
    (hfuel : xs.length ≤ fuel) (b : BaseType) : s.hashTransition fuel m b = .ok (hashAll (encode xs) b) := by
  suffices hrest : ∀ n i b fuel, i + n + 1 = xs.length → n < fuel →
      s.hashTransition fuel (m + i) b = .ok (hashAll ((encode xs).drop i) b) by
    have hpos := List.length_pos_iff.mpr hne
    exact hrest (xs.length - 1) 0 b fuel (by omega) (by omega)
  intro n
  induction n with
  | zero =>
    intro i b fuel hi hf
    obtain ⟨fuel, rfl⟩ := Nat.exists_eq_succ_of_ne_zero (Nat.ne_zero_of_lt hf)
    have hx := List.getElem?_eq_getElem (show i < xs.length by omega)
    obtain ⟨hbase, hlabel⟩ := h.get hm hx
    have hpos := hm.pos
    rw [hashTransition, if_neg (by omega), hbase, hlabel, drop_encode hx,
      List.drop_eq_nil_of_le (by rw [length_encode]; omega)]
    simp only [ok_bind, hasSibling_itemBase, show ¬ i + 1 < xs.length by omega, decide_false, Bool.false_eq_true,
      if_false]
    rfl
  | succ n ih =>
    intro i b fuel hi hf
    obtain ⟨fuel, rfl⟩ := Nat.exists_eq_succ_of_ne_zero (Nat.ne_zero_of_lt hf)
    have hx := List.getElem?_eq_getElem (show i < xs.length by omega)
    obtain ⟨hbase, hlabel⟩ := h.get hm hx
    have hpos := hm.pos
    rw [hashTransition, if_neg (by omega), hbase, hlabel, drop_encode hx]
    simp only [ok_bind, hasSibling_itemBase, show i + 1 < xs.length by omega, decide_true, if_true]
    exact ih (i + 1) _ fuel (by omega) (by omega)

/-! ### `AreEqual` -/

/-- The first loop counts. -/
theorem compareNumbers_eq (h : Pools nodes s.basePool s.labelPool) (hm : At nodes m ys) {is : List ℕ} {i fuel : ℕ}
    (hlinked : Linked (siblingOf s.unitPool) is) (hfuel : is.length < fuel) (hi : i < ys.length) :
    s.compareNumbers fuel (firstLink is) (m + i) = .ok (if i + is.length + 1 = ys.length then some (m + i + is.length) else none) := by
  induction is generalizing i fuel with
  | nil =>
    obtain ⟨fuel, rfl⟩ := Nat.exists_eq_succ_of_ne_zero (Nat.ne_zero_of_lt hfuel)
    obtain ⟨hbase, -⟩ := h.get hm (List.getElem?_eq_getElem hi)
    rw [compareNumbers, firstLink, List.headD_nil, if_pos rfl, hbase, ok_bind, hasSibling_itemBase]
    by_cases hlt : i + 1 < ys.length
    · rw [if_neg (show ¬ i + [].length + 1 = ys.length by rw [List.length_nil]; omega)]
      simp [hlt]
    · rw [if_pos (show i + [].length + 1 = ys.length by rw [List.length_nil]; omega)]
      simp [hlt]
  | cons j is ih =>
    obtain ⟨fuel, rfl⟩ := Nat.exists_eq_succ_of_ne_zero (Nat.ne_zero_of_lt hfuel)
    obtain ⟨hbase, -⟩ := h.get hm (List.getElem?_eq_getElem hi)
    rw [compareNumbers, firstLink, List.headD_cons, if_neg hlinked.1, hbase, ok_bind, hasSibling_itemBase]
    by_cases hlt : i + 1 < ys.length
    · have hnext := ih (i := i + 1) hlinked.2.2 (Nat.lt_of_succ_lt_succ hfuel) hlt
      rw [if_pos (decide_eq_true hlt), hlinked.2.1, ok_bind, Nat.add_assoc m i 1, hnext, List.length_cons]
      simp only [show i + 1 + is.length + 1 = i + (is.length + 1) + 1 by omega,
        show m + (i + 1) + is.length = m + i + (is.length + 1) by omega]
    · rw [if_neg (by simpa using hlt), if_neg (show ¬ i + (j :: is).length + 1 = ys.length by rw [List.length_cons]; omega)]
      rfl

/-- The second loop compares, from the last item on. -/
theorem compareTransitions_eq (h : Pools nodes s.basePool s.labelPool) (hm : At nodes m ys)
    (hus : Shows s.unitPool (chainCells sibling us)) (hne : ∀ u ∈ us, u.1 ≠ 0) (hle : us.length ≤ ys.length)
    (hsibling : us ≠ [] → sibling = decide (us.length < ys.length)) (hfits : ∀ x ∈ chainItems us, Fits x)
    (hfits' : ∀ y ∈ ys, Fits y) {fuel : ℕ} (hfuel : us.length < fuel) :
    s.compareTransitions fuel (firstLink (us.map Prod.fst)) (m + us.length - 1) =
      .ok (decide (chainItems us = ys.take us.length)) := by
  induction us generalizing sibling fuel with
  | nil =>
    obtain ⟨fuel, rfl⟩ := Nat.exists_eq_succ_of_ne_zero (Nat.ne_zero_of_lt hfuel)
    rfl
  | cons u us ih =>
    obtain ⟨fuel, rfl⟩ := Nat.exists_eq_succ_of_ne_zero (Nat.ne_zero_of_lt hfuel)
    rw [chainCells, shows_cons] at hus
    rw [List.length_cons] at hle
    obtain ⟨hu, hus'⟩ := List.forall_mem_cons.mp hne
    have hy := List.getElem?_eq_getElem (show us.length < ys.length by omega)
    obtain ⟨hbase, hlabel⟩ := h.get hm hy
    have hstate : (us.length == 0) = us.isEmpty := by cases us <;> rfl
    have htake : ys.take (us.length + 1) = ys.take us.length ++ [ys[us.length]] := by
      rw [List.take_add_one, hy]
      rfl
    have hux : Fits u.2 := hfits _ (by simp)
    have hown : DawgUnit.base ⟨u.2.2, firstLink (us.map Prod.fst), u.2.1, us.isEmpty, sibling⟩ = itemBase us.isEmpty sibling u.2 := rfl
    have hrec := ih hus.2 hus' (by omega) (fun _ => (decide_eq_true (by omega)).symm) (fun x hx => hfits x (by simp [hx]))
      (Nat.lt_of_succ_lt_succ hfuel)
    rw [compareTransitions, List.map_cons, firstLink, List.headD_cons, if_neg hu, Pool.get_eq hus.1, List.length_cons,
      show m + (us.length + 1) - 1 = m + us.length by omega, hbase, hlabel, chainItems_cons, htake]
    simp only [ok_bind, hown]
    have hiff : (itemBase us.isEmpty sibling u.2 ≠ itemBase (us.length == 0) (decide (us.length + 1 < ys.length)) ys[us.length] ∨
        u.2.1 ≠ ys[us.length].1) ↔ u.2 ≠ ys[us.length] := by
      rw [hsibling (List.cons_ne_nil u us), List.length_cons, hstate]
      constructor
      · rintro hor he
        rw [he] at hor
        simp at hor
      · intro hne
        by_contra hand
        rw [not_or, not_not, not_not] at hand
        exact hne (hux.eq_of_itemBase_eq (hfits' _ (List.getElem_mem _)) hand.2 hand.1)
    by_cases he : u.2 = ys[us.length]
    · rw [if_neg (fun hor => hiff.mp hor he), hrec, he]
      exact congrArg _ (decide_eq_decide.mpr (List.append_left_inj _).symm)
    · rw [if_pos (hiff.mpr he)]
      have hfalse : ¬ chainItems us ++ [u.2] = ys.take us.length ++ [ys[us.length]] := by
        intro heq
        exact he (List.singleton_inj.mp (List.append_inj' heq rfl).2)
      exact congrArg _ (decide_eq_false hfalse).symm

/-- `AreEqual` compares the items. -/
theorem areEqual_eq (h : Pools nodes s.basePool s.labelPool) (hm : At nodes m ys) (hy : ys ≠ []) {u : ℕ × Item}
    (hus : Shows s.unitPool (chainCells false (u :: us))) (hne : ∀ v ∈ u :: us, v.1 ≠ 0)
    (hnodup : ((u :: us).map Prod.fst).Nodup) (hfits : ∀ x ∈ chainItems (u :: us), Fits x) (hfits' : ∀ y ∈ ys, Fits y) :
    s.areEqual u.1 m = .ok (decide (chainItems (u :: us) = ys)) := by
  have hlen := length_le_of_shows hus (by rwa [map_fst_chainCells])
  rw [length_chainCells, List.length_cons] at hlen
  have hlinked := linked_chainCells hus hne
  have hnumbers := compareNumbers_eq (i := 0) h hm hlinked.2.2
    (show (us.map Prod.fst).length < s.unitPool.length + 1 by rw [List.length_map]; omega)
    (List.length_pos_iff.mpr hy)
  rw [areEqual, hlinked.2.1, ok_bind]
  rw [show m + 0 = m from rfl, List.length_map] at hnumbers
  rw [hnumbers, ok_bind]
  by_cases hcount : 0 + us.length + 1 = ys.length
  · have hcompare := compareTransitions_eq h hm hus hne (by rw [List.length_cons]; omega)
      (fun _ => (decide_eq_false (by rw [List.length_cons]; omega)).symm) hfits hfits'
      (show (u :: us).length < s.unitPool.length + 1 by rw [List.length_cons]; omega)
    rw [List.length_cons, show m + (us.length + 1) - 1 = m + us.length by omega] at hcompare
    rw [if_pos hcount]
    refine Eq.trans hcompare ?_
    rw [List.take_of_length_le (by omega)]
  · rw [if_neg hcount]
    have hfalse : ¬ chainItems (u :: us) = ys := by
      intro he
      have := congrArg List.length he
      rw [length_chainItems, List.length_cons] at this
      omega
    exact congrArg _ (decide_eq_false hfalse).symm

end DawgBuilder

/-! ### The hash table -/

/-- The states are not empty, have bits enough, and a word ends only at the first item. -/
def WellFormed (nodes : List (List Item)) : Prop := ∀ xs ∈ nodes, xs ≠ [] ∧ (∀ x ∈ xs, Fits x) ∧ ∀ x ∈ xs.tail, x.1 ≠ 0

/-- The home cell of a state, by its first transition. -/
noncomputable def home (nodes : List (List Item)) (size m : ℕ) : ℕ :=
  (hashAll (encode (Classical.epsilon (At nodes m))) 0).toNat % size

/-- The hash table holds the states that begin at `ms`. -/
structure Table (nodes : List (List Item)) (ms table : List ℕ) : Prop where
  /-- It is settled. -/
  settled : Settled (home nodes table.length) (· ≠ 0) table
  /-- These are its entries. -/
  mem : ∀ m, m ≠ 0 → (m ∈ table ↔ m ∈ ms)
  /-- Each is there once. -/
  count : table.countP (· ≠ 0) = ms.length

theorem home_eq (hwf : WellFormed nodes) (hm : At nodes m xs) (size : ℕ) :
    home nodes size m = (hashAll (encode xs) 0).toNat % size := by
  have he : At nodes m (Classical.epsilon (At nodes m)) := Classical.epsilon_spec ⟨xs, hm⟩
  rw [home, he.unique hm (hwf _ he.mem).1 (hwf _ hm.mem).1]

/-- Where the states begin, the first at `m`. -/
def starts (m : ℕ) : List (List Item) → List ℕ
  | [] => []
  | xs :: nodes => m :: starts (m + xs.length) nodes

@[simp] theorem length_starts (m : ℕ) (nodes : List (List Item)) : (starts m nodes).length = nodes.length := by
  induction nodes generalizing m with
  | nil => rfl
  | cons xs nodes ih => rw [starts, List.length_cons, ih, List.length_cons]

theorem starts_concat (m : ℕ) (nodes : List (List Item)) (xs : List Item) :
    starts m (nodes ++ [xs]) = starts m nodes ++ [m + nodes.flatten.length] := by
  induction nodes generalizing m with
  | nil => rfl
  | cons ys nodes ih =>
    rw [List.cons_append, starts, ih, starts, List.flatten_cons, List.length_append, Nat.add_assoc]
    rfl

theorem exists_at_of_mem_starts (h : m ∈ starts 1 nodes) : ∃ xs, At nodes m xs := by
  suffices hall : ∀ (post pre : List (List Item)), m ∈ starts (1 + pre.flatten.length) post → ∃ xs, At (pre ++ post) m xs from
    hall nodes [] h
  intro post
  induction post with
  | nil => exact fun pre hm => nomatch hm
  | cons xs post ih =>
    intro pre hm
    rw [starts, List.mem_cons] at hm
    rcases hm with rfl | hm
    · exact ⟨xs, pre, post, rfl, rfl⟩
    · obtain ⟨ys, hys⟩ := ih (pre ++ [xs]) (by simpa [Nat.add_assoc] using hm)
      exact ⟨ys, by simpa using hys⟩

theorem mem_starts_of_at (h : At nodes m xs) : m ∈ starts 1 nodes := by
  obtain ⟨pre, post, rfl, rfl⟩ := h
  suffices hall : ∀ k, k + pre.flatten.length ∈ starts k (pre ++ xs :: post) from hall 1
  induction pre with
  | nil => exact fun k => List.mem_cons_self
  | cons ys pre ih =>
    intro k
    rw [List.cons_append, starts, List.flatten_cons, List.length_append, ← Nat.add_assoc]
    exact List.mem_cons_of_mem _ (ih _)

namespace Table

variable {ms table : List ℕ}

theorem empty (nodes : List (List Item)) (size : ℕ) : Table nodes [] (List.replicate size 0) where
  settled := .replicate (not_not_intro rfl)
  mem m hm := by simp [hm]
  count := by simp [List.countP_replicate]

/-- There is a free cell. -/
theorem zero_mem (h : Table nodes ms table) (hlt : ms.length < table.length) : 0 ∈ table := by
  by_contra hnot
  have hall : table.countP (· ≠ 0) = table.length := List.countP_eq_length.mpr fun m hm => by
    rw [decide_eq_true_iff]
    rintro rfl
    exact hnot hm
  rw [h.count] at hall
  omega

/-- A state is entered in a free cell, with none free between its home and the cell. -/
theorem set (h : Table nodes ms table) (hm : m ≠ 0) {k : ℕ} (hfree : Holds table (home nodes table.length m) k 0)
    (hpath : ∀ j < k, ∃ y, Holds table (home nodes table.length m) j y ∧ y ≠ 0) :
    Table nodes (ms ++ [m]) (table.set ((home nodes table.length m + k) % table.length) m) where
  settled := by
    rw [List.length_set]
    exact h.settled.set hm hpath
  mem n hn := by
    rw [List.mem_append, List.mem_singleton, ← h.mem n hn, List.mem_iff_getElem?, List.mem_iff_getElem?]
    constructor
    · rintro ⟨i, hi⟩
      by_cases he : (home nodes table.length m + k) % table.length = i
      · subst he
        rw [List.getElem?_set_self (Pool.lt_of_getElem? hfree)] at hi
        exact .inr (Option.some.inj hi).symm
      · rw [List.getElem?_set_ne he] at hi
        exact .inl ⟨i, hi⟩
    · rintro (⟨i, hi⟩ | rfl)
      · refine ⟨i, ?_⟩
        rw [List.getElem?_set_ne]
        · exact hi
        · rintro rfl
          exact hn (Option.some.inj (hi.symm.trans hfree))
      · exact ⟨_, List.getElem?_set_self (Pool.lt_of_getElem? hfree)⟩
  count := by
    obtain ⟨hlt, hget⟩ := List.getElem?_eq_some_iff.mp hfree
    rw [List.countP_set hlt, hget, h.count]
    simp [hm]

/-- New states leave the table as it is. -/
theorem append_nodes (h : Table nodes ms table) (hwf : WellFormed nodes) (hms : ∀ m ∈ ms, ∃ xs, At nodes m xs)
    {nodes' : List (List Item)} (hwf' : WellFormed (nodes ++ nodes')) : Table (nodes ++ nodes') ms table where
  settled := by
    refine h.settled.congr fun m hm hne => ?_
    obtain ⟨xs, hxs⟩ := hms m ((h.mem m hne).mp hm)
    rw [home_eq hwf hxs, home_eq hwf' (hxs.append nodes')]
  mem := h.mem
  count := h.count

end Table

namespace DawgBuilder

variable {s : DawgBuilder} {ms : List ℕ} {u : ℕ × Item}

/-- What the search for a unit and its siblings needs. -/
structure Searchable (s : DawgBuilder) (nodes : List (List Item)) (ms : List ℕ) (us : List (ℕ × Item)) : Prop where
  /-- The pools hold the states. -/
  pools : Pools nodes s.basePool s.labelPool
  /-- They are not empty, and have bits enough. -/
  wellFormed : WellFormed nodes
  /-- The table holds states. -/
  table : Table nodes ms s.hashTable
  /-- There is a free cell. -/
  room : ms.length < s.hashTable.length
  /-- What it holds are states. -/
  states : ∀ m ∈ ms, ∃ xs, At nodes m xs
  /-- The unit and its siblings. -/
  shows : Shows s.unitPool (chainCells false us)
  /-- They are not the root. -/
  ne_zero : ∀ u ∈ us, u.1 ≠ 0
  /-- They are different. -/
  nodup : (us.map Prod.fst).Nodup
  /-- Their items have bits enough. -/
  fits : ∀ x ∈ chainItems us, Fits x

/-- Where `FindUnit` stops. -/
theorem exists_findUnit (h : Searchable s nodes ms (u :: us)) :
    ∃ k y, s.findUnit u.1 = .ok (y, ((hashAll (encode (chainItems (u :: us))) 0).toNat % s.hashTable.length + k) % s.hashTable.length) ∧
      Holds s.hashTable ((hashAll (encode (chainItems (u :: us))) 0).toNat % s.hashTable.length) k y ∧
      (¬ y ≠ 0 ∨ At nodes y (chainItems (u :: us))) ∧
      ∀ j < k, ∃ z, Holds s.hashTable ((hashAll (encode (chainItems (u :: us))) 0).toNat % s.hashTable.length) j z ∧
        ¬ (¬ z ≠ 0 ∨ At nodes z (chainItems (u :: us))) := by
  classical
  have hstop : ∀ id ∈ s.hashTable, (if id = 0 then pure true else s.areEqual u.1 id : Except Fault Bool) =
      .ok (decide (¬ id ≠ 0 ∨ At nodes id (chainItems (u :: us)))) := by
    intro id hid
    by_cases h0 : id = 0
    · rw [if_pos h0]
      exact congrArg _ (decide_eq_true (.inl (not_not_intro h0))).symm
    · obtain ⟨ys, hys⟩ := h.states id ((h.table.mem id h0).mp hid)
      obtain ⟨hne, hfits, -⟩ := h.wellFormed ys hys.mem
      rw [if_neg h0, areEqual_eq h.pools hys hne h.shows h.ne_zero h.nodup h.fits hfits]
      refine congrArg _ (decide_eq_decide.mpr ⟨fun he => .inr (he ▸ hys), fun hor => ?_⟩)
      have hat := hor.resolve_left (not_not_intro h0)
      exact hat.unique hys (h.wellFormed _ hat.mem).1 hne
  have hlt : (hashAll (encode (chainItems (u :: us))) 0).toNat % s.hashTable.length < s.hashTable.length :=
    Nat.mod_lt _ (Nat.zero_lt_of_lt h.room)
  obtain ⟨k, y, hscan, hy⟩ := exists_scan hstop hlt (h.table.zero_mem h.room) (.inl (not_not_intro rfl))
  refine ⟨k, y, ?_, hy⟩
  have hhash := hashUnit_eq h.shows h.ne_zero h.nodup
  rw [List.map_cons, firstLink, List.headD_cons] at hhash
  rw [findUnit, hhash, ok_bind]
  exact (congrArg (· >>= _) hscan).trans rfl

/-- The state with the items is found. -/
theorem findUnit_of_mem (h : Searchable s nodes ms (u :: us)) (hm : m ∈ ms) (hat : At nodes m (chainItems (u :: us)))
    (hnodup : nodes.Nodup) : ∃ hashId, s.findUnit u.1 = .ok (m, hashId) := by
  obtain ⟨k, y, hfind, hy, hp, hfirst⟩ := exists_findUnit h
  have hm0 := hat.pos.ne'
  rw [← home_eq h.wellFormed hat] at hy hfirst hfind
  obtain ⟨-, hyat⟩ := h.table.settled.full_of_scan (m := fun m => At nodes m (chainItems (u :: us))) ((h.table.mem m hm0).mpr hm)
    hm0 hat hy hp hfirst
  exact ⟨_, (hyat.index_unique hat hnodup) ▸ hfind⟩

/-- If there is none, a free cell for it is found. -/
theorem findUnit_of_notMem (h : Searchable s nodes ms (u :: us)) (hnot : chainItems (u :: us) ∉ nodes) :
    ∃ k, s.findUnit u.1 =
        .ok (0, ((hashAll (encode (chainItems (u :: us))) 0).toNat % s.hashTable.length + k) % s.hashTable.length) ∧
      Holds s.hashTable ((hashAll (encode (chainItems (u :: us))) 0).toNat % s.hashTable.length) k 0 ∧
      ∀ j < k, ∃ z, Holds s.hashTable ((hashAll (encode (chainItems (u :: us))) 0).toNat % s.hashTable.length) j z ∧ z ≠ 0 := by
  obtain ⟨k, y, hfind, hy, hp, hfirst⟩ := exists_findUnit h
  obtain rfl : y = 0 := not_not.mp (hp.resolve_right fun hat => hnot hat.mem)
  refine ⟨k, hfind, hy, fun j hj => ?_⟩
  obtain ⟨z, hz, hnz⟩ := hfirst j hj
  rw [not_or, not_not] at hnz
  exact ⟨z, hz, hnz.1⟩

/-! ### Expanding the table -/

/-- A free cell for a state is found. -/
theorem exists_findTransition (hpools : Pools nodes s.basePool s.labelPool) (hwf : WellFormed nodes)
    (htable : Table nodes ms s.hashTable) (hroom : ms.length < s.hashTable.length) (hm : At nodes m xs) :
    ∃ k, s.findTransition m = .ok ((home nodes s.hashTable.length m + k) % s.hashTable.length) ∧
      Holds s.hashTable (home nodes s.hashTable.length m) k 0 ∧
      ∀ j < k, ∃ z, Holds s.hashTable (home nodes s.hashTable.length m) j z ∧ z ≠ 0 := by
  have hstop : ∀ id ∈ s.hashTable, (pure (id == 0) : Except Fault Bool) = .ok (decide (id = 0)) := fun id _ => rfl
  have hlen : xs.length ≤ s.basePool.length + 1 := by
    obtain ⟨pre, post, rfl, rfl⟩ := hm
    rw [hpools.length_base]
    simp only [List.flatten_append, List.flatten_cons, List.length_append]
    omega
  obtain ⟨k, y, hscan, hy, hp, hfirst⟩ :=
    exists_scan hstop (Nat.mod_lt _ (Nat.zero_lt_of_lt hroom)) (htable.zero_mem hroom) rfl
  subst hp
  rw [← home_eq hwf hm] at hscan hy hfirst
  refine ⟨k, ?_, hy, hfirst⟩
  rw [findTransition, hashTransition_eq hpools hm (hwf xs hm.mem).1 hlen, ok_bind, ← home_eq hwf hm, hscan]
  rfl

/-- The first transition of a state is entered again. -/
theorem reenter_head (hpools : Pools nodes s.basePool s.labelPool) (hwf : WellFormed nodes)
    (htable : Table nodes ms s.hashTable) (hroom : ms.length < s.hashTable.length) (hm : At nodes m xs) :
    ∃ table, reenter s m = .ok { s with hashTable := table } ∧ table.length = s.hashTable.length ∧ Table nodes (ms ++ [m]) table := by
  obtain ⟨k, hfind, hfree, hpath⟩ := exists_findTransition hpools hwf htable hroom hm
  obtain ⟨x, xs, rfl⟩ := List.exists_cons_of_ne_nil (hwf xs hm.mem).1
  obtain ⟨hbase, hlabel⟩ := hpools.get (i := 0) hm rfl
  have hcond : x.1 = 0 ∨ BaseUnit.isState ⟨itemBase (0 == 0) (decide (0 + 1 < (x :: xs).length)) x⟩ = true := by
    by_cases h0 : x.1 = 0
    · exact .inl h0
    · exact .inr (isState_itemBase h0)
  refine ⟨_, ?_, List.length_set, htable.set hm.pos.ne' hfree hpath⟩
  rw [Nat.add_zero] at hbase hlabel
  rw [reenter, hlabel, hbase, ok_bind, ok_bind, if_pos hcond, hfind, ok_bind, Pool.set_eq (Pool.lt_of_getElem? hfree)]
  rfl

/-- The other transitions are not. -/
theorem reenter_tail (hpools : Pools nodes s.basePool s.labelPool) (hwf : WellFormed nodes) (hm : At nodes m xs) {i : ℕ}
    (hi : m < i) (hlt : i < m + xs.length) : reenter s i = .ok s := by
  obtain ⟨n, rfl⟩ : ∃ n, i = m + (n + 1) := ⟨i - m - 1, by omega⟩
  obtain ⟨-, -, htail⟩ := hwf xs hm.mem
  obtain ⟨x, hx⟩ : ∃ x, xs[n + 1]? = some x := ⟨_, List.getElem?_eq_getElem (show n + 1 < xs.length by omega)⟩
  obtain ⟨hbase, hlabel⟩ := hpools.get hm hx
  have h0 : x.1 ≠ 0 := by
    refine htail _ (List.mem_of_getElem? (i := n) ?_)
    rw [List.getElem?_tail, hx]
  have hcond : ¬ (x.1 = 0 ∨ BaseUnit.isState ⟨itemBase (n + 1 == 0) (decide (n + 1 + 1 < xs.length)) x⟩ = true) := by
    rw [isState_itemBase h0]
    simp [h0]
  rw [reenter, hlabel, hbase, ok_bind, ok_bind, if_neg hcond]
  rfl

/-- The table that is twice as long holds the states. -/
theorem expandHashTable_eq (hpools : Pools nodes s.basePool s.labelPool) (hwf : WellFormed nodes)
    (hroom : nodes.length < s.hashTable.length * 2) :
    ∃ table, s.expandHashTable = .ok { s with hashTable := table } ∧ table.length = s.hashTable.length * 2 ∧
      Table nodes (starts 1 nodes) table := by
  suffices hall : ∀ (post pre : List (List Item)) (table : List ℕ), nodes = pre ++ post → nodes.length < table.length →
      Table nodes (starts 1 pre) table →
      ∃ table', (List.range' (1 + pre.flatten.length) post.flatten.length).foldlM reenter { s with hashTable := table } =
          .ok { s with hashTable := table' } ∧ table'.length = table.length ∧ Table nodes (starts 1 nodes) table' by
    obtain ⟨table, hfold, hlen, htable⟩ := hall nodes [] (List.replicate (s.hashTable.length <<< 1) 0) rfl
      (by rwa [List.length_replicate, Nat.shiftLeft_eq, pow_one]) (Table.empty nodes _)
    rw [List.length_replicate, Nat.shiftLeft_eq, pow_one] at hlen
    refine ⟨table, ?_, hlen, htable⟩
    rw [expandHashTable, hpools.length_base, Nat.add_sub_cancel_left]
    exact hfold
  intro post
  induction post with
  | nil =>
    intro pre table hnodes _ htable
    rw [List.append_nil] at hnodes
    exact ⟨table, rfl, rfl, hnodes ▸ htable⟩
  | cons xs post ih =>
    intro pre table hnodes hlt htable
    have hm : At nodes (1 + pre.flatten.length) xs := ⟨pre, post, hnodes, rfl⟩
    have hpos := List.length_pos_iff.mpr (hwf xs hm.mem).1
    have hle : pre.length < table.length := by
      rw [hnodes, List.length_append] at hlt
      omega
    obtain ⟨table₁, hhead, hlen₁, htable₁⟩ := reenter_head (s := { s with hashTable := table }) hpools hwf htable
      (by rwa [length_starts]) hm
    obtain ⟨table₂, hrest, hlen₂, htable₂⟩ :=
      ih (pre ++ [xs]) table₁ (by rw [hnodes, List.append_assoc]; rfl) (by rwa [hlen₁])
      (by rwa [starts_concat])
    have htail : (List.range' (1 + pre.flatten.length + 1) (xs.length - 1)).foldlM reenter { s with hashTable := table₁ } =
        .ok { s with hashTable := table₁ } := by
      refine foldlM_same fun i hi => ?_
      rw [List.mem_range'_1] at hi
      have hlt : i < 1 + pre.flatten.length + xs.length := by omega
      exact reenter_tail (s := { s with hashTable := table₁ }) hpools hwf hm hi.1 hlt
    have hsplit : List.range' (1 + pre.flatten.length) (xs :: post).flatten.length =
        (1 + pre.flatten.length) :: List.range' (1 + pre.flatten.length + 1) (xs.length - 1) ++
          List.range' (1 + (pre ++ [xs]).flatten.length) post.flatten.length := by
      rw [← List.range'_succ, Nat.sub_add_cancel hpos, List.flatten_cons, List.length_append, ← List.range'_append_1,
        List.flatten_append, List.length_append, List.flatten_singleton, Nat.add_assoc]
    refine ⟨table₂, ?_, hlen₂.trans hlen₁, htable₂⟩
    rw [hsplit, List.foldlM_append, List.foldlM_cons, hhead, ok_bind, htail, ok_bind, hrest]

end DawgBuilder

end InfixSearch.Dawgdic
