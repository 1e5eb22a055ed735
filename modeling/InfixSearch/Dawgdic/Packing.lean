import InfixSearch.Dawgdic.Laying

/-!
# Packing a dictionary

The builder begins with the root, places the states, and fixes the blocks that are left. So the
units it returns hold the states (`Dictionary.Packs`), unless the dictionary gets full: there are
units for 2^21 blocks, and a letter needs no more than one (`exists_buildDictionary`).
-/

namespace InfixSearch.Dawgdic

open Library DictionaryUnit DictionaryBuilder

variable {d : Dawg} {nodes : List (List Item)} {t : WordTree UInt8 ℕ} {p m i o dead w : ℕ} {c : UInt8} {xs : List Item}
  {s s' : DictionaryBuilder} {v v' : Marks} {g g' : Placement ℕ} {P P' : ℕ → Prop}

/-! ### The root -/

theorem card_filter_le_count (l : List Bool) :
    ((Finset.range l.length).filter fun i => l[i]? = some true ∧ i ≠ 0).card ≤ l.count true := by
  induction l using List.reverseRecOn with
  | nil => simp
  | append_singleton l b ih =>
    rw [List.length_append, List.length_singleton, Finset.range_add_one, Finset.filter_insert, List.count_append]
    have hold : (Finset.range l.length).filter (fun i => (l ++ [b])[i]? = some true ∧ i ≠ 0) =
        (Finset.range l.length).filter fun i => l[i]? = some true ∧ i ≠ 0 := by
      refine Finset.filter_congr fun i hi => ?_
      rw [List.getElem?_append_left (Finset.mem_range.mp hi)]
    rw [hold, List.getElem?_concat_length]
    cases b with
    | false => simpa using ih
    | true =>
      refine (Finset.card_le_card (t := insert l.length _) ?_).trans
        ((Finset.card_insert_le _ _).trans (Nat.add_le_add_right ih 1))
      split_ifs
      · exact subset_rfl
      · exact Finset.subset_insert _ _

/-- At first there are no units. -/
theorem DictionaryBuilder.Unused.empty (linkTable : LinkTable) :
    ({ DictionaryBuilder.construct with linkTable := linkTable } : DictionaryBuilder).Unused
      ⟨fun _ => 0, fun _ => 0, fun _ => false, fun _ => false⟩ := by
  refine ⟨⟨?_, ?_⟩, ⟨[], .nil _ _, ?_, fun i => ?_⟩, ?_⟩ <;> simp [Live, DictionaryBuilder.construct]

/-- A single block that has the root alone. -/
theorem Placed.of_root (hunused : s.Unused v) (hcount : s.extras.length = 1)
    (hunits : s.units = (List.replicate 256 DictionaryUnit.construct).set 0 (inner 0 false 1))
    (hused : ∀ j, j / 256 < 1 → (v.used j = true ↔ j = 0)) (hfixed : ∀ j, j / 256 < 1 → (v.fixed j = true ↔ j = 0))
    (hlinks : ∃ f, s.linkTable.Links d.merging f ∧ ∀ m, f m ≠ 0 → At nodes m []) :
    Placed d nodes p s v (fun _ => []) (· = 0) (s.extras.length - 16) := by
  have hnone : ∀ j, ¬ Taken (fun _ => [] : Placement ℕ) j := by
    rintro j ⟨_, _, hx, -⟩
    exact absurd hx List.not_mem_nil
  have hlength : s.units.length = 256 := by rw [hunits, List.length_set, List.length_replicate]
  rw [hcount]
  refine ⟨hunused, hlength.trans_le (by decide), by omega, by omega, .empty, fun o ho => absurd rfl ho,
    fun o _ ho => ?_, fun j _ hj => ?_, fun j _ hj hfree => ?_, fun j hj => absurd hj (Nat.not_lt_zero _),
    fun o value hv => absurd hv List.not_mem_nil, fun j hj => ⟨0, p, hj ▸ .root⟩, fun j c m hj h0 => ?_,
    fun j c m hj h0 => absurd hj.taken (not_or.mpr ⟨h0, hnone j⟩), hlinks⟩
  · rw [hcount] at ho
    rw [hused o ho]
    simp
  · rw [hcount] at hj
    rw [hfixed j hj]
    simp [hnone]
  · rw [hcount] at hj
    have hj0 : j ≠ 0 := fun h0 => absurd ((hfixed j hj).mpr h0) (by rw [hfree]; decide)
    rw [hunits, List.getElem?_set_ne hj0.symm, List.getElem?_replicate_of_lt (by omega)]
  · subst h0
    obtain ⟨rfl, -⟩ := hj.unique .root .empty
    exact ⟨1, .inl (by decide), by rw [hunits]; rfl⟩

/-- The root is the first unit. -/
theorem exists_reserveRoot (hk : d.Keeps nodes t) (p : ℕ) :
    ∃ s v, reserveRoot d = .ok s ∧ Placed d nodes p s v (fun _ => []) (· = 0) (s.extras.length - 16) ∧
      s.extras.length = 1 ∧ s.units[0]? = some (inner 0 false 1) := by
  have h₀ := Unused.empty (LinkTable.init (d.numOfMergingStates + (d.numOfMergingStates >>> 1)))
  obtain ⟨s₁, v₁, s', v', hexpand, hgrow, hcase⟩ := h₀.exists_expandDictionary (reserveUnit 1)
    (fun s i hi => reserveUnit_of_lt hi) (by simp [DictionaryBuilder.construct])
  obtain ⟨-, rfl, rfl⟩ := hcase.resolve_right (by
    rintro ⟨w, hle, -⟩
    simp [DictionaryBuilder.construct] at hle)
  have hlen : s'.extras.length = 1 := hgrow.length
  obtain ⟨extras, unfixed, v₂, hunlink, h₂, hlen₂, hfixed₂, hused₂⟩ := hgrow.unused.exists_unlinkUnit (i := 0)
    (by rw [hlen]; exact ⟨by decide, by decide⟩) (hgrow.new 0 rfl).1
  obtain ⟨extras₃, hset, h₃, hlen₃⟩ :=
    h₂.exists_setIsUsed (i := 0) (by rw [hlen₂, hlen]; exact ⟨by decide, by decide⟩)
  have hcount : extras₃.length = 1 := hlen₃.trans (hlen₂.trans hlen)
  have hunits : s'.units = List.replicate 256 DictionaryUnit.construct := hgrow.units
  have hzero : s'.units[0]? = some (inner 0 false 0) := by
    rw [hunits, inner_zero]
    rfl
  refine ⟨{ s' with
    extras := extras₃, unfixedIndex := unfixed, units := (s'.units.set 0 (inner 0 false 1)).set 0 (inner 0 false 1) },
    v₂.setIsUsed 0, ?_, .of_root (h₃.setUnits ?_ _) hcount ?_ (fun j hj => ?_) (fun j hj => ?_) ?_, hcount, ?_⟩
  · have hreserve : reserveUnit reserveDepth { DictionaryBuilder.construct with
        linkTable := LinkTable.init (d.numOfMergingStates + (d.numOfMergingStates >>> 1)) } 0 =
        .ok { s' with extras := extras, unfixedIndex := unfixed } := by
      rw [reserveUnit_of_le (Nat.zero_le _), hexpand, ok_bind, hunlink]
    rw [reserveRoot]
    dsimp only
    have hoffset := modifyUnit_eq (s := { s' with extras := extras₃, unfixedIndex := unfixed }) hzero
      fun u => (u.setOffset 1).getD u
    rw [inner_setOffset (.inl (by decide)) (.inl (by decide)), Option.getD_some] at hoffset
    rw [hreserve, ok_bind, hset, ok_bind, hoffset, ok_bind, modifyUnit_eq (Pool.getElem?_set_self hzero _),
      inner_setLabel (.inl (by decide))]
  · rw [List.length_set, List.length_set]
  · dsimp only
    rw [List.set_set, hunits]
  · rw [Marks.setIsUsed, hused₂]
    dsimp only
    rw [Function.update_apply, (hgrow.new j (show j / 256 = 0 by omega)).2]
    split_ifs with h0 <;> simp [h0]
  · rw [Marks.setIsUsed]
    dsimp only
    rw [hfixed₂, Function.update_apply, (hgrow.new j (show j / 256 = 0 by omega)).1]
    split_ifs with h0 <;> simp [h0]
  · refine ⟨fun _ => 0, ?_, fun m hm => absurd rfl hm⟩
    dsimp only
    rw [hgrow.linkTable]
    refine LinkTable.links_init d.merging (by simp [Dawg.merging]) ((card_filter_le_count d.flagPool).trans ?_)
    rw [← hk.merging]
    exact Nat.le_add_right _ _
  · exact Pool.getElem?_set_self (Pool.getElem?_set_self hzero _) _

namespace Placed

/-- The blocks that are left are fixed. -/
theorem exists_fixAllBlocks (h : Placed d nodes p s v g P (s.extras.length - 16)) :
    ∃ s' v', s.fixAllBlocks = .ok s' ∧ Placed d nodes p s' v' g P s'.extras.length ∧ s'.extras.length = s.extras.length ∧
      ∀ i, i = 0 ∨ Taken g i → s'.units[i]? = s.units[i]? := by
  have hfold : ∀ k b {s v}, Placed d nodes p s v g P b → b + k = s.extras.length →
      ∃ s' v', (List.range' b k).foldlM (fun s b => s.fixBlock (reserveUnit reserveDepth) b) s = .ok s' ∧
        Placed d nodes p s' v' g P s'.extras.length ∧ s'.extras.length = s.extras.length ∧
        ∀ i, i = 0 ∨ Taken g i → s'.units[i]? = s.units[i]? := by
    intro k
    induction k with
    | zero =>
      intro b s v h hb
      exact ⟨s, v, rfl, (show b = s.extras.length from hb) ▸ h, rfl, fun i _ => rfl⟩
    | succ k ih =>
      intro b s v h hb
      have hlate := h.late
      obtain ⟨s₁, v₁, w, hfix, hrelabels, hfree⟩ := h.unused.exists_fixBlock (reserveUnit reserveDepth)
        (fun s i hi => reserveUnit_of_lt hi) (show b < s.extras.length by omega) (by omega)
      have hfixes : Fixes s s₁ v v₁ b w := ⟨hrelabels, hfree⟩
      have hlen := hrelabels.length
      obtain ⟨s', v', hrun, h', hlen', hsame⟩ := ih (b + 1) (h.fixBlock hfixes (by omega)) (by omega)
      refine ⟨s', v', ?_, h', hlen'.trans hlen, fun i hi => ?_⟩
      · rw [List.range'_succ, List.foldlM_cons, hfix, ok_bind, hrun]
      · rw [hsame i hi, h.same_of_fixes hfixes (by omega) hi]
  have hfirst : (if s.numOfBlocks > numOfUnfixedBlocks then s.numOfBlocks - numOfUnfixedBlocks else 0) = s.extras.length - 16 := by
    rw [numOfBlocks, numOfUnfixedBlocks]
    split_ifs <;> omega
  rw [fixAllBlocks, hfirst]
  exact hfold _ _ h (by rw [numOfBlocks]; omega)

end Placed

/-! ### The dictionary of a dawg -/

/-- All states of a dawg are placed, unless the dictionary gets full. -/
theorem exists_buildDictionary (hk : d.Keeps nodes t) (hne : t ≠ .nil) :
    ∃ p xs r, d.child d.root = .ok p ∧ At nodes p xs ∧ Spells nodes xs t ∧ buildDictionary d = .ok r ∧ (r = none → 2 ^ 21 < t.edges + 2) ∧
      ∀ s, r = some s → ∃ v g, Placed d nodes p s v g (fun _ => False) s.extras.length := by
  obtain ⟨p, xs, hp, ⟨-, -, rfl⟩ | hm, hxs⟩ := hk.top
  · exact absurd (hxs.eq_nil_iff.mp rfl) hne
  obtain ⟨s, v, hreserve, h, hlen, -⟩ := exists_reserveRoot hk p
  have hle := hm.le_length hk.wellFormed
  have hpos := hm.pos
  have hsize : d.size > 1 := by
    rw [hk.size_eq]
    omega
  obtain ⟨r, hrun, hr⟩ := buildsFrom hk (d.size + 1) h .root rfl hm hxs hk.root (by decide) hp (by rw [hk.size_eq]; omega)
  have hstates : s.buildStates d = .ok r := by
    rw [buildStates, if_pos hsize]
    exact hrun
  rw [buildDictionary, hreserve, ok_bind, hstates, ok_bind]
  cases r with
  | none =>
    refine ⟨p, xs, none, hp, hm, hxs, rfl, fun _ => ?_, fun s hs => absurd hs.symm (Option.some_ne_none s)⟩
    rw [Builds, hlen] at hr
    omega
  | some s₁ =>
    obtain ⟨v₁, g, h₁, -, -⟩ := hr
    obtain ⟨s', v', hfix, h', -, -⟩ := h₁.exists_fixAllBlocks
    refine ⟨p, xs, some s', hp, hm, hxs, by dsimp only; rw [hfix]; rfl, fun hc => absurd hc (Option.some_ne_none s'),
      fun s hs => ?_⟩
    obtain rfl := Option.some.inj hs
    exact ⟨v', g, h'.congr fun i => by simp⟩

/-- If there are no words, then the root is the only unit. -/
theorem exists_buildDictionary_nil (hk : d.Keeps nodes .nil) :
    ∃ s v, buildDictionary d = .ok (some s) ∧ Placed d nodes 0 s v (fun _ => []) (· = 0) s.extras.length ∧ s.extras.length = 1 ∧
      s.units[0]? = some (inner 0 false 1) := by
  obtain ⟨p, xs, hp, ⟨rfl, rfl, rfl⟩ | hm, hxs⟩ := hk.top
  · obtain ⟨s, v, hreserve, h, hlen, hroot⟩ := exists_reserveRoot hk 0
    obtain ⟨s', v', hfix, h', hlen', hsame⟩ := h.exists_fixAllBlocks
    refine ⟨s', v', ?_, h', hlen'.trans hlen, (hsame 0 (.inl rfl)).trans hroot⟩
    have hstates : s.buildStates d = .ok (some s) := by
      rw [buildStates, hk.size_eq]
      rfl
    rw [buildDictionary, hreserve, ok_bind, hstates, ok_bind]
    dsimp only
    rw [hfix]
    rfl
  · exact absurd (hxs.eq_nil_iff.mpr rfl) (hk.wellFormed xs hm.mem).1

end InfixSearch.Dawgdic
