import InfixSearch.Dawgdic.Offsets

/-!
# Arranging child nodes

A unit that waits gets an offset for the state it should lead to, and the items of the state get
their units one after the other (`Unused.exists_placeLabels`). If the offset is in the next block
then the dictionary is expanded first. There is always an offset, unless the dictionary is full
(`Placed.exists_arrangeChildNodes`).
-/

namespace InfixSearch.Dawgdic

open Library DictionaryUnit DictionaryBuilder

variable {d : Dawg} {nodes : List (List Item)} {t : WordTree UInt8 ℕ} {p m i j o dead w : ℕ}
  {c : UInt8} {xs zs pre : List Item} {x : Item}
  {s s' : DictionaryBuilder} {v v' : Marks} {g : Placement ℕ} {P P' : ℕ → Prop} {b : Bool} {offset : ℕ}

/-! ### A new block -/

namespace Placed

/-- The dictionary is expanded. -/
theorem exists_expandDictionary (h : Placed d nodes p s v g P (s.extras.length - 16))
    (hbound : s.units.length + 256 ≤ 2 ^ 29) :
    ∃ s' v', s.expandDictionary (reserveUnit 1) = .ok s' ∧ Placed d nodes p s' v' g P (s'.extras.length - 16) ∧
      s'.extras.length = s.extras.length + 1 ∧ (∀ i, i = 0 ∨ Taken g i → s'.units[i]? = s.units[i]?) ∧
      ∀ i, i / 256 = s.extras.length → v'.fixed i = false ∧ v'.used i = false := by
  have hpos := h.pos
  obtain ⟨s₁, v₁, s', v', hexpand, hgrow, ⟨hlt, rfl, rfl⟩ | ⟨w, hle, hfix⟩⟩ :=
    h.unused.exists_expandDictionary (reserveUnit 1) (fun s i hi => reserveUnit_of_lt hi) (by omega)
  · have h' := h.grow hgrow (by omega) (by omega) hbound
    rw [show s₁.extras.length - 16 = s'.extras.length - 16 by rw [hgrow.length]; omega] at h'
    exact ⟨s', v', hexpand, h', hgrow.length, fun i hi => h.same_of_grows hgrow hi, hgrow.new⟩
  · have h₁ := h.fixBlock hfix (by omega)
    have hlen := hfix.relabels.length
    have hunits : s₁.units.length = s.units.length := by rw [h₁.unused.marked.units, h.unused.marked.units, hlen]
    have h' := h₁.grow hgrow (by omega) (by omega) (by omega)
    rw [show s.extras.length - 16 + 1 = s'.extras.length - 16 by rw [hgrow.length]; omega] at h'
    refine ⟨s', v', hexpand, h', by rw [hgrow.length, hlen], fun i hi => ?_, hlen ▸ hgrow.new⟩
    rw [h₁.same_of_grows hgrow hi, h.same_of_fixes hfix (by omega) hi]

/-- The offset of a unit that waits does not matter. -/
theorem setOffset (h : Placed d nodes p s v g P dead) (hn : Node p g i c m) (hP : P i) (henc : Encodable offset) :
    Placed d nodes p { s with units := s.units.set i (inner c false offset) } v g P dead := by
  obtain ⟨offset', -, hi⟩ := h.wait i c m hn hP
  have hlen : (s.units.set i (inner c false offset)).length = s.units.length := List.length_set
  have hother : ∀ j, j ≠ i → (s.units.set i (inner c false offset))[j]? = s.units[j]? :=
    fun j hj => List.getElem?_set_ne hj.symm
  refine ⟨h.unused.setUnits hlen _, hlen.trans_le h.bound, h.pos, h.late, h.apart, fun o ho => ?_, h.used, h.fixed,
    fun j hj hlt hfree => ?_,
    fun j hj hlt hj0 hfree => ?_, fun o value hv => ?_, h.node, fun j c' m' hj hPj => ?_, fun j c' m' hj hPj => ?_, h.links⟩
  · exact hlen ▸ h.state o ho
  · have hji : j ≠ i := by
      rintro rfl
      exact absurd ((h.fixed j hj hlt).mpr hn.taken) (by rw [hfree]; decide)
    exact (hother j hji).trans (h.free j hj hlt hfree)
  · have hji : j ≠ i := by
      rintro rfl
      exact hn.taken.elim hj0 hfree
    dsimp only
    rw [hother j hji]
    exact h.left j hj hlt hj0 hfree
  · exact (hother o (hn.ne_of_leaf h.apart hv).symm).trans (h.leaf o value hv)
  · by_cases hji : j = i
    · subst hji
      obtain ⟨rfl, rfl⟩ := hj.unique hn h.apart
      exact ⟨offset, henc, Pool.getElem?_set_self hi _⟩
    · dsimp only
      rw [hother j hji]
      exact h.wait j c' m' hj hPj
  · have hji : j ≠ i := by
      rintro rfl
      exact hPj hP
    obtain ⟨o, hm', henc', hget⟩ := h.lead j c' m' hj hPj
    exact ⟨o, hm', henc', (hother j hji).trans hget⟩

end Placed

/-! ### The items of a state -/

namespace DictionaryBuilder

/-- A unit gets the label or the value of its item. -/
theorem setChildNode_eq (hk : d.Keeps nodes t) (hm : At nodes m (pre ++ x :: zs))
    (hi : s.units[i]? = some (inner c b offset)) (hcell : s.units[cell o x.1]? = some DictionaryUnit.construct)
    (hne : i ≠ cell o x.1) :
    s.setChildNode d i (cell o x.1) (m + pre.length) x.1 = .ok { s with
      units := (s.units.set i (inner c (b || decide (x.1 = 0)) offset)).set (cell o x.1) (itemUnit x) } := by
  have hget : (pre ++ x :: zs)[pre.length]? = some x := by simp
  have hlt := Pool.lt_of_getElem? hi
  rw [setChildNode, Dawg.isLeaf, hk.label_eq hm hget, ok_bind, pure_ok, ok_bind, itemUnit]
  by_cases h0 : x.1 = 0
  · rw [if_pos (by simpa using h0), if_pos h0, modifyUnit_eq hi, ok_bind, hk.value_eq hm hget h0, ok_bind,
      inner_setHasLeaf,
      decide_eq_true h0, Bool.or_true]
    exact modifyUnit_eq (by rw [List.getElem?_set_ne hne, hcell]) _
  · have hsame : s.units.set i (inner c b offset) = s.units := by
      rw [List.getElem?_eq_getElem hlt, Option.some.injEq] at hi
      rw [← hi, List.set_getElem_self]
    rw [if_neg (by simpa using h0), if_neg h0, decide_eq_false h0, Bool.or_false, hsame, modifyUnit_eq hcell,
      ← inner_zero,
      inner_setLabel (.inl (by decide))]

/-- The items get their units. -/
theorem Unused.exists_placeLabels (hk : d.Keeps nodes t) (hm : At nodes m (pre ++ zs)) (h : s.Unused v)
    (hlive : Live s.extras.length o) (hlabels : (zs.map Prod.fst).Nodup)
    (hfree : ∀ x ∈ zs, v.fixed (cell o x.1) = false ∧ s.units[cell o x.1]? = some DictionaryUnit.construct)
    (hi : s.units[i]? = some (inner c b offset)) (hne : ∀ x ∈ zs, i ≠ cell o x.1) (hj : zs ≠ [] → j = m + pre.length) :
    ∃ s' v', placeLabels d i o s j (zs.map Prod.fst) = .ok s' ∧
      Places s s' v v' o zs i (inner c (b || decide (0 ∈ zs.map Prod.fst)) offset) ∧ v'.used = v.used := by
  induction zs generalizing pre s v b j with
  | nil =>
    refine ⟨s, v, rfl, ⟨h, rfl, rfl, fun j => by simp, fun x hx => absurd hx List.not_mem_nil, by simpa using hi, fun j _ _ => rfl⟩, rfl⟩
  | cons x zs ih =>
    rw [List.map_cons, List.nodup_cons] at hlabels
    rw [List.forall_mem_cons] at hfree hne
    obtain rfl := hj (List.cons_ne_nil _ _)
    have hcell : Live s.extras.length (cell o x.1) := by
      rw [Live, cell_div]
      exact hlive
    obtain ⟨extras, unfixed, v₁, hunlink, h₁, hlen, hfixed₁, hused₁⟩ := h.exists_unlinkUnit hcell hfree.1.1
    have h₂ := h₁.setUnits
      (show ((s.units.set i (inner c (b || decide (x.1 = 0)) offset)).set (cell o x.1) (itemUnit x)).length = s.units.length by
      rw [List.length_set, List.length_set]) s.numOfUnusedUnits
    have hset : ({ s with extras := extras, unfixedIndex := unfixed } : DictionaryBuilder).setChildNode d i (o ^^^ x.1.toNat)
        (m + pre.length) x.1 = .ok { s with
          extras := extras, unfixedIndex := unfixed,
          units := (s.units.set i (inner c (b || decide (x.1 = 0)) offset)).set (cell o x.1) (itemUnit x) } :=
      setChildNode_eq hk hm hi hfree.1.2 hne.1
    have hcells : ∀ y ∈ zs, cell o y.1 ≠ cell o x.1 :=
      fun y hy he => hlabels.1 (cell_right_inj.mp he ▸ List.mem_map_of_mem hy)
    have hlt := Pool.lt_of_getElem? hi
    have hltcell := Pool.lt_of_getElem? hfree.1.2
    have hfix : ∀ j, v₁.fixed j = true ↔ v.fixed j = true ∨ j = cell o x.1 := by
      intro j
      rw [hfixed₁, Function.update_apply]
      split_ifs with hj <;> simp [hj]
    have hget : (pre ++ x :: zs)[pre.length]? = some x := by simp
    have hfree₁ : ∀ y ∈ zs, v₁.fixed (cell o y.1) = false ∧
        ((s.units.set i (inner c (b || decide (x.1 = 0)) offset)).set (cell o x.1) (itemUnit x))[cell o y.1]? =
          some DictionaryUnit.construct := by
      refine fun y hy => ⟨?_, ?_⟩
      · rw [← Bool.not_eq_true, hfix, not_or]
        exact ⟨by rw [(hfree.2 y hy).1]; decide, hcells y hy⟩
      · rw [List.getElem?_set_ne (hcells y hy).symm, List.getElem?_set_ne (hne.2 y hy), (hfree.2 y hy).2]
    have hnext : zs ≠ [] → (if pre.length + 1 < (pre ++ x :: zs).length then m + pre.length + 1 else 0) = m + (pre ++ [x]).length := by
      intro hzs
      have hpos := List.length_pos_iff.mpr hzs
      rw [if_pos (by simp; omega), List.length_append, List.length_singleton, Nat.add_assoc]
    obtain ⟨s', v', hrun, hplaces, hused⟩ := ih (by simpa using hm) h₂ (by dsimp only; rwa [hlen]) hlabels.2 hfree₁
      (by dsimp only; rw [List.getElem?_set_ne hne.1.symm, List.getElem?_set_self hlt]) hne.2 hnext
    refine ⟨s', v', ?_, ⟨hplaces.unused, hplaces.length.trans hlen, hplaces.linkTable, fun j => ?_, ?_, ?_, fun j hj hcell => ?_⟩,
      hused.trans hused₁⟩
    · have hreserve : reserveUnit reserveDepth s (o ^^^ x.1.toNat) = .ok { s with extras := extras, unfixedIndex := unfixed } :=
        (reserveUnit_of_lt hltcell).trans hunlink
      rw [List.map_cons, placeLabels, hreserve, ok_bind, hset, ok_bind, hk.sibling_eq hm hget, ok_bind, hrun]
    · rw [hplaces.fixed, hfix, List.exists_mem_cons_iff, or_assoc]
    · rw [List.forall_mem_cons]
      refine ⟨?_, hplaces.cells⟩
      rw [hplaces.same _ hne.1.symm fun y hy => (hcells y hy).symm]
      exact List.getElem?_set_self (by rwa [List.length_set])
    · rw [hplaces.unit, Bool.or_assoc, ← Bool.decide_or]
      simp only [List.map_cons, List.mem_cons, eq_comm]
    · rw [List.forall_mem_cons] at hcell
      rw [hplaces.same j hj hcell.2]
      dsimp only
      rw [List.getElem?_set_ne hcell.1.symm, List.getElem?_set_ne hj.symm]

end DictionaryBuilder

/-! ### A state -/

namespace Placed

/-- A state is placed at an offset that is found. -/
theorem exists_placeState (h : Placed d nodes p s v g P (s.extras.length - 16)) (hk : d.Keeps nodes t)
    (hn : Node p g i c m) (hP : P i) (hm : At nodes m xs) (hlive : Live s.extras.length o)
    (hunused : v.used o = false) (hfree : ∀ x ∈ xs, v.fixed (cell o x.1) = false) (henc : Encodable (i ^^^ o))
    (hi : s.units[i]? = some (inner c false (i ^^^ o))) :
    ∃ s₁ s' v', placeLabels d i o s m (xs.map Prod.fst) = .ok s₁ ∧ s₁.modifyExtra o DictionaryExtraUnit.setIsUsed = .ok s' ∧ o ≠ 0 ∧
      g o = [] ∧ Placed d nodes p s' v' (Function.update g o xs) (fun j => P j ∧ j ≠ i ∨ ∃ x ∈ xs, x.1 ≠ 0 ∧ j = cell o x.1)
        (s'.extras.length - 16) ∧ s'.extras.length = s.extras.length := by
  obtain ⟨hlt, hlate⟩ := hlive
  have hdead : s.extras.length - 16 ≤ o / 256 := by omega
  have hused := h.used o hdead hlt
  rw [hunused, Bool.false_eq_true, false_iff, not_or, not_not] at hused
  have hcells : ∀ x ∈ xs, i ≠ cell o x.1 := by
    rintro x hx rfl
    have hfixed := (h.fixed (cell o x.1) (by rwa [cell_div]) (by rwa [cell_div])).mpr hn.taken
    exact absurd hfixed (by rw [hfree x hx]; decide)
  have hconstruct : ∀ x ∈ xs, v.fixed (cell o x.1) = false ∧ s.units[cell o x.1]? = some DictionaryUnit.construct :=
    fun x hx =>
    ⟨hfree x hx, h.free _ (by rwa [cell_div]) (by rwa [cell_div]) (hfree x hx)⟩
  obtain ⟨s₁, v₁, hrun, hplaces, hused₁⟩ := h.unused.exists_placeLabels hk (show At nodes m ([] ++ xs) from hm) ⟨hlt, hlate⟩
    (hk.nodup_labels hm.mem) hconstruct hi
    hcells fun _ => rfl
  obtain ⟨extras, hset, h₂, hlen⟩ := hplaces.unused.exists_setIsUsed (i := o) (hplaces.length ▸ ⟨hlt, hlate⟩)
  have hcount : extras.length = s.extras.length := hlen.trans hplaces.length
  have hplaces₂ : Places s { s₁ with extras := extras } v (v₁.setIsUsed o) o xs i
      (inner c (decide (0 ∈ xs.map Prod.fst)) (i ^^^ o)) := by
    refine ⟨h₂, hcount, hplaces.linkTable, hplaces.fixed, hplaces.cells, ?_, hplaces.same⟩
    rw [hplaces.unit, Bool.false_or]
  have h' := h.place hk hn hP hm hused.1 henc (.new hused.2 rfl hdead hlt hfree) hplaces₂ fun j _ _ => by
    rw [Marks.setIsUsed, hused₁]
    dsimp only
    rw [Function.update_apply]
    split_ifs with hj <;> simp [hj]
  refine ⟨s₁, { s₁ with extras := extras }, v₁.setIsUsed o, hrun, hset, hused.1, hused.2, ?_, hcount⟩
  dsimp only
  rw [hcount]
  exact h'

/-- The labels of a state, and an offset for it. -/
theorem exists_arrangeChildNodes (h : Placed d nodes p s v g P (s.extras.length - 16)) (hk : d.Keeps nodes t)
    (hn : Node p g i c m) (hP : P i) (hm : At nodes m xs) (hchild : d.child j = .ok m) :
    (∃ s', s.arrangeChildNodes d j i = .ok (0, s') ∧ s.extras.length = 2 ^ 21) ∨
      ∃ o s' v', s.arrangeChildNodes d j i = .ok (o, s') ∧ o ≠ 0 ∧ g o = [] ∧
        Placed d nodes p s' v' (Function.update g o xs) (fun j => P j ∧ j ≠ i ∨ ∃ x ∈ xs, x.1 ≠ 0 ∧ j = cell o x.1)
          (s'.extras.length - 16) ∧ s'.extras.length ≤ s.extras.length + 1 := by
  have hpool := h.unused.marked.units
  have hbound := h.bound
  have hlabels : forLinks d.sibling (fun labels i => do pure (labels ++ [← d.label i])) (d.size + 1) [] m = .ok (xs.map Prod.fst) := by
    have hlinked := hk.linked (show At nodes m ([] ++ xs) from hm)
    have hall := hk.labels_eq (show At nodes m ([] ++ xs) from hm) []
    have hfirst : firstLink (List.range' m xs.length) = m := by
      obtain ⟨x, ys, rfl⟩ := List.exists_cons_of_ne_nil (hk.wellFormed xs hm.mem).1
      rfl
    rw [← hfirst]
    refine (forLinks_eq hlinked ?_ []).trans hall
    rw [List.length_range']
    exact (hk.length_lt_size hm).trans (Nat.lt_succ_self _)
  obtain ⟨x, ys, rfl⟩ := List.exists_cons_of_ne_nil (hk.wellFormed xs hm.mem).1
  have hlt : i < 2 ^ 29 := by
    have := h.div_lt hn.taken
    omega
  obtain ⟨offset, hoffset, hi⟩ := h.wait i c m hn hP
  obtain ⟨o, hfind, hcase⟩ := h.unused.exists_findGoodOffset x.1 (ys.map Prod.fst) hlt hbound
  have hnone : 2 ^ 29 ≤ i ^^^ o → s.arrangeChildNodes d j i = .ok (0, s) := fun hle => by
    rw [arrangeChildNodes, hchild, ok_bind, hlabels, ok_bind, List.map_cons, hfind, ok_bind, Pool.get_eq hi, ok_bind,
      setOffset_eq_none_iff.mpr hle]
    rfl
  have hsome : ∀ {s₁ s'}, Encodable (i ^^^ o) →
      placeLabels d i o { s with units := s.units.set i (inner c false (i ^^^ o)) } m ((x :: ys).map Prod.fst) = .ok s₁ →
      s₁.modifyExtra o DictionaryExtraUnit.setIsUsed = .ok s' → s.arrangeChildNodes d j i = .ok (o, s') := fun henc hplace hset => by
    rw [arrangeChildNodes, hchild, ok_bind, hlabels, ok_bind, List.map_cons, hfind, ok_bind, Pool.get_eq hi, ok_bind,
      inner_setOffset hoffset henc]
    dsimp only
    rw [← List.map_cons, hplace, ok_bind, hset]
    rfl
  rcases hcase with rfl | hgood
  · by_cases hfull : s.extras.length = 2 ^ 21
    · rw [hpool, hfull] at hnone
      exact .inl ⟨s, hnone (le_nextOffset hlt), hfull⟩
    · have henc : Encodable (i ^^^ (s.units.length ||| (i &&& 0xFF))) := by
        rw [hpool]
        exact encodable_nextOffset (by omega) hlt
      have hdiv : (s.units.length ||| (i &&& 0xFF)) / 256 = s.extras.length := by
        rw [hpool, nextOffset_eq]
        omega
      have h₀ := h.setOffset hn hP henc
      obtain ⟨s₁, v₁, hexpand, h₁, hlen, hsame, hnew⟩ :=
        h₀.exists_expandDictionary (by dsimp only; rw [List.length_set]; omega)
      dsimp only at hlen hnew hsame
      obtain ⟨s₂, s', v', hplace, hset, ho, hgo, h', hlen'⟩ :=
        h₁.exists_placeState hk hn hP hm (o := s.units.length ||| (i &&& 0xFF))
        ⟨by omega, by omega⟩ (hnew _ hdiv).2 (fun y _ => (hnew _ (by rw [cell_div, hdiv])).1) henc
        ((hsame i hn.taken).trans (Pool.getElem?_set_self hi _))
      -- the first label expands the dictionary
      have hexpands : placeLabels d i (s.units.length ||| (i &&& 0xFF)) { s with
          units := s.units.set i (inner c false (i ^^^ (s.units.length ||| (i &&& 0xFF)))) } m ((x :: ys).map Prod.fst) = .ok s₂ := by
        have hcell : ((s.units.length ||| (i &&& 0xFF)) ^^^ x.1.toNat) / 256 = s.extras.length :=
          (cell_div _ _).trans hdiv
        have hlt₁ : (s.units.length ||| (i &&& 0xFF)) ^^^ x.1.toNat < s₁.units.length := by
          rw [h₁.unused.marked.units]
          omega
        rw [List.map_cons, placeLabels, reserveDepth, reserveUnit_of_lt hlt₁] at hplace
        rw [List.map_cons, placeLabels, reserveUnit_of_le (by dsimp only; rw [List.length_set]; omega), hexpand, ok_bind]
        exact hplace
      exact .inr ⟨_, s', v', hsome henc hexpands hset, ho, hgo, h', by omega⟩
  · have h₀ := h.setOffset hn hP hgood.encodable
    obtain ⟨s₁, s', v', hplace, hset, ho, hgo, h', hlen⟩ := h₀.exists_placeState hk hn hP hm hgood.live hgood.unused
      (fun y hy => hgood.free _ (List.mem_map_of_mem (f := Prod.fst) hy)) hgood.encodable (Pool.getElem?_set_self hi _)
    exact .inr ⟨o, s', v', hsome hgood.encodable hplace hset, ho, hgo, h', hlen.le.trans (Nat.le_succ _)⟩

end Placed

end InfixSearch.Dawgdic
