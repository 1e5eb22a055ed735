import InfixSearch.Dawgdic.Fixing

/-!
# Inserting keys

What a builder has taken is a lexicon: the keys, in order, with their values. A key that comes
before the last one is refused, the last one again gets a new value, and any other key comes at
the end (`insertLast`). `Built` says that the states and the levels of a builder stand for a
lexicon; `InsertKey` does to it what it should (`Built.exists_insertKey`).
-/

namespace InfixSearch.Dawgdic

open Library WordTree

/-- The lexicon after a key is inserted, if it is taken. -/
def insertLast (es : List (List UInt8 × ℕ)) (key : List UInt8) (v : ℕ) : Option (List (List UInt8 × ℕ)) :=
  match es.getLast? with
  | none => some [(key, v)]
  | some e => if key < e.1 then none else if key = e.1 then some (es.dropLast ++ [(key, v)]) else some (es ++ [(key, v)])

variable {s : DawgBuilder} {nodes : List (List Item)} {levels up : List Level} {l d : Level} {p m n i : ℕ} {us : List (ℕ × Item)}

/-! ### The path of the last key -/

/-- The units of the levels above others. -/
def pathCells : ℕ → List Level → List (ℕ × DawgUnit)
  | _, [] => []
  | p, l :: ls => l.cells p ++ pathCells l.unit ls

/-- What the level below others leads to. -/
def childOf (p : ℕ) (ls : List Level) : ℕ := (ls.map Level.unit).getLastD p

theorem stackCells_append (p : ℕ) (deep up : List Level) :
    stackCells p (deep ++ up) = pathCells p deep ++ stackCells (childOf p deep) up := by
  induction deep generalizing p with
  | nil => rfl
  | cons l deep ih =>
    have hchild : childOf p (l :: deep) = childOf l.unit deep := by
      rw [childOf, childOf, List.map_cons, List.getLastD_cons]
    rw [List.cons_append, stackCells, ih, pathCells, List.append_assoc, hchild]

theorem Units.getElem?_top {deep : List Level} (h : Units s us p (deep ++ up)) :
    ∃ u : DawgUnit, s.unitPool[topUnit up]? = some { u with child := childOf p deep } := by
  obtain ⟨u, rest, hcells⟩ := exists_stackCells up
  have hshows := h.shows
  rw [stackCells_append, hcells] at hshows
  exact ⟨u, hshows (topUnit up, { u with child := childOf p deep }) (by simp)⟩

theorem Units.getElem?_unit {deep : List Level} (h : Units s us p (deep ++ d :: up)) :
    s.unitPool[d.unit]? = some ⟨childOf p deep, firstLink (d.older.map Prod.fst), d.label, d.older.isEmpty, d.hasSibling⟩ := by
  have hshows := h.shows
  rw [stackCells_append, stackCells] at hshows
  exact hshows (d.unit, _) (List.mem_append_right _ (List.mem_append_right _ (List.mem_append_left _ List.mem_cons_self)))

theorem Units.unit_ne_zero {deep : List Level} (h : Units s us p (deep ++ d :: up)) : d.unit ≠ 0 := by
  have hnodup := h.nodup
  rw [stackCells_append, stackCells, List.map_append, List.map_append, Level.cells, map_fst_chainCells] at hnodup
  intro h0
  have hchain := (List.nodup_append.mp (List.nodup_append.mp (List.nodup_append.mp hnodup).1).2.1).2.1
  exact (List.nodup_append.mp hchain).2.2 d.unit List.mem_cons_self 0 (zero_mem_stackCells _ _) h0

/-! ### The first loop -/

/-- What the first loop does at a level whose label is below that of the key. -/
def leave (s : DawgBuilder) (d : Level) (index : ℕ) (labels : List UInt8) : Except Fault (Option (DawgBuilder × ℕ × List UInt8)) := do
  let s ← s.modifyUnit d.unit fun unit => { unit with hasSibling := true }
  let s ← DawgBuilder.fixUnits s.unfixedUnits.length s d.unit
  pure (some (s, index, labels))

/-- The first loop follows the path of the last key as long as the key does. -/
theorem separate_cases {rest : List Level} {key last : List UInt8} (h : Units s [] p (rest.reverse ++ up))
    (hlast : rest.map Level.label = last ++ [0]) (hkey : 0 ∉ key) (hlast0 : 0 ∉ last) :
    (key = last ∧ s.separate (topUnit up) (key ++ [0]) = .ok (some (s, topUnit (rest.reverse ++ up), []))) ∨
    (key < last ∧ s.separate (topUnit up) (key ++ [0]) = .ok none) ∨
    (last < key ∧ ∃ rest₁ d rest₂ k ks, rest = rest₁ ++ d :: rest₂ ∧ key ++ [0] = rest₁.map Level.label ++ k :: ks ∧ d.label < k ∧
      s.separate (topUnit up) (key ++ [0]) = leave s d (topUnit (rest₁.reverse ++ up)) (k :: ks)) := by
  induction rest generalizing up key last with
  | nil => simp at hlast
  | cons d rest ih =>
    rw [List.reverse_cons, List.append_assoc, List.singleton_append] at h ⊢
    obtain ⟨u, htop⟩ := (List.append_cons rest.reverse d up ▸ h).getElem?_top
    have hchild : childOf p (rest.reverse ++ [d]) = d.unit := by
      rw [childOf, List.map_append, List.map_singleton, List.getLastD_concat]
    rw [hchild] at htop
    have hunit := h.getElem?_unit
    have hne := h.unit_ne_zero
    have hstep : ∀ k ks, s.separate (topUnit up) (k :: ks) = if k < d.label then .ok none
        else if k > d.label then leave s d (topUnit up) (k :: ks) else s.separate d.unit ks := by
      intro k ks
      rw [DawgBuilder.separate, Pool.get_eq htop, ok_bind]
      dsimp only
      rw [if_neg hne, Pool.get_eq hunit]
      rfl
    have hpos : ∀ {c : UInt8}, c ≠ 0 → 0 < c := fun hc => UInt8.pos_iff_ne_zero.mpr hc
    cases last with
    | nil =>
      rw [List.map_cons, List.nil_append, List.cons.injEq, List.map_eq_nil_iff] at hlast
      obtain ⟨hd, rfl⟩ := hlast
      cases key with
      | nil =>
        refine .inl ⟨rfl, ?_⟩
        rw [List.nil_append, hstep, hd, if_neg (lt_irrefl _), if_neg (lt_irrefl _)]
        rfl
      | cons b key =>
        have hb : 0 < b := hpos fun h0 => hkey (h0 ▸ List.mem_cons_self)
        refine .inr (.inr ⟨List.nil_lt_cons b key, [], d, [], b, key ++ [0], rfl, rfl, hd ▸ hb, ?_⟩)
        rw [List.cons_append, hstep, hd, if_neg (not_lt_of_gt hb), if_pos hb]
        rfl
    | cons c last =>
      rw [List.map_cons, List.cons_append, List.cons.injEq] at hlast
      obtain ⟨rfl, hlast⟩ := hlast
      rw [List.mem_cons, not_or] at hlast0
      cases key with
      | nil =>
        have hc : 0 < d.label := hpos (Ne.symm hlast0.1)
        refine .inr (.inl ⟨List.nil_lt_cons _ _, ?_⟩)
        rw [List.nil_append, hstep, if_pos hc]
      | cons b key =>
        rw [List.mem_cons, not_or] at hkey
        rw [List.cons_append, hstep]
        rcases lt_trichotomy b d.label with hlt | rfl | hlt
        · refine .inr (.inl ⟨List.cons_lt_cons_iff.mpr (.inl hlt), ?_⟩)
          rw [if_pos hlt]
        · rw [if_neg (lt_irrefl _), if_neg (lt_irrefl _)]
          have hrec := ih h hlast hkey.2 hlast0.2
          rcases hrec with ⟨rfl, hrec⟩ | ⟨hlt, hrec⟩ | ⟨hlt, rest₁, e, rest₂, k, ks, rfl, hks, hek, hrec⟩
          · exact .inl ⟨rfl, hrec⟩
          · exact .inr (.inl ⟨List.cons_lt_cons_iff.mpr (.inr ⟨rfl, hlt⟩), hrec⟩)
          · refine .inr (.inr ⟨List.cons_lt_cons_iff.mpr (.inr ⟨rfl, hlt⟩), d :: rest₁, e, rest₂, k, ks, rfl, ?_, hek, ?_⟩)
            · rw [hks, List.map_cons, List.cons_append]
            · rw [List.reverse_cons, List.append_assoc, List.singleton_append]
              exact hrec
        · refine .inr (.inr ⟨List.cons_lt_cons_iff.mpr (.inl hlt), [], d, rest, b, key ++ [0], rfl, rfl, hlt, ?_⟩)
          rw [if_neg (not_lt_of_gt hlt), if_pos hlt]
          rfl

/-! ### The second loop -/

/-- A unit is allocated that is none of those in use. -/
theorem Units.exists_allocateUnit (h : Units s us p up) :
    ∃ i pool unused, s.allocateUnit = .ok (i, { s with unitPool := pool, unusedUnits := unused }) ∧
      Shows pool ((i, DawgUnit.construct) :: (chainCells true us ++ stackCells p up)) ∧
      (i :: (us.map Prod.fst ++ (stackCells p up).map Prod.fst ++ unused)).Nodup ∧ ∀ j ∈ unused, j < pool.length := by
  have hlt : ∀ j ∈ us.map Prod.fst ++ (stackCells p up).map Prod.fst, j < s.unitPool.length := by
    intro j hj
    rw [← map_fst_chainCells true, ← List.map_append] at hj
    obtain ⟨c, hc, rfl⟩ := List.mem_map.mp hj
    exact Pool.lt_of_getElem? (h.shows c hc)
  cases hunused : s.unusedUnits with
  | nil =>
    refine ⟨s.unitPool.length, s.unitPool ++ [DawgUnit.construct], [], ?_, ?_, ?_, fun j hj => nomatch hj⟩
    · rw [DawgBuilder.allocateUnit, hunused]
      rfl
    · refine shows_cons.mpr ⟨by simp, fun c hc => ?_⟩
      rw [List.getElem?_append_left (Pool.lt_of_getElem? (h.shows c hc))]
      exact h.shows c hc
    · have hnodup := h.nodup
      rw [hunused] at hnodup
      refine List.nodup_cons.mpr ⟨fun hm => ?_, hnodup⟩
      rw [List.append_nil] at hm
      exact lt_irrefl _ (hlt _ hm)
  | cons i unused =>
    have hnodup := h.nodup
    rw [hunused] at hnodup
    have hi : i < s.unitPool.length := h.unused i (hunused ▸ List.mem_cons_self)
    have hnodup' := List.perm_middle.nodup_iff.mp hnodup
    refine ⟨i, s.unitPool.set i DawgUnit.construct, unused, ?_, ?_, hnodup', fun j hj => ?_⟩
    · rw [DawgBuilder.allocateUnit, hunused]
      dsimp only
      rw [Pool.set_eq hi]
      rfl
    · refine shows_cons.mpr ⟨List.getElem?_set_self hi, fun c hc => ?_⟩
      have hne : i ≠ c.1 := by
        rintro rfl
        refine (List.nodup_cons.mp hnodup').1 (List.mem_append_left _ ?_)
        rw [← map_fst_chainCells true, ← List.map_append]
        exact List.mem_map_of_mem hc
      rw [List.getElem?_set_ne hne]
      exact h.shows c hc
    · rw [List.length_set]
      exact h.unused j (hunused ▸ List.mem_cons_of_mem _ hj)

/-- A new unit becomes the deepest level. -/
theorem Units.exists_addUnit (h : Units s us (firstLink (us.map Prod.fst)) up) (hne : ∀ u ∈ us, u.1 ≠ 0) (k : UInt8) :
    ∃ i pool unused, s.addUnit (topUnit up) k =
        .ok (i, { s with unitPool := pool, unusedUnits := unused, unfixedUnits := i :: s.unfixedUnits }) ∧
      Units { s with unitPool := pool, unusedUnits := unused, unfixedUnits := i :: s.unfixedUnits } [] 0 (⟨i, k, false, us⟩ :: up) := by
  obtain ⟨i, pool, unused, halloc, hshows, hnodup, hlt⟩ := h.exists_allocateUnit
  obtain ⟨u, rest, hcells⟩ := exists_stackCells up
  have hnodup' := hnodup
  rw [hcells] at hshows hnodup'
  rw [List.nodup_cons, List.mem_append, List.mem_append, List.map_cons, not_or, not_or] at hnodup'
  have htop : pool[topUnit up]? = some { u with child := firstLink (us.map Prod.fst) } :=
    hshows (topUnit up, { u with child := firstLink (us.map Prod.fst) }) (by simp)
  have hi : i ∉ (chainCells true us ++ (topUnit up, { u with child := firstLink (us.map Prod.fst) }) :: rest).map Prod.fst := by
    rw [List.map_append, map_fst_chainCells, List.mem_append, not_or]
    exact hnodup'.1.1
  have hchild : firstLink (us.map Prod.fst) = 0 ↔ us = [] := by
    cases us with
    | nil => exact ⟨fun _ => rfl, fun _ => rfl⟩
    | cons v us => exact ⟨fun h0 => absurd h0 (hne v List.mem_cons_self), fun h => nomatch h⟩
  -- the new unit is set up
  have hnew : pool[i]? = some DawgUnit.construct := (shows_cons.mp hshows).1
  have hstate : (if firstLink (us.map Prod.fst) = 0 then { DawgUnit.construct with isState := true } else DawgUnit.construct) =
      (⟨0, 0, 0, us.isEmpty, false⟩ : DawgUnit) := by
    by_cases hus : us = []
    · rw [if_pos (hchild.mpr hus), hus]
      rfl
    · rw [if_neg (fun h0 => hus (hchild.mp h0)), List.isEmpty_eq_false_iff.mpr hus]
      rfl
  have h₁ := @Shows.set _ [] _ _ _ hshows List.not_mem_nil hi ⟨0, firstLink (us.map Prod.fst), k, us.isEmpty, false⟩
  rw [List.nil_append, ← List.cons_append] at h₁
  -- and the unit above leads to it
  have htop' : topUnit up ∉ (i :: us.map Prod.fst) ∧ topUnit up ∉ rest.map Prod.fst := by
    have hin := (List.nodup_append.mp hnodup'.2).1
    rw [List.nodup_append, List.nodup_cons] at hin
    refine ⟨fun hm => ?_, hin.2.1.1⟩
    rcases List.mem_cons.mp hm with he | hm
    · exact hnodup'.1.1.2 (he ▸ List.mem_cons_self)
    · exact hin.2.2 _ hm _ List.mem_cons_self rfl
  have h₂ := h₁.set (by rw [List.map_cons, map_fst_chainCells]; exact htop'.1) htop'.2 { u with child := i }
  refine ⟨i, (pool.set i ⟨0, firstLink (us.map Prod.fst), k, us.isEmpty, false⟩).set (topUnit up) { u with child := i }, unused,
    ?_, ?_, ?_, ?_, ?_⟩
  · have hget : ∀ (u₁ : DawgUnit), (pool.set i u₁)[i]? = some u₁ := fun u₁ => Pool.getElem?_set_self hnew u₁
    have htop₁ : (pool.set i (⟨0, firstLink (us.map Prod.fst), k, us.isEmpty, false⟩ : DawgUnit))[topUnit up]? =
        some { u with child := firstLink (us.map Prod.fst) } := by
      have hne' : i ≠ topUnit up := fun he => htop'.1 (List.mem_cons.mpr (.inl he.symm))
      rw [List.getElem?_set_ne hne']
      exact htop
    rw [DawgBuilder.addUnit, halloc, ok_bind]
    dsimp only
    rw [Pool.get_eq htop, ok_bind]
    simp only [DawgBuilder.modifyUnit, Pool.modify_eq hnew, Pool.modify_eq (hget _), hstate, List.set_set, ok_bind,
      pure_ok,
      Pool.modify_eq htop₁]
  · rw [h.stack]
    rfl
  · rw [stackCells, hcells]
    exact h₂
  · rw [List.map_nil, List.nil_append, stackCells, List.map_append, Level.cells, map_fst_chainCells, Level.chain,
      List.map_cons,
      map_fst_stackCells i (firstLink (us.map Prod.fst))]
    exact hnodup
  · intro j hj
    rw [List.length_set, List.length_set]
    exact hlt j hj

/-- New units become the deepest levels. -/
theorem Units.exists_addUnits {fup : List (Frame UInt8 ℕ)} {t : WordTree UInt8 ℕ}
    (h : Units s us (firstLink (us.map Prod.fst)) up) (hne : ∀ u ∈ us, u.1 ≠ 0)
    (hmeans : List.Forall₂ (Level.Means nodes) up fup) (hus : Spells nodes (chainItems us) t)
    (hfits : ∀ x ∈ chainItems us, Fits x) (k : UInt8) (ks : List UInt8) :
    ∃ levels pool unused unfixed, s.addUnits (topUnit up) (k :: ks) =
        .ok (topUnit levels, { s with unitPool := pool, unusedUnits := unused, unfixedUnits := unfixed }) ∧
      Units { s with unitPool := pool, unusedUnits := unused, unfixedUnits := unfixed } [] 0 levels ∧
      List.Forall₂ (Level.Means nodes) levels ((⟨t, k⟩ :: bare ks).reverse ++ fup) ∧
      (∀ l ∈ levels, l ∈ up ∨ l.hasSibling = false) ∧
      levels.flatMap (fun l => chainItems l.older) = chainItems us ++ up.flatMap (fun l => chainItems l.older) ∧
      (stackCells 0 levels).length = us.length + (stackCells 0 up).length + (ks.length + 1) := by
  induction ks generalizing s us up fup t k with
  | nil =>
    obtain ⟨i, pool, unused, hadd, hu⟩ := h.exists_addUnit hne k
    have hlevel : Level.Means nodes ⟨i, k, false, us⟩ ⟨t, k⟩ := ⟨rfl, hus, hfits⟩
    refine ⟨⟨i, k, false, us⟩ :: up, pool, unused, i :: s.unfixedUnits, ?_, hu, .cons hlevel hmeans, ?_, rfl, ?_⟩
    · rw [DawgBuilder.addUnits, hadd, ok_bind]
      rfl
    · intro l hl
      rcases List.mem_cons.mp hl with rfl | hl
      · exact .inr rfl
      · exact .inl hl
    · rw [length_stackCells_cons]
      simp only [List.length_nil]
      omega
  | cons k' ks ih =>
    obtain ⟨i, pool, unused, hadd, hu⟩ := h.exists_addUnit hne k
    have hlevel : Level.Means nodes ⟨i, k, false, us⟩ ⟨t, k⟩ := ⟨rfl, hus, hfits⟩
    obtain ⟨levels, pool', unused', unfixed', hadds, hu', hmeans', hsibling, hitems, hlen'⟩ :=
      ih hu (fun u hu => nomatch hu) (.cons hlevel hmeans) .nil (fun x hx => nomatch hx) k'
    refine ⟨levels, pool', unused', unfixed', ?_, hu', ?_, ?_, hitems, ?_⟩
    · rw [DawgBuilder.addUnits, hadd, ok_bind]
      exact hadds
    · rw [List.reverse_cons, List.append_assoc]
      exact hmeans'
    · intro l hl
      rcases hsibling l hl with hl | hl
      · rcases List.mem_cons.mp hl with rfl | hl
        · exact .inr rfl
        · exact .inl hl
      · exact .inr hl
    · rw [hlen', length_stackCells_cons]
      simp only [List.length_nil, List.length_cons]
      omega

/-! ### Leaving the path -/

/-- A sibling is about to follow. -/
theorem Units.setHasSibling {deep : List Level} (h : Units s [] p (deep ++ d :: up)) :
    ∃ pool, s.modifyUnit d.unit (fun unit => { unit with hasSibling := true }) = .ok { s with unitPool := pool } ∧
      Units { s with unitPool := pool } [] p (deep ++ { d with hasSibling := true } :: up) := by
  have hshows := h.shows
  have hnodup := h.nodup
  have hsplit : ∀ b : Bool, stackCells p (deep ++ { d with hasSibling := b } :: up) = pathCells p deep ++
      (d.unit, ⟨childOf p deep, firstLink (d.older.map Prod.fst), d.label, d.older.isEmpty, b⟩) ::
        (chainCells true d.older ++ stackCells d.unit up) := by
    intro b
    rw [stackCells_append]
    rfl
  have hd : { d with hasSibling := d.hasSibling } = d := rfl
  have hself := hsplit d.hasSibling
  rw [hd] at hself
  rw [chainCells, List.nil_append, hself] at hshows
  rw [List.map_nil, List.nil_append, hself, List.map_append, List.map_cons] at hnodup
  have hnot := List.nodup_append.mp (List.nodup_append.mp hnodup).1
  have hset := hshows.set (fun hm => hnot.2.2 _ hm _ List.mem_cons_self rfl) (List.nodup_cons.mp hnot.2.1).1
    ⟨childOf p deep, firstLink (d.older.map Prod.fst), d.label, d.older.isEmpty, true⟩
  refine ⟨s.unitPool.set d.unit ⟨childOf p deep, firstLink (d.older.map Prod.fst), d.label, d.older.isEmpty, true⟩,
    ?_, ?_, ?_, ?_, ?_⟩
  · rw [DawgBuilder.modifyUnit, Pool.modify_eq h.getElem?_unit]
    rfl
  · rw [h.stack, List.map_append, List.map_append]
    rfl
  · rw [chainCells, List.nil_append, hsplit true]
    exact hset
  · rw [List.map_nil, List.nil_append, hsplit true, List.map_append, List.map_cons]
    exact hnodup
  · intro i hi
    rw [List.length_set]
    exact h.unused i hi

/-- What lies behind the place where a key leaves the path is fixed, and becomes older siblings. -/
theorem Stands.exists_leave {deep : List Level} {fs : List (Frame UInt8 ℕ)} {t : WordTree UInt8 ℕ}
    (h : Stands s nodes p (deep ++ d :: up) fs t n) (hsibling : ∀ l ∈ deep, l.hasSibling = false) (hn : n < 2 ^ 30)
    (index : ℕ) (labels : List UInt8) :
    ∃ s' nodes' us t', leave s d index labels = .ok (some (s', index, labels)) ∧ Arena s' nodes' ∧
      Units s' us (firstLink (us.map Prod.fst)) up ∧ (∀ u ∈ us, u.1 ≠ 0) ∧
      Used nodes' (chainItems us ++ up.flatMap fun l => chainItems l.older) ∧
      List.Forall₂ (Level.Means nodes') up (fs.drop (deep.length + 1)) ∧ Spells nodes' (chainItems us) t' ∧
      (∀ x ∈ chainItems us, Fits x) ∧ t'.Ordered ∧ (∀ x ∈ t'.heads, x ≤ itemHead (d.label, 0)) ∧
      OrderedPath (fs.drop (deep.length + 1)) ∧ plug (fs.drop (deep.length + 1)).reverse t' = plug fs.tail.reverse t ∧
      nodes'.flatten.length + (us.length + (stackCells 0 up).length) ≤ n ∧ s'.initialHashTableSize = s.initialHashTableSize := by
  obtain ⟨pool, hmodify, hu⟩ := h.units.setHasSibling
  have hmeans : ∀ {deep : List Level} {fs : List (Frame UInt8 ℕ)}, List.Forall₂ (Level.Means nodes) (deep ++ d :: up) fs →
      List.Forall₂ (Level.Means nodes) (deep ++ { d with hasSibling := true } :: up) fs := by
    intro deep
    induction deep with
    | nil =>
      rintro _ ⟨⟩
      rename_i hd hup
      exact .cons ⟨hd.label, hd.spells, hd.fits⟩ hup
    | cons l deep ih =>
      rintro _ ⟨⟩
      rename_i hl hls
      exact .cons hl (ih hls)
  have hcells : (stackCells p (deep ++ { d with hasSibling := true } :: up)).length = (stackCells p (deep ++ d :: up)).length := by
    rw [stackCells_append, stackCells_append, List.length_append, List.length_append, length_stackCells_cons,
      length_stackCells_cons]
  have h₁ : Stands { s with unitPool := pool } nodes p (deep ++ { d with hasSibling := true } :: up) fs t n := by
    have ha := h.arena
    refine ⟨⟨ha.pools, ha.wellFormed, ha.nodup, ha.spells, ha.table, ha.room, ha.states, ha.flags, ha.merging⟩, hu,
      hmeans h.means, ?_,
      h.ne_nil, h.ordered, h.path, ?_, ?_, hcells ▸ h.size⟩
    · have hspells := h.spells
      cases deep with
      | nil => exact hspells
      | cons l deep => exact hspells
    · have hlabels := h.labels
      cases deep with
      | nil => exact hlabels
      | cons l deep =>
        intro k hk
        rw [List.cons_append, List.tail_cons, List.mem_append, List.mem_cons] at hk
        rcases hk with hk | rfl | hk
        · exact hlabels k (List.mem_append_left _ hk)
        · exact hlabels d (List.mem_append_right _ List.mem_cons_self)
        · exact hlabels k (List.mem_append_right _ (List.mem_cons_of_mem _ hk))
    · have hused := h.used
      cases deep with
      | nil => exact hused
      | cons l deep =>
        rw [List.cons_append, openItems, List.flatMap_append, List.flatMap_cons] at hused ⊢
        exact hused
  have hfuel : deep.length < s.unfixedUnits.length := by
    rw [h.units.stack]
    simp only [List.length_append, List.length_map, List.length_cons]
    omega
  obtain ⟨s', nodes', p', t', hfix, h', hplug, hinit⟩ := h₁.exists_fixUnits hsibling hfuel hn
  have hdrop : (fs.drop deep.length).tail = fs.drop (deep.length + 1) := by rw [List.tail_drop]
  have hpath := h'.path
  rw [hdrop] at hpath hplug
  have hspells := h'.spells.1
  have ha := h'.arena
  refine ⟨{ s' with unfixedUnits := s'.unfixedUnits.tail }, nodes', ({ d with hasSibling := true } : Level).chain p',
    t', ?_,
    ⟨ha.pools, ha.wellFormed, ha.nodup, ha.spells, ha.table, ha.room, ha.states, ha.flags, ha.merging⟩,
    ⟨?_, h'.units.shows, ?_, h'.units.unused⟩, h'.units.deepest.ne_zero, h'.used, ?_, hspells, h'.spells.2, h'.ordered, ?_, hpath, hplug,
    ?_, hinit⟩
  · rw [leave, hmodify, ok_bind]
    exact (congrArg (· >>= fun s => pure (some (s, index, labels))) hfix).trans rfl
  · rw [h'.units.stack]
    rfl
  · have hnodup := h'.units.nodup
    rw [List.map_nil, List.nil_append, stackCells, List.map_append, Level.cells, map_fst_chainCells] at hnodup
    exact hnodup
  · obtain ⟨f, fup, -, hup, he⟩ := List.forall₂_cons_left_iff.mp h'.means
    rw [← hdrop, he]
    exact hup
  · intro x hx
    have hasc := h'.ordered.pairwise_heads
    rw [hspells.heads_eq, Level.items, Level.chain, chainItems_cons, List.map_append] at hasc hx
    rcases List.mem_append.mp hx with hx | hx
    · exact ((List.pairwise_append.mp hasc).2.2 x hx _ (List.mem_singleton.mpr rfl)).le
    · exact (List.mem_singleton.mp hx).le
  · have hsize := h'.size
    rw [length_stackCells_cons] at hsize
    exact hsize

/-! ### Inserting a key -/

/-- A builder that was given keys stands for a lexicon. -/
def Built (s : DawgBuilder) (es : List (List UInt8 × ℕ)) (n : ℕ) : Prop :=
  ∃ nodes v levels fs, Stands s nodes v levels (⟨.nil, 0⟩ :: fs) (.leaf v .nil) n ∧ (∀ l ∈ levels, l.hasSibling = false) ∧
    0 ∉ word fs ∧ es = past fs.reverse ++ [(word fs.reverse, v)]

theorem word_eq {fs : List (Frame UInt8 ℕ)} (h : List.Forall₂ (Level.Means nodes) levels fs) :
    word fs = levels.map Level.label := by
  induction h with
  | nil => rfl
  | cons hl _ ih =>
    rw [List.map_cons, ← ih, ← hl.label]
    rfl

/-- The value of the last key. -/
theorem Stands.exists_setValue {fs : List (Frame UInt8 ℕ)} {value : ℤ} (hs : 0 ≤ value) (hlt : value < 2 ^ 31)
    (ha : Arena s nodes) (hu : Units s [] p levels) (hmeans : List.Forall₂ (Level.Means nodes) levels (⟨.nil, 0⟩ :: fs))
    (hpath : OrderedPath fs) (hword : 0 ∉ word fs) (hused : Used nodes (levels.flatMap fun l => chainItems l.older))
    (hsize : nodes.flatten.length + (stackCells 0 levels).length ≤ n) :
    ∃ pool, s.modifyUnit (topUnit levels) (fun unit => unit.setValue value) = .ok { s with unitPool := pool } ∧
      Stands { s with unitPool := pool } nodes value.toNat levels (⟨.nil, 0⟩ :: fs) (.leaf value.toNat .nil) n := by
  obtain ⟨pool, hset, hu'⟩ := hu.setChild value.toNat
  have hvalue : (value % 2 ^ 32).toNat = value.toNat := by rw [Int.emod_eq_of_lt hs (by omega)]
  obtain ⟨l, ls, hl, hls, rfl⟩ := List.forall₂_cons_right_iff.mp hmeans
  have hitems : l.items value.toNat = [(0, value.toNat)] := by
    have hnil := hl.spells.eq_nil_iff.mpr rfl
    rw [Level.items, Level.chain, chainItems_cons, hnil, ← hl.label]
    rfl
  refine ⟨pool, ?_, ⟨ha.pools, ha.wellFormed, ha.nodup, ha.spells, ha.table, ha.room, ha.states, ha.flags, ha.merging⟩, hu', hmeans,
    ⟨?_, ?_⟩, by simp, ⟨by simp [heads], trivial⟩, hpath, ?_, ?_, ?_⟩
  · simp only [DawgUnit.setValue, hvalue]
    exact hset
  · rw [hitems]
    exact .leaf _ .nil
  · intro x hx
    rw [hitems, List.mem_singleton] at hx
    rw [hx, Fits, if_pos rfl]
    change value.toNat < 2 ^ 31
    omega
  · intro k hk h0
    rw [word_eq hls, ← h0] at hword
    exact hword (List.mem_map_of_mem hk)
  · intro m ys hm
    obtain ⟨c, hc, hmem⟩ := hused m ys hm
    rw [List.flatMap_cons, hl.spells.eq_nil_iff.mpr rfl, List.nil_append] at hmem
    refine ⟨c, hc, ?_⟩
    rw [openItems, ← List.append_assoc]
    exact List.mem_append.mpr ((List.mem_append.mp hmem).imp (List.mem_append_left _) id)
  · rwa [length_stackCells _ 0]

/-- The end of a word does not lead to a state. -/
theorem Stands.used_older {fs : List (Frame UInt8 ℕ)} {v : ℕ}
    (h : Stands s nodes v levels (⟨.nil, 0⟩ :: fs) (.leaf v .nil) n) :
    Used nodes (levels.flatMap fun l => chainItems l.older) := by
  obtain ⟨l, ls, hl, -, rfl⟩ := List.forall₂_cons_right_iff.mp h.means
  have hitems : l.items v = [(0, v)] := by
    rw [Level.items, Level.chain, chainItems_cons, hl.spells.eq_nil_iff.mpr rfl, ← hl.label]
    rfl
  intro m ys hm
  obtain ⟨c, hc, hmem⟩ := h.used m ys hm
  refine ⟨c, hc, ?_⟩
  rw [openItems, hitems, List.mem_append, List.mem_append, List.mem_singleton] at hmem
  rw [List.flatMap_cons, List.mem_append, List.mem_append]
  rcases hmem with hmem | hmem | hmem
  · exact .inl hmem
  · exact absurd (congrArg Prod.fst hmem) hc
  · exact .inr (.inr hmem)

/-- The rest of a key is put below the levels it shares with the keys before it. -/
theorem Built.exists_addUnits {fup : List (Frame UInt8 ℕ)} {t : WordTree UInt8 ℕ} {value : ℤ} (hs : 0 ≤ value)
    (hlt : value < 2 ^ 31) (ha : Arena s nodes) (hu : Units s us (firstLink (us.map Prod.fst)) up)
    (hne : ∀ u ∈ us, u.1 ≠ 0) (hmeans : List.Forall₂ (Level.Means nodes) up fup)
    (hus : Spells nodes (chainItems us) t) (hfits : ∀ x ∈ chainItems us, Fits x)
    (hsibling : ∀ l ∈ up, l.hasSibling = false) (hpath : OrderedPath fup) (hword : 0 ∉ word fup) (ht : t.Ordered)
    (hused : Used nodes (chainItems us ++ up.flatMap fun l => chainItems l.older)) {k : UInt8}
    (hk : ∀ x ∈ t.heads, x < k) (hk0 : k ≠ 0) {ks : List UInt8} (hks : 0 ∉ ks)
    (hsize : nodes.flatten.length + (us.length + (stackCells 0 up).length) + (ks.length + 2) ≤ n) :
    ∃ s', (do
        let (index, s) ← s.addUnits (topUnit up) (k :: (ks ++ [0]))
        let s ← s.modifyUnit index fun unit => unit.setValue value
        pure (true, s)) = Except.ok (true, s') ∧
      Built s' (past (fup.reverse ++ ⟨t, k⟩ :: bare ks) ++ [(word fup.reverse ++ k :: ks, value.toNat)]) n ∧
      s'.initialHashTableSize = s.initialHashTableSize := by
  obtain ⟨levels, pool, unused, unfixed, hadd, hu', hmeans', hsibling', hitems, hlen⟩ :=
    hu.exists_addUnits hne hmeans hus hfits k (ks ++ [0])
  have hframes : (⟨t, k⟩ :: bare (ks ++ [0])).reverse ++ fup = ⟨.nil, 0⟩ :: ((⟨t, k⟩ :: bare ks).reverse ++ fup) := by
    simp [bare]
  rw [hframes] at hmeans'
  have hpath' : OrderedPath ((⟨t, k⟩ :: bare ks).reverse ++ fup) := by
    intro f hf
    rw [List.mem_append, List.mem_reverse, List.mem_cons] at hf
    rcases hf with (rfl | hf) | hf
    · exact ⟨ht, hk⟩
    · exact orderedPath_bare ks f hf
    · exact hpath f hf
  have hword' : 0 ∉ word ((⟨t, k⟩ :: bare ks).reverse ++ fup) := by
    rw [word_append, word_reverse, word_cons, word_bare, List.mem_append, List.mem_reverse, List.mem_cons]
    rintro ((h0 | h0) | h0)
    · exact hk0 h0.symm
    · exact hks h0
    · exact hword h0
  obtain ⟨pool', hset, hstands⟩ :=
    Stands.exists_setValue (n := n) hs hlt (s := { s with unitPool := pool, unusedUnits := unused, unfixedUnits := unfixed })
    ⟨ha.pools, ha.wellFormed, ha.nodup, ha.spells, ha.table, ha.room, ha.states, ha.flags, ha.merging⟩ hu' hmeans' hpath' hword'
    (hitems ▸ hused) (by rw [hlen, List.length_append, List.length_singleton]; omega)
  refine ⟨{ s with unitPool := pool', unusedUnits := unused, unfixedUnits := unfixed }, ?_,
    ⟨nodes, _, levels, _, hstands, ?_, hword', ?_⟩, rfl⟩
  · rw [hadd, ok_bind]
    dsimp only
    rw [hset]
    rfl
  · intro l hl
    rcases hsibling' l hl with hl | hl
    · exact hsibling l hl
    · exact hl
  · rw [List.reverse_append, List.reverse_reverse, word_append, word_cons, word_bare]

theorem insertLast_concat (es : List (List UInt8 × ℕ)) (key : List UInt8) (v : ℕ) (key' : List UInt8) (v' : ℕ) :
    insertLast (es ++ [(key, v)]) key' v' =
      if key' < key then none else if key' = key then some (es ++ [(key', v')]) else some (es ++ [(key, v)] ++ [(key', v')]) := by
  simp [insertLast]

/-- What `InsertKey` does to the lexicon. -/
theorem Built.exists_insertKey {es : List (List UInt8 × ℕ)} {key : List UInt8} {value : ℤ} (h : Built s es n)
    (hs : 0 ≤ value) (hlt : value < 2 ^ 31) (hkey : 0 ∉ key) (hn : n + (key.length + 1) < 2 ^ 30) :
    ∃ b s', s.insertKey key value = .ok (b, s') ∧ s'.initialHashTableSize = s.initialHashTableSize ∧
      match insertLast es key value.toNat with
      | none => b = false ∧ s' = s
      | some es' => b = true ∧ Built s' es' (n + (key.length + 1)) := by
  obtain ⟨nodes, v, levels, fs, h, hsibling, hword, rfl⟩ := h
  have hinit : s.initialized = .ok s := by
    have hroom := h.arena.room
    have hne : s.hashTable.isEmpty = false := by
      rw [List.isEmpty_eq_false_iff, ← List.length_pos_iff]
      omega
    rw [DawgBuilder.initialized, hne]
    rfl
  have hlabels : levels.reverse.map Level.label = word fs.reverse ++ [0] := by
    rw [List.map_reverse, ← word_eq h.means, word_cons, List.reverse_cons, word_reverse]
  have hword' : 0 ∉ word fs.reverse := by rwa [word_reverse, List.mem_reverse]
  have hunits : Units s [] v (levels.reverse.reverse ++ []) := by
    rw [List.reverse_reverse, List.append_nil]
    exact h.units
  rw [DawgBuilder.insertKey, hinit, ok_bind, insertLast_concat]
  rcases separate_cases hunits hlabels hkey hword' with
    ⟨rfl, hsep⟩ | ⟨hless, hsep⟩ | ⟨hgreater, rest₁, d, rest₂, k, ks, hrest, hks, hdk, hsep⟩
  · -- the last key again
    rw [List.reverse_reverse, List.append_nil] at hsep
    have hsep' : s.separate 0 (word fs.reverse ++ [0]) = .ok (some (s, topUnit levels, [])) := hsep
    obtain ⟨pool, hset, hstands⟩ := Stands.exists_setValue hs hlt h.arena h.units h.means h.path hword (n := n + ((word fs.reverse).length + 1))
      (h.used_older) (by have := h.size; rw [length_stackCells v 0] at this; omega)
    rw [if_neg (lt_irrefl _), if_pos rfl]
    refine ⟨true, { s with unitPool := pool }, ?_, rfl, rfl, nodes, _, levels, fs, hstands, hsibling, hword, rfl⟩
    rw [hsep', ok_bind]
    dsimp only
    rw [DawgBuilder.addUnits, pure_ok, ok_bind]
    dsimp only
    rw [hset]
    rfl
  · -- a key before the last one
    have hsep' : s.separate 0 (key ++ [0]) = .ok none := hsep
    rw [if_pos hless]
    refine ⟨false, s, ?_, rfl, rfl, rfl⟩
    rw [hsep', ok_bind]
    rfl
  · -- a key after the last one
    rw [if_neg (not_lt_of_gt hgreater), if_neg (ne_of_gt hgreater)]
    have hlevels : levels = rest₂.reverse ++ d :: rest₁.reverse := by
      rw [← List.reverse_reverse levels, hrest]
      simp
    have hk0 : k ≠ 0 := fun h0 => not_lt_of_ge UInt8.zero_le (h0 ▸ hdk)
    obtain ⟨ks, rfl, rfl⟩ : ∃ ks', ks = ks' ++ [0] ∧ key = rest₁.map Level.label ++ k :: ks' := by
      rcases List.eq_nil_or_concat ks with rfl | ⟨ks', z, rfl⟩
      · exact absurd (List.singleton_inj.mp (List.append_inj' hks rfl).2).symm hk0
      · rw [List.concat_eq_append, ← List.cons_append, ← List.append_assoc] at hks
        obtain ⟨hkey', hz⟩ := List.append_inj' hks rfl
        exact ⟨ks', by rw [List.concat_eq_append, ← List.singleton_inj.mp hz], hkey'⟩
    rw [hlevels] at h hsibling
    obtain ⟨s', nodes', us, t', hleave, ha, hu, hne, hused, hmeans, hspells, hfits, hord, hheads, hpath, hplug, hsize, hinit'⟩ :=
      h.exists_leave (fun l hl => hsibling l (List.mem_append_left _ hl)) (by omega) (topUnit (rest₁.reverse ++ [])) (k :: (ks ++ [0]))
    rw [List.length_reverse, List.drop_succ_cons] at hmeans hpath hplug
    have hfup : word (fs.drop rest₂.length).reverse = rest₁.map Level.label := by
      rw [word_reverse, word_eq hmeans, List.map_reverse, List.reverse_reverse]
    rw [List.mem_append, List.mem_cons, not_or, not_or] at hkey
    have hlt' : ∀ x ∈ t'.heads, x < (k : WithBot UInt8) := by
      intro x hx
      refine lt_of_le_of_lt (hheads x hx) ?_
      rw [itemHead]
      split_ifs
      · exact WithBot.bot_lt_coe k
      · exact WithBot.coe_lt_coe.mpr hdk
    have hword₁ : 0 ∉ word (fs.drop rest₂.length) := by
      rw [← List.mem_reverse, ← word_reverse, hfup]
      exact hkey.1
    rw [List.length_append, List.length_map, List.length_cons] at hn ⊢
    obtain ⟨s'', hadd, hbuilt, hinit''⟩ :=
      Built.exists_addUnits (n := n + (rest₁.length + (ks.length + 1) + 1)) hs hlt ha hu hne hmeans
      hspells hfits (fun l hl => hsibling l (List.mem_append_right _ (List.mem_cons_of_mem _ hl))) hpath hword₁ hord hused hlt' hk0 hkey.2.2
      (by omega)
    refine ⟨true, s'', ?_, hinit''.trans hinit', rfl, ?_⟩
    · have hsep' : s.separate 0 (rest₁.map Level.label ++ k :: ks ++ [0]) =
          .ok (some (s', topUnit (rest₁.reverse ++ []), k :: (ks ++ [0]))) := hsep.trans hleave
      rw [hsep', ok_bind]
      dsimp only
      rw [List.append_nil]
      exact hadd
    · rw [past_turn, hplug, List.tail_cons, entries_plug, hfup] at hbuilt
      rwa [WordTree.entries, WordTree.entries, under, List.map_singleton, List.append_nil] at hbuilt

end InfixSearch.Dawgdic
