import InfixSearch.Dawgdic.Inserting

/-!
# What a dawg keeps

The functions of a dawg lead from a transition to its siblings and to the transitions of the
state it leads to; from each transition on they spell a tree of words (`Dawg.Spells`). A dawg
that a builder has made keeps states as the builder did (`Dawg.Keeps`), so what its functions
spell is what the states spell (`Dawg.Keeps.spells`).

A dawg has no more states than it needs: no state is kept twice, and a word leads to each
(`Dawg.Keeps.exists_descend`).
-/

namespace InfixSearch.Dawgdic

open Library WordTree

namespace Dawg

/-- The transition and its siblings spell a tree of words. -/
inductive Spells (d : Dawg) : ℕ → WordTree UInt8 ℕ → Prop where
  /-- No transition. -/
  | nil : Spells d 0 .nil
  /-- The end of a word. -/
  | leaf {i j v : ℕ} {t : WordTree UInt8 ℕ} (hi : i ≠ 0) (hlabel : d.label i = .ok 0) (hvalue : d.value i = .ok (v : ℤ))
      (hsibling : d.sibling i = .ok j) (next : Spells d j t) : Spells d i (.leaf v t)
  /-- A letter. -/
  | edge {i j m : ℕ} {c : UInt8} {s t : WordTree UInt8 ℕ} (hi : i ≠ 0) (hlabel : d.label i = .ok c) (hc : c ≠ 0)
      (hchild : d.child i = .ok m) (down : Spells d m s) (hsibling : d.sibling i = .ok j) (next : Spells d j t) :
      Spells d i (.edge c s t)

/-- One tree is spelled. -/
theorem Spells.unique {d : Dawg} {i : ℕ} {s t : WordTree UInt8 ℕ} (h : d.Spells i s) (h' : d.Spells i t) : s = t := by
  induction h generalizing t with
  | nil =>
    cases h' with
    | nil => rfl
    | leaf hi => exact absurd rfl hi
    | edge hi => exact absurd rfl hi
  | leaf hi hlabel hvalue hsibling _ ih =>
    cases h' with
    | nil => exact absurd rfl hi
    | leaf _ _ hvalue' hsibling' next' =>
      obtain rfl := Except.ok.inj (hsibling.symm.trans hsibling')
      rw [Int.ofNat_inj.mp (Except.ok.inj (hvalue.symm.trans hvalue')), ih next']
    | edge _ hlabel' hc => exact absurd (Except.ok.inj (hlabel'.symm.trans hlabel)) hc
  | edge hi hlabel hc hchild _ hsibling _ ihd ih =>
    cases h' with
    | nil => exact absurd rfl hi
    | leaf _ hlabel' => exact absurd (Except.ok.inj (hlabel.symm.trans hlabel')) hc
    | edge _ hlabel' _ hchild' down' hsibling' next' =>
      obtain rfl := Except.ok.inj (hchild.symm.trans hchild')
      obtain rfl := Except.ok.inj (hsibling.symm.trans hsibling')
      rw [Except.ok.inj (hlabel.symm.trans hlabel'), ihd down', ih next']

/-- The state begins where the root leads, or nothing does. -/
def Top (nodes : List (List Item)) (p : ℕ) (xs : List Item) : Prop := (nodes = [] ∧ p = 0 ∧ xs = []) ∨ At nodes p xs

/-- A dawg keeps states, and they spell a tree. -/
structure Keeps (d : Dawg) (nodes : List (List Item)) (t : WordTree UInt8 ℕ) : Prop where
  /-- The pools hold them. -/
  pools : Pools nodes d.basePool d.labelPool
  /-- They are well formed. -/
  wellFormed : WellFormed nodes
  /-- No state is held twice. -/
  nodup : nodes.Nodup
  /-- Each spells an ordered tree with those before it. -/
  spells : ∀ pre xs post, nodes = pre ++ xs :: post → ∃ t, Dawgdic.Spells pre xs t ∧ t.Ordered
  /-- The root is no end of a word. -/
  root : d.label d.root = .ok 0xFF
  /-- The state the root leads to. -/
  top : ∃ p xs, d.child d.root = .ok p ∧ Top nodes p xs ∧ Dawgdic.Spells nodes xs t
  /-- Its tree is ordered. -/
  ordered : t.Ordered
  /-- Something leads to every state. -/
  used : ∀ m ys, At nodes m ys → (∃ c, c ≠ 0 ∧ (c, m) ∈ nodes.flatten) ∨ d.child d.root = .ok m
  /-- There are not too many transitions. -/
  size : nodes.flatten.length < 2 ^ 30
  /-- There is a flag for each transition. -/
  flags : d.flagPool.length = d.basePool.length
  /-- The flags that are set are counted. -/
  merging : d.numOfMergingStates = d.flagPool.count true
  /-- The states are counted, and the root. -/
  states : d.numOfStates = nodes.length + 1

namespace Keeps

variable {d : Dawg} {nodes : List (List Item)} {xs : List Item} {t : WordTree UInt8 ℕ} {x : Item} {m i : ℕ}

/-! ### The functions of a dawg -/

theorem size_eq (h : d.Keeps nodes t) : d.size = 1 + nodes.flatten.length := h.pools.length_base

theorem length_lt_size (h : d.Keeps nodes t) (hm : At nodes m xs) : xs.length < d.size := by
  obtain ⟨pre, post, rfl, -⟩ := hm
  rw [h.size_eq, List.flatten_append, List.length_append, List.flatten_cons, List.length_append]
  omega

theorem label_eq (h : d.Keeps nodes t) (hm : At nodes m xs) (hi : xs[i]? = some x) : d.label (m + i) = .ok x.1 :=
  (h.pools.get hm hi).2

theorem sibling_eq (h : d.Keeps nodes t) (hm : At nodes m xs) (hi : xs[i]? = some x) :
    d.sibling (m + i) = .ok (if i + 1 < xs.length then m + i + 1 else 0) := by
  rw [sibling, (h.pools.get hm hi).1, ok_bind, hasSibling_itemBase]
  by_cases hlt : i + 1 < xs.length <;> simp [hlt, pure_ok]

theorem child_eq (h : d.Keeps nodes t) (hm : At nodes m xs) (hi : xs[i]? = some x) (h0 : x.1 ≠ 0) :
    d.child (m + i) = .ok x.2 := by
  have hfits := (h.wellFormed xs hm.mem).2.1 x (List.mem_of_getElem? hi)
  rw [child, (h.pools.get hm hi).1]
  exact congrArg Except.ok (child_itemBase hfits h0)

theorem value_eq (h : d.Keeps nodes t) (hm : At nodes m xs) (hi : xs[i]? = some x) (h0 : x.1 = 0) :
    d.value (m + i) = .ok (x.2 : ℤ) := by
  have hfits := (h.wellFormed xs hm.mem).2.1 x (List.mem_of_getElem? hi)
  rw [value, (h.pools.get hm hi).1]
  exact congrArg Except.ok (value_itemBase hfits h0)

/-- The transitions of a state are linked. -/
theorem linked (h : d.Keeps nodes t) {pre zs : List Item} (hm : At nodes m (pre ++ zs)) :
    Linked d.sibling (List.range' (m + pre.length) zs.length) := by
  induction zs generalizing pre with
  | nil => trivial
  | cons x zs ih =>
    have hget : (pre ++ x :: zs)[pre.length]? = some x := by simp
    have hnext := ih (show At nodes m ((pre ++ [x]) ++ zs) by simpa using hm)
    rw [List.length_append, List.length_singleton, ← Nat.add_assoc] at hnext
    refine ⟨by have := hm.pos; omega, ?_, hnext⟩
    rw [h.sibling_eq hm hget]
    cases zs <;> simp [firstLink, List.range'_succ]

/-- The labels of a state are read one after the other. -/
theorem labels_eq (h : d.Keeps nodes t) {pre zs : List Item} (hm : At nodes m (pre ++ zs)) (labels : List UInt8) :
    (List.range' (m + pre.length) zs.length).foldlM (fun labels i => do pure (labels ++ [← d.label i])) labels =
      Except.ok (labels ++ zs.map Prod.fst) := by
  induction zs generalizing pre labels with
  | nil => simp [pure_ok]
  | cons x zs ih =>
    have hget : (pre ++ x :: zs)[pre.length]? = some x := by simp
    have hnext := ih (show At nodes m ((pre ++ [x]) ++ zs) by simpa using hm) (labels ++ [x.1])
    rw [List.length_append, List.length_singleton, ← Nat.add_assoc, List.append_assoc] at hnext
    rw [List.length_cons, List.range'_succ, List.foldlM_cons, h.label_eq hm hget]
    exact hnext

/-- What the functions spell is what the items do. -/
theorem spells_of_items (h : d.Keeps nodes t) {zs : List Item} {s : WordTree UInt8 ℕ}
    (hzs : Dawgdic.Spells nodes zs s) (pre : List Item) (hm : At nodes m (pre ++ zs)) :
    d.Spells (if zs = [] then 0 else m + pre.length) s := by
  induction hzs generalizing m pre with
  | nil => exact .nil
  | @leaf xs s v next ih =>
    have hget : (pre ++ (0, v) :: xs)[pre.length]? = some ((0, v) : Item) := by simp
    have hsibling := h.sibling_eq hm hget
    have hnext := ih (pre ++ [(0, v)]) (by simpa using hm)
    rw [if_neg (List.cons_ne_nil _ _)]
    refine .leaf (by have := hm.pos; omega) (h.label_eq hm hget) (h.value_eq hm hget rfl) hsibling ?_
    cases xs with
    | nil => simpa using hnext
    | cons y xs => simpa [Nat.add_assoc] using hnext
  | @edge xs ys s s' c n hc hn _ _ ihd ih =>
    have hget : (pre ++ (c, n) :: xs)[pre.length]? = some (c, n) := by simp
    have hsibling := h.sibling_eq hm hget
    have hnext := ih (pre ++ [(c, n)]) (by simpa using hm)
    have hdown := ihd [] hn
    rw [if_neg (h.wellFormed ys hn.mem).1] at hdown
    rw [if_neg (List.cons_ne_nil _ _)]
    refine .edge (by have := hm.pos; omega) (h.label_eq hm hget) hc (h.child_eq hm hget hc) hdown hsibling ?_
    cases xs with
    | nil => simpa using hnext
    | cons y xs => simpa [Nat.add_assoc] using hnext

/-- A state spells what its items do. -/
theorem spells_of_at (h : d.Keeps nodes t) {s : WordTree UInt8 ℕ} (hm : At nodes m xs)
    (hxs : Dawgdic.Spells nodes xs s) : d.Spells m s := by
  have hspells := h.spells_of_items hxs [] hm
  rwa [if_neg (h.wellFormed xs hm.mem).1] at hspells

/-- The functions spell the tree from the root on. -/
theorem spells_root (h : d.Keeps nodes t) : ∃ p, d.child d.root = .ok p ∧ d.Spells p t := by
  obtain ⟨p, xs, hp, ⟨-, rfl, rfl⟩ | hat, hxs⟩ := h.top
  · cases hxs
    exact ⟨0, hp, .nil⟩
  · exact ⟨p, hp, h.spells_of_at hat hxs⟩

/-! ### Minimality -/

/-- A word leads to every state. -/
theorem exists_descend (h : d.Keeps nodes t) (hm : At nodes m xs) :
    ∃ k s, t.descend k = some s ∧ Dawgdic.Spells nodes xs s := by
  -- what leads to a state comes after it
  induction hn : nodes.flatten.length - m using Nat.strong_induction_on generalizing m xs with
  | _ n ih =>
  subst hn
  rcases h.used m xs hm with ⟨c, hc, hmem⟩ | hroot
  · obtain ⟨zs, hzs, hmem⟩ := List.mem_flatten.mp hmem
    obtain ⟨pre, post, he⟩ := List.append_of_mem hzs
    obtain ⟨s, hs, hord⟩ := h.spells pre zs post he
    obtain ⟨s', ys, hchild, hat, hs'⟩ := hs.child_of_mem hord hc hmem
    have hat' : At nodes m ys := he ▸ hat.append (zs :: post)
    obtain rfl := hat'.unique hm (h.wellFormed ys hat'.mem).1 (h.wellFormed xs hm.mem).1
    have hwf : WellFormed pre := fun zs hzs => h.wellFormed zs (he ▸ List.mem_append_left _ hzs)
    have hlt := hat.le_length hwf
    have hle : At nodes (1 + pre.flatten.length) zs := ⟨pre, post, he, rfl⟩
    have hle' := hle.le_length h.wellFormed
    obtain ⟨k, s'', hk, hs''⟩ := ih _ (by omega) hle rfl
    obtain rfl : s = s'' := (h.spells_of_at hle (he ▸ hs.append_nodes (zs :: post))).unique (h.spells_of_at hle hs'')
    refine ⟨k ++ [c], s', ?_, he ▸ hs'.append_nodes (zs :: post)⟩
    rw [WordTree.descend, List.foldlM_append, ← WordTree.descend, hk]
    simp [hchild]
  · obtain ⟨p, ys, hp, htop, hys⟩ := h.top
    obtain rfl := Except.ok.inj (hroot.symm.trans hp)
    rcases htop with ⟨rfl, -, -⟩ | hat
    · exact absurd hm.mem List.not_mem_nil
    · obtain rfl := hat.unique hm (h.wellFormed ys hat.mem).1 (h.wellFormed xs hm.mem).1
      exact ⟨[], t, rfl, hys⟩

/-- What may follow a word is spelled by a state. -/
theorem exists_at (h : d.Keeps nodes t) {k : List UInt8} {s : WordTree UInt8 ℕ} (hk : t.descend k = some s)
    (hs : s ≠ .nil) :
    ∃ m ys, At nodes m ys ∧ Dawgdic.Spells nodes ys s := by
  obtain ⟨p, xs, -, htop, hxs⟩ := h.top
  rcases htop with ⟨rfl, -, rfl⟩ | hat
  · cases hxs
    cases k with
    | nil => exact absurd (Option.some.inj hk).symm hs
    | cons c k => cases hk
  · clear h
    induction k generalizing t p xs with
    | nil => exact ⟨p, xs, hat, Option.some.inj hk ▸ hxs⟩
    | cons c k ih =>
      rw [WordTree.descend_cons, Option.bind_eq_some_iff] at hk
      obtain ⟨t', ht', hk⟩ := hk
      obtain ⟨m, ys, -, -, hm, hys⟩ := hxs.exists_child ht'
      exact ih hk m ys hys hm

/-- There is a state for every tree of what may follow a word. -/
theorem numOfStates_eq_trees (h : d.Keeps nodes t) :
    d.numOfStates = Set.ncard {s | s ≠ .nil ∧ ∃ k, t.descend k = some s} + 1 := by
  classical
  have : Nonempty (WordTree UInt8 ℕ) := ⟨.nil⟩
  have hall : ∀ xs ∈ nodes, ∃ s, Dawgdic.Spells nodes xs s ∧ s ≠ .nil ∧ ∃ k, t.descend k = some s := by
    intro xs hxs
    obtain ⟨m, hm⟩ := At.of_mem hxs
    obtain ⟨k, s, hk, hs⟩ := h.exists_descend hm
    exact ⟨s, hs, fun he => (h.wellFormed xs hxs).1 (hs.eq_nil_iff.mpr he), k, hk⟩
  choose! f hf using hall
  have himage : {s | s ≠ .nil ∧ ∃ k, t.descend k = some s} = f '' {xs | xs ∈ nodes} := by
    ext s
    constructor
    · rintro ⟨hne, k, hk⟩
      obtain ⟨m, ys, hm, hys⟩ := h.exists_at hk hne
      exact ⟨ys, hm.mem, (h.spells_of_at hm (hf ys hm.mem).1).unique (h.spells_of_at hm hys)⟩
    · rintro ⟨xs, hxs, rfl⟩
      exact (hf xs hxs).2
  have hinj : Set.InjOn f {xs | xs ∈ nodes} := by
    intro xs hxs ys hys he
    exact (hf xs hxs).1.unique (he ▸ (hf ys hys).1) h.nodup
  have hcard : Set.ncard {xs | xs ∈ nodes} = nodes.length := by
    rw [← List.coe_toFinset, Set.ncard_coe_finset, List.toFinset_card_of_nodup h.nodup]
  rw [h.states, himage, hinj.ncard_image, hcard]

/-- There is a state for every lexicon of what may follow a word, and the root. -/
theorem numOfStates_eq (h : d.Keeps nodes t) :
    d.numOfStates = Set.ncard {r | r ≠ [] ∧ ∃ k, r = residual t.entries k} + 1 := by
  have himage : {r | r ≠ [] ∧ ∃ k, r = residual t.entries k} = entries '' {s | s ≠ .nil ∧ ∃ k, t.descend k = some s} := by
    ext r
    constructor
    · rintro ⟨hne, k, rfl⟩
      cases hk : t.descend k with
      | none => exact absurd (residual_entries h.ordered k ▸ by rw [hk]; rfl) hne
      | some s =>
        have hs := residual_entries h.ordered k
        rw [hk] at hs
        refine ⟨s, ⟨?_, k, hk⟩, hs.symm⟩
        rintro rfl
        exact hne hs
    · rintro ⟨s, ⟨hne, k, hk⟩, rfl⟩
      refine ⟨fun he => hne ((h.ordered.descend hk).eq_of_entries_eq (t := .nil) trivial he), k, ?_⟩
      rw [residual_entries h.ordered, hk]
      rfl
  have hinj : Set.InjOn entries {s | s ≠ .nil ∧ ∃ k, t.descend k = some s} := by
    rintro s ⟨-, k, hk⟩ s' ⟨-, k', hk'⟩ he
    exact (h.ordered.descend hk).eq_of_entries_eq (h.ordered.descend hk') he
  rw [h.numOfStates_eq_trees, himage, hinj.ncard_image]

end Keeps

end Dawg

end InfixSearch.Dawgdic
