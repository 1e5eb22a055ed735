import InfixSearch.Search.Trie

/-!
# What the heap stores

The words of a trie, read off the heap by following the children from the head,
with no reference to the forest that `add` inserts into: `s.Spells p x` says that
the tails from the head to the node `p` spell `x`, and `s.StoredAt l w` that `l` is a
leaf node spelling the word `w`. `s.WrongTurn w` follows the walk of `add`.

On a heap that holds a trie these are the sites, the words and `Strays` of the trie.
-/

namespace InfixSearch

open Library

namespace SearchT

section Heap

variable {N : Type} [NodeT N] (s : SearchT N)

/-- `p` holds `q`. -/
def Child (p q : Ptr) : Prop := ∃ l, s.heap.getChildren p = .ok l ∧ q ∈ l

/-- The tails from the head to a node, concatenated. -/
inductive Spells : Ptr → Str → Prop where
  /-- At the head. -/
  | head {p : Ptr} {t : Str} : s.head = some p → s.heap.getTail p = .ok t → Spells p t
  /-- At a child. -/
  | child {p q : Ptr} {x t : Str} : Spells p x → s.Child p q → s.heap.getTail q = .ok t → Spells q (x ++ t)

/-- The leaf node `l` spells `w`, after the `*` of the head. -/
def StoredAt (l : Ptr) (w : Str) : Prop := s.Spells l (sentinel :: w) ∧ s.heap.getIsLeaf l = .ok true

/-- A leaf node spells `w`. -/
def Stored (w : Str) : Prop := ∃ l, s.StoredAt l w

/-- On the walk of `add` from the node `p` with `i` characters of the word consumed: the
word parts from a tail inside it, at a node with a child under the next character. -/
inductive WrongTurnFrom (word : Str) : Ptr → ℕ → Prop where
  /-- At this node. -/
  | here {p q : Ptr} {i : ℕ} {t : Str} {c : Byte} : s.heap.getTail p = .ok t → agree t (word.drop i) < t.length →
      charAt word (i + agree t (word.drop i)) = .ok c → s.heap.getChild p c = .ok (some q) → WrongTurnFrom word p i
  /-- After this node. -/
  | after {p q : Ptr} {i : ℕ} {t : Str} {c : Byte} : i < word.length → s.heap.getTail p = .ok t →
      ¬ (i + agree t (word.drop i) = word.length ∧ agree t (word.drop i) = t.length) →
      charAt word (i + agree t (word.drop i)) = .ok c → s.heap.getChild p c = .ok (some q) →
      WrongTurnFrom word q (i + agree t (word.drop i)) → WrongTurnFrom word p i

/-- `add` of `w` takes a wrong turn. -/
def WrongTurn (w : Str) : Prop := ∃ p, s.head = some p ∧ s.WrongTurnFrom (sentinel :: w) p 0

end Heap

variable {s : SearchT Node2T} {T : Trie}

/-- Below nodes that spell their words, nodes spell their words. -/
theorem spells_of_site {F : Forest Ptr Byte} {par : Option Ptr} {u : Str} (hr : Rep s.heap par F)
    (hroots : ∀ c ∈ F.roots, ∀ t, s.heap.getTail c = .ok t → s.Spells c (u ++ t)) {S : Forest.Site Ptr Byte}
    (hS : S ∈ F.sites u) : s.Spells S.id S.word := by
  induction F generalizing par u with
  | nil => simp [Forest.sites] at hS
  | node id t leaf cs sib ihc ihs =>
    obtain ⟨hid, hc, hs⟩ := hr
    have hself : s.Spells id (u ++ t) := hroots id List.mem_cons_self t hid.getTail
    rw [Forest.mem_sites_node] at hS
    rcases hS with rfl | hS | hS
    · exact hself
    · exact ihc hc (fun c hm t' ht' => .child hself ⟨_, hid.getChildren, hm⟩ ht') hS
    · exact ihs hs (fun c hm => hroots c (List.mem_cons_of_mem _ hm)) hS

/-- Every node of a forest in the heap is at or below one of its roots. -/
theorem exists_root_above {F : Forest Ptr Byte} {par : Option Ptr} (hr : Rep s.heap par F) {q : Ptr} (hq : q ∈ F.ids) :
    ∃ c ∈ F.roots, Relation.ReflTransGen s.Child c q := by
  induction F generalizing par with
  | nil => simp [Forest.ids] at hq
  | node id t leaf cs sib ihc ihs =>
    obtain ⟨ha, hc, hs⟩ := hr
    simp only [Forest.ids, List.mem_cons, List.mem_append] at hq
    rcases hq with rfl | hq | hq
    · exact ⟨q, List.mem_cons_self, .refl⟩
    · obtain ⟨c, hm, hbelow⟩ := ihc hc hq
      exact ⟨id, List.mem_cons_self, .head ⟨_, ha.getChildren, hm⟩ hbelow⟩
    · obtain ⟨c, hm, hbelow⟩ := ihs hs hq
      exact ⟨c, List.mem_cons_of_mem _ hm, hbelow⟩

namespace Holds

/-- Every node of the heap is at a site of the trie. -/
theorem exists_site (h : s.Holds T) {p : Ptr} (hp : p < s.heap.length) : ∃ S ∈ T.tree.sites [], S.id = p := by
  have hm : p ∈ T.tree.ids := h.owns.mem_iff.mpr (List.mem_range.mpr hp)
  rw [← Forest.map_id_sites [], List.mem_map] at hm
  exact hm

theorem getTail (h : s.Holds T) {S : Forest.Site Ptr Byte} (hS : S ∈ T.tree.sites []) :
    s.heap.getTail S.id = .ok S.tail := by
  obtain ⟨q, ha, -⟩ := h.rep.site hS
  exact ha.getTail

theorem lt_of_getTail {p : Ptr} {t : Str} (h : s.heap.getTail p = .ok t) : p < s.heap.length := by
  by_contra hn
  rw [Heap.getTail, Heap.deref, List.getElem?_eq_none (not_lt.mp hn)] at h
  cases h

theorem getTail_iff (h : s.Holds T) {p : Ptr} {t : Str} :
    s.heap.getTail p = .ok t ↔ ∃ S ∈ T.tree.sites [], S.id = p ∧ S.tail = t := by
  constructor
  · intro ht
    obtain ⟨S, hS, rfl⟩ := h.exists_site (lt_of_getTail ht)
    exact ⟨S, hS, rfl, Except.ok.inj ((h.getTail hS).symm.trans ht)⟩
  · rintro ⟨S, hS, rfl, rfl⟩
    exact h.getTail hS

theorem getIsLeaf (h : s.Holds T) {S : Forest.Site Ptr Byte} (hS : S ∈ T.tree.sites []) :
    s.heap.getIsLeaf S.id = .ok S.leaf := by
  obtain ⟨q, ha, -⟩ := h.rep.site hS
  exact ha.getIsLeaf

theorem getChildren (h : s.Holds T) {S : Forest.Site Ptr Byte} (hS : S ∈ T.tree.sites []) :
    s.heap.getChildren S.id = .ok S.children.roots := by
  obtain ⟨q, ha, -⟩ := h.rep.site hS
  exact ha.getChildren

theorem child_iff (h : s.Holds T) {S : Forest.Site Ptr Byte} (hS : S ∈ T.tree.sites []) {q : Ptr} :
    s.Child S.id q ↔ q ∈ S.children.roots := by
  simp [Child, h.getChildren hS]

/-- Who holds a node is a node. -/
theorem site_of_child (h : s.Holds T) {p q : Ptr} (hc : s.Child p q) :
    ∃ S ∈ T.tree.sites [], S.id = p ∧ q ∈ S.children.roots := by
  obtain ⟨l, hl, -⟩ := id hc
  have hp : p < s.heap.length := by
    by_contra hn
    rw [Heap.getChildren, Heap.deref, List.getElem?_eq_none (not_lt.mp hn)] at hl
    cases hl
  obtain ⟨S, hS, rfl⟩ := h.exists_site hp
  exact ⟨S, hS, rfl, (h.child_iff hS).mp hc⟩

theorem child_iff_site (h : s.Holds T) {p q : Ptr} :
    s.Child p q ↔ ∃ S ∈ T.tree.sites [], S.id = p ∧ q ∈ S.children.roots := by
  refine ⟨h.site_of_child, ?_⟩
  rintro ⟨S, hS, rfl, hq⟩
  exact (h.child_iff hS).mpr hq

/-- The children of a site are sites under the word it spells. -/
theorem site_of_mem_roots {S : Forest.Site Ptr Byte} (hS : S ∈ T.tree.sites []) {q : Ptr}
    (hq : q ∈ S.children.roots) : ∃ S' ∈ T.tree.sites [], S'.id = q ∧ S'.pre = S.word := by
  obtain ⟨S', hS', hid, hpre⟩ := Forest.exists_site_of_mem_roots S.word hq
  exact ⟨S', Forest.mem_sites_trans hS hS', hid, hpre⟩

/-- The nodes spell what the sites do. -/
theorem spells_iff (h : s.Holds T) {p : Ptr} {x : Str} : s.Spells p x ↔ ∃ S ∈ T.tree.sites [], S.id = p ∧ S.word = x := by
  constructor
  · intro hs
    induction hs with
    | @head p t hp ht =>
      rw [h.head, Option.some.injEq] at hp
      subst hp
      rw [h.getTail T.head_mem_sites, Except.ok.injEq] at ht
      exact ⟨_, T.head_mem_sites, rfl, ht⟩
    | @child p q x t hp hc ht ih =>
      obtain ⟨S, hS, rfl, rfl⟩ := ih
      obtain ⟨S', hS', rfl, hpre⟩ := site_of_mem_roots hS ((h.child_iff hS).mp hc)
      rw [h.getTail hS', Except.ok.injEq] at ht
      exact ⟨S', hS', rfl, by rw [Forest.Site.word, hpre, ht]⟩
  · rintro ⟨S, hS, rfl, rfl⟩
    refine spells_of_site h.rep (fun c hc t ht => ?_) hS
    rw [Trie.tree, Forest.roots, Forest.roots, List.mem_singleton] at hc
    subst hc
    exact .head h.head ht

theorem storedAt_iff (h : s.Holds T) {l : Ptr} {w : Str} :
    s.StoredAt l w ↔ ∃ S ∈ T.tree.sites [], S.id = l ∧ S.word = sentinel :: w ∧ S.leaf = true := by
  rw [StoredAt, h.spells_iff]
  constructor
  · rintro ⟨⟨S, hS, rfl, hw⟩, hl⟩
    rw [h.getIsLeaf hS, Except.ok.injEq] at hl
    exact ⟨S, hS, rfl, hw, hl⟩
  · rintro ⟨S, hS, rfl, hw, hl⟩
    exact ⟨⟨S, hS, rfl, hw⟩, by rw [h.getIsLeaf hS, hl]⟩

theorem stored_iff (h : s.Holds T) {w : Str} : s.Stored w ↔ w ∈ T.words := by
  have htree : sentinel :: w ∈ T.tree.words [] ↔ w ∈ T.words := by simp [Trie.mem_words_tree]
  rw [← htree, Forest.mem_words_iff_site]
  simp only [Stored, h.storedAt_iff]
  constructor
  · rintro ⟨l, S, hS, -, hw, hl⟩
    exact ⟨S, hS, hl, hw⟩
  · rintro ⟨S, hS, hl, hw⟩
    exact ⟨S.id, S, hS, rfl, hw, hl⟩

/-- The leaf nodes are the head, for the empty word, and the leaf sites under it. -/
theorem storedAt_iff_forest (h : s.Holds T) {l : Ptr} {w : Str} :
    s.StoredAt l w ↔ (l = 0 ∧ w = [] ∧ T.leaf = true) ∨
      ∃ S ∈ T.forest.sites [], S.id = l ∧ S.word = w ∧ S.leaf = true := by
  rw [h.storedAt_iff]
  constructor
  · rintro ⟨S, hS, rfl, hw, hl⟩
    rcases Trie.mem_sites_tree.mp hS with rfl | ⟨S', hS', rfl⟩
    · exact .inl ⟨rfl, by simpa [Forest.Site.word] using hw, hl⟩
    · exact .inr ⟨S', hS', rfl, by simpa [Forest.Site.word] using hw, hl⟩
  · rintro (⟨rfl, rfl, hl⟩ | ⟨S, hS, rfl, rfl, hl⟩)
    · exact ⟨_, T.head_mem_sites, rfl, rfl, hl⟩
    · exact ⟨_, Trie.mem_sites_tree.mpr (.inr ⟨S, hS, rfl⟩), rfl, rfl, hl⟩

/-- A node is below another if it is in the forest of its children. -/
theorem transGen_child_iff (h : s.Holds T) {S : Forest.Site Ptr Byte} (hS : S ∈ T.tree.sites []) {q : Ptr} :
    Relation.TransGen s.Child S.id q ↔ q ∈ S.children.ids := by
  constructor
  · intro hq
    generalize hp : S.id = p at hq
    induction hq using Relation.TransGen.head_induction_on generalizing S with
    | single hc =>
      subst hp
      exact Forest.roots_subset_ids _ ((h.child_iff hS).mp hc)
    | head hc _ ih =>
      subst hp
      obtain ⟨S', hS', hid, -⟩ := Forest.exists_site_of_mem_roots S.word ((h.child_iff hS).mp hc)
      exact Forest.ids_children_subset hS' (ih (Forest.mem_sites_trans hS hS') hid)
  · intro hq
    obtain ⟨par, -, hr⟩ := h.rep.site hS
    obtain ⟨c, hm, hc⟩ := exists_root_above hr hq
    exact .head' ((h.child_iff hS).mpr hm) hc

end Holds

/-! ### Wrong turns -/

/-- The child that the walk looks for at a character of the word. -/
theorem getChild_of_charAt {p : Ptr} {t word : Str} {leaf : Bool} {par : Option Ptr} {cs : Forest Ptr Byte} {i : ℕ} {c : Byte}
    (hp : s.heap.At p ⟨t, leaf, par, cs.roots⟩) (hc : Rep s.heap (some p) cs) (hw : NulFree word) (hi : i ≤ word.length)
    (hch : charAt word i = .ok c) : s.heap.getChild p c = .ok (cs.rootOf (word.drop i).head?) := by
  rw [charAt_eq hi, Except.ok.injEq] at hch
  rw [← hch]
  exact Rep.getChild hp hc (hw.drop i)

theorem wrongTurnFrom_iff {F : Forest Ptr Byte} {par : Option Ptr} {word : Str} {p : Ptr} {i : ℕ} (hw : NulFree word)
    (hr : Rep s.heap par F) (hi : i ≤ word.length) (hp : F.rootOf (word.drop i).head? = some p) :
    s.WrongTurnFrom word p i ↔ F.Strays (word.drop i) := by
  induction F generalizing par p i with
  | nil => simp [Forest.rootOf] at hp
  | node id t leaf cs sib ihc ihs =>
    obtain ⟨hid, hc, hs⟩ := hr
    rw [Forest.rootOf] at hp
    rw [Forest.Strays]
    by_cases hh : t.head? = (word.drop i).head?
    · rw [if_pos hh, Option.some.injEq] at hp
      subst hp
      have hle := add_agree_le (t := t) hi
      rw [if_pos hh, Forest.Forks, List.drop_drop]
      constructor
      · intro hwt
        cases hwt with
        | here ht hlt hch hq =>
          rw [hid.getTail, Except.ok.injEq] at ht
          subst ht
          rw [getChild_of_charAt hid hc hw hle hch, Except.ok.injEq] at hq
          have hkey := Forest.mem_keys_of_rootOf hq
          exact ⟨fun he => absurd hlt (by simp [← he, agree_self]), fun hf => hf.2 hkey, .inl hlt⟩
        | after hlen ht hend hch hq hrest =>
          rw [hid.getTail, Except.ok.injEq] at ht
          subst ht
          rw [getChild_of_charAt hid hc hw hle hch, Except.ok.injEq] at hq
          have hkey := Forest.mem_keys_of_rootOf hq
          exact ⟨mt (agree_ends_iff hi).mpr hend, fun hf => hf.2 hkey, .inr ((ihc hc hle hq).mp hrest)⟩
      · rintro ⟨hne, hfk, hrest⟩
        have hch := charAt_eq hle
        rcases lt_or_ge (agree t (word.drop i)) t.length with hlt | hge
        · obtain ⟨q, hq⟩ := Forest.exists_rootOf (not_not.mp fun hk => hfk ⟨hlt, hk⟩)
          exact .here hid.getTail hlt hch (by rw [getChild_of_charAt hid hc hw hle hch, hq])
        · have hcs := hrest.resolve_left (not_lt.mpr hge)
          have hkey : (word.drop (i + agree t (word.drop i))).head? ∈ cs.keys := by
            by_contra hk
            exact (Forest.insert_of_notMem (a := 0) (b := 0) hk).2.2.2.2 hcs
          obtain ⟨q, hq⟩ := Forest.exists_rootOf hkey
          have hpos := agree_pos hh (Ne.symm hne)
          exact .after (by omega) hid.getTail (mt (agree_ends_iff hi).mp hne) hch
            (by rw [getChild_of_charAt hid hc hw hle hch, hq]) ((ihc hc hle hq).mpr hcs)
    · rw [if_neg hh] at hp ⊢
      exact ihs hs hi hp

/-- The walk takes a wrong turn where the insertion strays. -/
theorem Holds.wrongTurn_iff (h : s.Holds T) {w : Str} (hw : NulFree w) : s.WrongTurn w ↔ T.Strays w := by
  have hw' : NulFree (sentinel :: w) := nulFree_cons.mpr ⟨by decide, hw⟩
  have htree : T.tree.Strays (sentinel :: w) ↔ T.Strays w := by
    have hhead : [sentinel].head? = (sentinel :: w).head? := rfl
    rw [Trie.tree, Forest.Strays, if_pos hhead, Trie.agree_sentinel, Trie.Strays]
    simp [T.not_forks]
  rw [← htree]
  constructor
  · rintro ⟨p, hp, hwt⟩
    rw [h.head, Option.some.injEq] at hp
    subst hp
    exact (wrongTurnFrom_iff hw' h.rep (Nat.zero_le _) rfl).mp hwt
  · intro hs
    exact ⟨0, h.head, (wrongTurnFrom_iff hw' h.rep (Nat.zero_le _) rfl).mpr hs⟩

/-! ### Before the first word -/

theorem Ready.stored_iff (h : s.Ready T) {w : Str} : s.Stored w ↔ w ∈ T.words := by
  rcases h with ⟨hhead, -, -, rfl⟩ | h
  · have hnone : ∀ p x, ¬ s.Spells p x := by
      intro p x hs
      induction hs with
      | head hp => rw [hhead] at hp; cases hp
      | child _ _ _ ih => exact ih
    exact ⟨fun ⟨l, hl, _⟩ => absurd hl (hnone _ _), fun h => by simp [Trie.empty, Trie.words, Forest.words] at h⟩
  · exact h.stored_iff

/-- A run seen not to exit, and the words after it. -/
theorem stored_of_isOk (ws : List Str) (hw : ∀ w ∈ ws, NulFree w) (h : (fresh.adds ws).isOk = true) :
    ∃ s, fresh.adds ws = .ok s ∧ ∀ w, s.Stored w ↔ w ∈ (Trie.empty.adds ws).words := by
  obtain ⟨s, hs, hr⟩ := adds_of_isOk ws hw h
  exact ⟨s, hs, fun w => hr.stored_iff⟩

theorem Ready.wrongTurn_iff (h : s.Ready T) {w : Str} (hw : NulFree w) : s.WrongTurn w ↔ T.Strays w := by
  rcases h with ⟨hhead, -, -, rfl⟩ | h
  · exact ⟨fun ⟨p, hp, _⟩ => absurd hp (by simp [hhead]), fun h => h.2.elim⟩
  · exact h.wrongTurn_iff hw

end SearchT

end InfixSearch
