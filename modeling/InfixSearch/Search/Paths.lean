import InfixSearch.Search.Finding
import InfixSearch.Search.Storage

/-!
# Up and down from any node

`traverse_up` from any position of any node collects what the trie spells from the head to
that position (`traverseUp_of_adds`). `traverse_down_util` from any position of any node
lists the leaves at and below the node, each of them once, a node before its children and
these in the order of `get_children`: for each leaf what stands in the array, and behind it
what the trie spells from the position to the leaf (`traverseDownUtil_of_adds`).

The leaves below a node are read off the heap here, as in `Search.Stored`.
-/

namespace InfixSearch

open Library

namespace SearchT

section Heap

variable {N : Type} [NodeT N] (s : SearchT N)

/-- The leaves at and below the nodes of a list under the word `u`, in the order in which they are
come to, each with the word that it spells. -/
inductive Leaves : List Ptr → Str → List (Ptr × Str) → Prop where
  /-- No nodes. -/
  | nil {u : Str} : Leaves [] u []
  /-- A node, what is below it, and the other nodes. -/
  | cons {p : Ptr} {ps cs : List Ptr} {u t : Str} {leaf : Bool} {below rest : List (Ptr × Str)} :
      s.heap.getTail p = .ok t → s.heap.getIsLeaf p = .ok leaf → s.heap.getChildren p = .ok cs → Leaves cs (u ++ t) below →
      Leaves ps u rest → Leaves (p :: ps) u ((if leaf then [(p, u ++ t)] else []) ++ below ++ rest)

/-- The leaves at and below a node, from a position of its tail on, behind the word `u`. -/
def LeavesFrom (p : Ptr) (k : ℕ) (u : Str) (ls : List (Ptr × Str)) : Prop :=
  ∃ t leaf cs below, s.heap.getTail p = .ok t ∧ s.heap.getIsLeaf p = .ok leaf ∧ s.heap.getChildren p = .ok cs ∧
    s.Leaves cs (u ++ t.drop k) below ∧ ls = (if leaf then [(p, u ++ t.drop k)] else []) ++ below

end Heap

variable {s : SearchT Node2T} {T : Trie}

/-- A trie with a node holds a word. -/
theorem holds_of_getTail {ws : List Str} (hws : ∀ w ∈ ws, NulFree w) (hs : fresh.adds ws = .ok s) {p : Ptr} {t : Str}
    (hp : s.heap.getTail p = .ok t) : s.Holds (Trie.empty.adds ws) ∧ ws ≠ [] := by
  have hlt := Holds.lt_of_getTail hp
  have hne : ws ≠ [] := by
    rintro rfl
    obtain rfl := Except.ok.inj hs
    exact absurd hlt (Nat.not_lt_zero p)
  exact ⟨ready_fresh.holds_of_adds hne hws hs, hne⟩

/-! ### Up -/

/-- **What is above a position.** From a node that is not the head and a position of its tail,
`traverse_up` collects what the tails from the head to the position spell, on top of what was
there. -/
theorem traverseUp_of_adds {ws : List Str} (hws : ∀ w ∈ ws, NulFree w) (hs : fresh.adds ws = .ok s)
    (hlen : ∀ p t, s.heap.getTail p = .ok t → t.length ≤ 128) {p : Ptr} {t : Str} (hp : s.heap.getTail p = .ok t)
    (hhead : s.head ≠ some p) :
    ∃ pre, s.Spells p (sentinel :: (pre ++ t)) ∧ ∀ i ≤ t.length, ∀ fuel, s.heap.length < fuel → ∀ up,
      s.traverseUp fuel (p, narrow (i - 1)) up = .ok (pre ++ t.take i ++ up) := by
  obtain ⟨h, -⟩ := holds_of_getTail hws hs hp
  obtain ⟨S, hS, rfl⟩ := h.exists_site (Holds.lt_of_getTail hp)
  obtain rfl := Except.ok.inj ((h.getTail hS).symm.trans hp)
  have hspells := h.spells_iff.mpr ⟨S, hS, rfl, rfl⟩
  rcases Trie.mem_sites_tree.mp hS with rfl | ⟨S', hS', rfl⟩
  · exact absurd h.head hhead
  · refine ⟨S'.pre, hspells, ?_⟩
    intro i hi fuel hfuel up
    have hsites : (Trie.empty.adds ws).forest.sitesBy climbed [] = (Trie.empty.adds ws).forest.sites [] := by
      refine Forest.sitesBy_eq_sites ?_
      intro R hR
      have htree : { R with pre := sentinel :: R.pre } ∈ (Trie.empty.adds ws).tree.sites [] :=
        Trie.mem_sites_tree.mpr (.inr ⟨R, hR, rfl⟩)
      exact climbed_eq_self (hlen R.id R.tail (h.getTail (S := { R with pre := sentinel :: R.pre }) htree))
    have hle := hlen _ _ hp
    have hj : ((narrow (i - 1)).toInt + 1).toNat = i := by
      rw [toInt_narrow (by omega) (by omega)]
      omega
    have hclimb : S' ∈ (Trie.empty.adds ws).forest.sitesBy climbed [] := hsites ▸ hS'
    exact h.traverseUp_climb hclimb hi hj hfuel up

/-- From the node of `c` in `abc`, below that of `ab`. -/
theorem traverseUp_of_adds_abc : ∃ s, fresh.adds [ascii "ab", ascii "abc"] = .ok s ∧
    ∃ pre, s.Spells 2 (sentinel :: (pre ++ ascii "c")) ∧ ∀ i ≤ (ascii "c").length, ∀ fuel, s.heap.length < fuel → ∀ up,
      s.traverseUp fuel (2, narrow (i - 1)) up = .ok (pre ++ (ascii "c").take i ++ up) := by
  obtain ⟨s, hs, -⟩ := adds_of_isOk [ascii "ab", ascii "abc"] (by decide) (by decide +kernel)
  have htail : (fresh.adds [ascii "ab", ascii "abc"] >>= fun s => s.heap.getTail 2) = .ok (ascii "c") := by decide +kernel
  rw [hs] at htail
  obtain ⟨h, -⟩ := holds_of_getTail (by decide) hs htail
  have hlen : ∀ S ∈ (Trie.empty.adds [ascii "ab", ascii "abc"]).tree.sites [], S.tail.length ≤ 128 := by decide
  refine ⟨s, hs, traverseUp_of_adds (by decide) hs ?_ htail ?_⟩
  · intro p t hp
    obtain ⟨S, hS, -, rfl⟩ := h.getTail_iff.mp hp
    exact hlen S hS
  · rw [h.head]
    decide

/-! ### Down -/

/-- What a forest in the heap lists. -/
theorem leaves_roots {F : Forest Ptr Byte} {par : Option Ptr} (hr : Rep s.heap par F) (u : Str) (A : List ℕ) :
    s.Leaves F.roots u ((F.leaves u A).map fun l => (l.id, l.word)) := by
  induction F generalizing par u A with
  | nil => exact .nil
  | node id t leaf cs sib ihc ihs =>
    obtain ⟨ha, hc, hs⟩ := hr
    have hcons := Leaves.cons (u := u) ha.getTail ha.getIsLeaf ha.getChildren
      (ihc hc (u ++ t) (A ++ Forest.cut leaf (u ++ t))) (ihs hs u A)
    cases leaf with
    | false => simpa [Forest.leaves, Forest.roots] using hcons
    | true => simpa [Forest.leaves, Forest.roots] using hcons

/-- A node of a trie with words is a leaf or has children. -/
theorem branch_of_site {ws : List Str} (hne : ws ≠ []) {S : Forest.Site Ptr Byte} (hS : S ∈ (Trie.empty.adds ws).tree.sites []) :
    S.leaf = true ∨ S.children ≠ .nil := by
  rcases Trie.mem_sites_tree.mp hS with rfl | ⟨S', hS', rfl⟩
  · -- the word added last is stored at the head or below it
    obtain ⟨us, w, rfl⟩ : ∃ us w, ws = us ++ [w] := ⟨ws.dropLast, ws.getLast hne, (List.dropLast_append_getLast hne).symm⟩
    have hadds : Trie.empty.adds (us ++ [w]) = (Trie.empty.adds us).add w := by simp [Trie.adds]
    have hw : (Trie.empty.adds us).filed w ∈ (Trie.empty.adds (us ++ [w])).words := hadds ▸ Trie.mem_words_add.mpr (.inr rfl)
    by_contra hno
    rw [not_or, not_not] at hno
    obtain ⟨hl, hf⟩ : _ ∧ (Trie.empty.adds (us ++ [w])).forest = .nil := hno
    simp [Trie.words, hf, Forest.words] at hw
    exact hl hw.1
  · have hbranch := (Trie.empty.adds ws).wf.branch hS'
    exact hbranch

/-- The leaf of a node, and the leaves below it and beside it. -/
theorem mem_map_id_leaves_node {id : Ptr} {leaf : Bool} (ha : s.heap.getIsLeaf id = .ok leaf) {t u : Str} {A : List ℕ}
    {cs sib : Forest Ptr Byte} {l : Ptr} :
    l ∈ ((Forest.node id t leaf cs sib).leaves u A).map Forest.Ending.id ↔ (l = id ∧ s.heap.getIsLeaf l = .ok true) ∨
      l ∈ (cs.leaves (u ++ t) (A ++ Forest.cut leaf (u ++ t))).map Forest.Ending.id ∨
      l ∈ (sib.leaves u A).map Forest.Ending.id := by
  have hself : (l = id ∧ s.heap.getIsLeaf l = .ok true) ↔ leaf = true ∧ l = id := by
    rw [and_comm]
    refine and_congr_left ?_
    rintro rfl
    rw [ha, Except.ok.injEq]
  rw [hself]
  cases leaf <;> simp [Forest.leaves]

/-- The leaves of a forest in the heap. -/
theorem mem_leaves_iff {F : Forest Ptr Byte} {par : Option Ptr} (hr : Rep s.heap par F) (u : Str) (A : List ℕ) {l : Ptr} :
    l ∈ (F.leaves u A).map Forest.Ending.id ↔ l ∈ F.ids ∧ s.heap.getIsLeaf l = .ok true := by
  induction F generalizing par u A with
  | nil => simp [Forest.leaves, Forest.ids]
  | node id t leaf cs sib ihc ihs =>
    obtain ⟨ha, hc, hs⟩ := hr
    rw [mem_map_id_leaves_node ha.getIsLeaf, ihc hc, ihs hs, Forest.ids, List.mem_cons, List.mem_append, or_and_right,
      or_and_right]

/-- The recursion below a node has fuel. -/
theorem depth_lt_of_site (h : s.Holds T) {S : Forest.Site Ptr Byte} (hS : S ∈ T.tree.sites []) :
    S.children.depth < s.heap.length := by
  have h₁ := T.tree.depth_le_length_ids
  rw [T.length_ids_tree, h.owns.size] at h₁
  exact (Forest.depth_site hS).trans_le h₁

/-- The words at and below a node fit in an array that a call for the node does not overrun. -/
theorem lt_of_not_overruns (h : s.Holds T) {S : Forest.Site Ptr Byte} (hS : S ∈ T.tree.sites []) {k : ℕ} {u : Str}
    (hu : NulFree u) {rest : Block Byte} {suffixes : List Str} {fuel : ℕ} (hfuel : s.heap.length < fuel)
    (hfit : ¬ (Scratch.traverseDownUtil s fuel S.id k (.starting u rest) u.length suffixes).Overruns (u.length + rest.length)) :
    ∀ w ∈ (Forest.node S.id (S.tail.drop k) S.leaf S.children .nil).words u, w.length < u.length + rest.length := by
  obtain ⟨par, ha, hc⟩ := h.rep.site hS
  have hdepth := depth_lt_of_site h hS
  obtain ⟨fuel, rfl⟩ := Nat.exists_eq_add_one_of_ne_zero (show fuel ≠ 0 by omega)
  intro w hw
  by_contra hle
  refine hfit (overruns_traverseDownUtil fuel suffixes ha hu rfl ⟨w, hw, not_lt.mp hle⟩ ?_)
  intro rest₁ suffixes hrest₁ hlong
  exact overruns_traverseChildren fuel rest₁ suffixes hc (Holds.children_wf hS) (nulFree_append.mpr ⟨hu, ha.nulFree.drop k⟩)
    (by omega) hrest₁ hlong

/-- What is listed from a position of the tail of a node on. -/
theorem leavesFrom_site (h : s.Holds T) {S : Forest.Site Ptr Byte} (hS : S ∈ T.tree.sites []) (k : ℕ) (u : Str) :
    ∃ ls, s.LeavesFrom S.id k u ls ∧ (ls.map Prod.fst).Nodup ∧
      (∀ l, l ∈ ls.map Prod.fst ↔ Relation.ReflTransGen s.Child S.id l ∧ s.heap.getIsLeaf l = .ok true) ∧
      ls.map Prod.snd = (Forest.node S.id (S.tail.drop k) S.leaf S.children .nil).words u := by
  obtain ⟨par, ha, hc⟩ := h.rep.site hS
  have hfst : (((Forest.node S.id (S.tail.drop k) S.leaf S.children .nil).leaves u []).map fun l => (l.id, l.word)).map
      Prod.fst = ((Forest.node S.id (S.tail.drop k) S.leaf S.children .nil).leaves u []).map Forest.Ending.id := List.map_map
  have hbelow := leaves_roots hc (u ++ S.tail.drop k) (Forest.cut S.leaf (u ++ S.tail.drop k))
  refine ⟨((Forest.node S.id (S.tail.drop k) S.leaf S.children .nil).leaves u []).map fun l => (l.id, l.word),
    ⟨S.tail, S.leaf, _, _, ha.getTail, ha.getIsLeaf, ha.getChildren, hbelow, ?_⟩, ?_, fun l => ?_, ?_⟩
  · cases S.leaf <;> simp [Forest.leaves]
  · rw [hfst]
    have hsub := Forest.map_id_leaves_sublist u [] (.node S.id (S.tail.drop k) S.leaf S.children .nil)
    rw [Forest.ids, Forest.ids, List.append_nil] at hsub
    exact hsub.nodup (Forest.nodup_site h.owns.nodup hS)
  · rw [hfst, mem_map_id_leaves_node ha.getIsLeaf, mem_leaves_iff hc, Relation.reflTransGen_iff_eq_or_transGen,
      h.transGen_child_iff hS, or_and_right]
    simp [Forest.leaves]
  · rw [List.map_map]
    exact Forest.map_word_leaves u [] _

/-- A call for a node of which there is something to list appends the words, unless it overruns the array. -/
theorem traverseDownUtil_site (h : s.Holds T) {S : Forest.Site Ptr Byte} (hS : S ∈ T.tree.sites [])
    (hbranch : S.leaf = true ∨ S.children ≠ .nil) {k : ℕ} {u : Str} (hu : NulFree u) {rest : Block Byte} {suffixes : List Str}
    {fuel : ℕ} (hfuel : s.heap.length < fuel)
    (hfit : ¬ (Scratch.traverseDownUtil s fuel S.id k (.starting u rest) u.length suffixes).Overruns (u.length + rest.length)) :
    ∃ rest', s.traverseDownUtil fuel S.id k (.starting u rest) u.length suffixes =
      .ok (.starting u rest', suffixes ++ (Forest.node S.id (S.tail.drop k) S.leaf S.children .nil).words u) ∧
      rest'.length = rest.length := by
  obtain ⟨par, ha, hc⟩ := h.rep.site hS
  have hwf := Holds.children_wf hS
  have hdepth := depth_lt_of_site h hS
  have hwords := lt_of_not_overruns h hS hu hfuel hfit
  have hnul : NulFree (u ++ S.tail.drop k) := nulFree_append.mpr ⟨hu, ha.nulFree.drop k⟩
  -- there is a word at the node or below it, so there is room for the tail
  have hroom : (S.tail.drop k).length < rest.length := by
    obtain ⟨w, hw, hpre⟩ : ∃ w ∈ (Forest.node S.id (S.tail.drop k) S.leaf S.children .nil).words u,
        u ++ S.tail.drop k <+: w := by
      rcases hbranch with hl | hchildren
      · exact ⟨_, Forest.mem_words_node.mpr (.inl ⟨hl, rfl⟩), List.prefix_rfl⟩
      · obtain ⟨w, hw, hpre⟩ := hwf.exists_word hchildren (u ++ S.tail.drop k)
        exact ⟨w, Forest.mem_words_node.mpr (.inr (.inl hw)), hpre⟩
    have hlt := hwords w hw
    have hle := hpre.length_le
    rw [List.length_append] at hle
    omega
  obtain ⟨fuel, rfl⟩ := Nat.exists_eq_add_one_of_ne_zero (show fuel ≠ 0 by omega)
  refine traverseDownUtil_node fuel suffixes ha hu hroom fun rest₁ suffixes hrest₁ => ?_
  refine traverseChildren_eq fuel rest₁ suffixes hc hwf hnul (by omega) fun w hw => ?_
  have hlt := hwords w (Forest.mem_words_node.mpr (.inr (.inl hw)))
  rw [List.length_append]
  omega

/-- **What is below a position.** From a node and any position of its tail, with a string in the array
and all indices inside the array, `traverse_down_util` appends for each leaf at or below the node one
string, the nodes coming before their children and these in their order. -/
theorem traverseDownUtil_of_adds {ws : List Str} (hws : ∀ w ∈ ws, NulFree w) (hs : fresh.adds ws = .ok s) {p : Ptr} {t : Str}
    (hp : s.heap.getTail p = .ok t) (k : ℕ) {u : Str} (hu : NulFree u) (rest : Block Byte) (suffixes : List Str) {fuel : ℕ}
    (hfuel : s.heap.length < fuel)
    (hfit : ¬ (Scratch.traverseDownUtil s fuel p k (.starting u rest) u.length suffixes).Overruns (u.length + rest.length)) :
    ∃ ls rest', s.LeavesFrom p k u ls ∧ (ls.map Prod.fst).Nodup ∧
      (∀ l, l ∈ ls.map Prod.fst ↔ Relation.ReflTransGen s.Child p l ∧ s.heap.getIsLeaf l = .ok true) ∧
      s.traverseDownUtil fuel p k (.starting u rest) u.length suffixes = .ok (.starting u rest', suffixes ++ ls.map Prod.snd) ∧
      rest'.length = rest.length := by
  obtain ⟨h, hne⟩ := holds_of_getTail hws hs hp
  obtain ⟨S, hS, rfl⟩ := h.exists_site (Holds.lt_of_getTail hp)
  obtain ⟨ls, hfrom, hnodup, hmem, hsnd⟩ := leavesFrom_site h hS k u
  obtain ⟨rest', hdown, hrest'⟩ := traverseDownUtil_site h hS (branch_of_site hne hS) hu hfuel hfit
  exact ⟨ls, rest', hfrom, hnodup, hmem, hsnd ▸ hdown, hrest'⟩

/-- The nodes of `ab`, `abc` and `abd`, from the second position of the tail `ab`. -/
theorem traverseDownUtil_of_adds_ab : ∃ s, fresh.adds [ascii "ab", ascii "abc", ascii "abd"] = .ok s ∧ ∃ ls rest',
    s.LeavesFrom 1 1 (ascii "k") ls ∧ (ls.map Prod.fst).Nodup ∧
      (∀ l, l ∈ ls.map Prod.fst ↔ Relation.ReflTransGen s.Child 1 l ∧ s.heap.getIsLeaf l = .ok true) ∧
      s.traverseDownUtil 8 1 1 (.starting (ascii "k") (malloc 9)) 1 [] = .ok (.starting (ascii "k") rest', [] ++ ls.map Prod.snd) ∧
      rest'.length = (malloc 9 : Block Byte).length := by
  obtain ⟨s, hs, -⟩ := adds_of_isOk [ascii "ab", ascii "abc", ascii "abd"] (by decide) (by decide +kernel)
  have htail : (fresh.adds [ascii "ab", ascii "abc", ascii "abd"] >>= fun s => s.heap.getTail 1) = .ok (ascii "ab") := by
    decide +kernel
  have hlog : (fun s : SearchT Node2T =>
      (s.heap.length, (Scratch.traverseDownUtil s 8 1 1 (.starting (ascii "k") (malloc 9)) 1 []).log)) <$>
        fresh.adds [ascii "ab", ascii "abc", ascii "abd"] = .ok (4, [1, 2, 2, 3, 2, 3]) := by decide +kernel
  rw [hs] at htail hlog
  obtain ⟨hsize, hlog⟩ := Prod.mk.inj (Except.ok.inj hlog)
  refine ⟨s, hs, traverseDownUtil_of_adds (by decide) hs htail 1 (by decide) (malloc 9) [] (by omega) ?_⟩
  rw [Logged.not_overruns_iff]
  intro i hi
  have hi' : i ∈ [1, 2, 2, 3, 2, 3] := hlog ▸ hi
  exact (show ∀ i ∈ [1, 2, 2, 3, 2, 3], i < 10 by decide) i hi'

end SearchT

end InfixSearch
