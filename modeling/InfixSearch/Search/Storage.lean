import InfixSearch.Search.Stored

/-!
# What a run of `add` stores

The trie that `add` leaves behind: its shape (`trieInvariant_adds`), what one call
adds to it (`stored_add`), and what a run of calls stores. A call stores its word
unless it takes a wrong turn, following a child of a node inside whose tail the word
has parted from it. A run all of whose calls take none stores what was added, and no
other run does so all the way (`stored_adds_iff`).
-/

namespace InfixSearch

open Library

namespace SearchT

variable {s s' : SearchT Node2T} {T : Trie}

/-! ### Shape -/

/-- The shape of the trie, read off the heap. -/
structure TrieInvariant (s : SearchT Node2T) : Prop where
  /-- The tail of the head is `*`. -/
  head_tail : ∀ h, s.head = some h → s.heap.getTail h = .ok [sentinel]
  /-- Every other node is held by one node, its parent. -/
  parent : ∀ p < s.heap.length, s.head ≠ some p → ∃ q, s.heap.getParent p = .ok (some q) ∧ ∀ q', s.Child q' p ↔ q' = q
  /-- The children of a node are held once, under different values. -/
  children : ∀ p < s.heap.length, ∃ l, s.heap.getChildren p = .ok l ∧ l.Nodup ∧
    l.Pairwise fun c d => s.heap.getVal c ≠ s.heap.getVal d
  /-- The value of a node is the first byte of its tail. -/
  val : ∀ p < s.heap.length, ∃ t, s.heap.getTail p = .ok t ∧ s.heap.getVal p = .ok (t.headD 0)
  /-- An empty tail is a leaf without children. -/
  empty_tail : ∀ p, s.heap.getTail p = .ok [] → s.heap.getIsLeaf p = .ok true ∧ s.heap.getChildren p = .ok []
  /-- Every other node than the head is a leaf or has two children. -/
  branching : ∀ p < s.heap.length, s.head ≠ some p → s.heap.getIsLeaf p = .ok true ∨
    ∃ l, s.heap.getChildren p = .ok l ∧ 2 ≤ l.length
  /-- There is a leaf at or below every other node than the head. -/
  leaf_below : ∀ p < s.heap.length, s.head ≠ some p →
    ∃ q, Relation.ReflTransGen s.Child p q ∧ s.heap.getIsLeaf q = .ok true

/-- The roots of a forest are held under different values. -/
theorem pairwise_getVal {h : Heap Node2T} {par : Option Ptr} {F : Forest Ptr Byte} (hr : Rep h par F)
    (hk : F.keys.Nodup) : F.roots.Pairwise fun c d => h.getVal c ≠ h.getVal d := by
  induction F with
  | nil => exact .nil
  | node id t leaf cs sib _ ihs =>
    obtain ⟨hid, -, hs⟩ := hr
    rw [Forest.keys, List.nodup_cons] at hk
    refine List.pairwise_cons.mpr ⟨fun c hc heq => ?_, ihs hs hk.2⟩
    obtain ⟨v, hv, hkey, -⟩ := hs.at_of_mem_roots hc
    rw [hid.valD.1, hv.valD.1, Except.ok.injEq, hid.valD.2, hv.valD.2, keyByte_inj hid.nulFree hv.nulFree] at heq
    exact hk.1 (heq ▸ hkey)

/-- There is a leaf at or below every root. -/
theorem exists_leaf_below {F : Forest Ptr Byte} {par : Option Ptr} (hr : Rep s.heap par F) (hF : F.WF) {p : Ptr}
    (hp : p ∈ F.roots) : ∃ q, Relation.ReflTransGen s.Child p q ∧ s.heap.getIsLeaf q = .ok true := by
  induction F generalizing par p with
  | nil => simp [Forest.roots] at hp
  | node id t leaf cs sib ihc ihs =>
    obtain ⟨hid, hc, hs⟩ := hr
    obtain ⟨-, hbranch, -, hcs, hsib⟩ := hF
    rw [Forest.roots, List.mem_cons] at hp
    rcases hp with rfl | hp
    · rcases hbranch with rfl | hwidth
      · exact ⟨p, .refl, hid.getIsLeaf⟩
      · obtain ⟨c, hm⟩ := List.exists_mem_of_length_pos (l := cs.roots) (by rw [Forest.length_roots]; omega)
        obtain ⟨q, hq, hl⟩ := ihc hc hcs hm
        exact ⟨q, .head ⟨_, hid.getChildren, hm⟩ hq, hl⟩
    · exact ihs hs hsib hp

namespace Holds

theorem children_wf {S : Forest.Site Ptr Byte} (hS : S ∈ T.tree.sites []) : S.children.WF := by
  rw [Trie.tree, Forest.mem_sites_node] at hS
  rcases hS with rfl | hS | hS
  · exact T.wf
  · exact (T.wf.site hS).2.2
  · simp [Forest.sites] at hS

/-- A node other than the head is at a site of the forest under it. -/
theorem site_of_ne_head (h : s.Holds T) {S : Forest.Site Ptr Byte} (hS : S ∈ T.tree.sites []) (hne : s.head ≠ some S.id) :
    S ∈ T.forest.sites [sentinel] := by
  rw [Trie.tree, Forest.mem_sites_node] at hS
  rcases hS with rfl | hS | hS
  · exact absurd h.head hne
  · exact hS
  · simp [Forest.sites] at hS

/-- It is held by a node. -/
theorem exists_holder (h : s.Holds T) {p : Ptr} (hp : p < s.heap.length) (hne : s.head ≠ some p) :
    ∃ P ∈ T.tree.sites [], p ∈ P.children.roots := by
  obtain ⟨S, hS, rfl⟩ := h.exists_site hp
  rcases Forest.mem_roots_or_child hS with ⟨hr, -⟩ | ⟨P, hP, hr, -⟩
  · rw [Trie.tree, Forest.roots, Forest.roots, List.mem_singleton] at hr
    exact absurd (hr ▸ h.head) hne
  · exact ⟨P, hP, hr⟩

/-- And that node is its parent. -/
theorem getParent (h : s.Holds T) {P : Forest.Site Ptr Byte} (hP : P ∈ T.tree.sites []) {c : Ptr} (hc : c ∈ P.children.roots) :
    s.heap.getParent c = .ok (some P.id) := by
  obtain ⟨q, -, hr⟩ := h.rep.site hP
  obtain ⟨v, hv, -, hpar⟩ := hr.at_of_mem_roots hc
  rw [hv.getParent, hpar]

/-- No other node holds it. -/
theorem child_iff_eq (h : s.Holds T) {P : Forest.Site Ptr Byte} (hP : P ∈ T.tree.sites []) {c : Ptr} (hc : c ∈ P.children.roots)
    (q : Ptr) : s.Child q c ↔ q = P.id := by
  constructor
  · intro hq
    obtain ⟨Q, hQ, rfl, hm⟩ := h.site_of_child hq
    have heq := (h.getParent hQ hm).symm.trans (h.getParent hP hc)
    rw [Except.ok.injEq, Option.some.injEq] at heq
    exact heq
  · rintro rfl
    exact (h.child_iff hP).mpr hc

/-- A node with an empty tail is not the head. -/
theorem ne_head_of_tail (h : s.Holds T) {S : Forest.Site Ptr Byte} (hS : S ∈ T.tree.sites []) (ht : S.tail = []) :
    s.head ≠ some S.id := by
  rw [h.head]
  intro he
  rw [Forest.site_unique h.owns.nodup hS T.head_mem_sites (Option.some.inj he).symm] at ht
  cases ht

theorem trieInvariant (h : s.Holds T) : s.TrieInvariant where
  head_tail p hp := by
    rw [h.head, Option.some.injEq] at hp
    subst hp
    exact h.getTail T.head_mem_sites
  parent p hp hne := by
    obtain ⟨P, hP, hm⟩ := h.exists_holder hp hne
    exact ⟨P.id, h.getParent hP hm, h.child_iff_eq hP hm⟩
  children p hp := by
    obtain ⟨S, hS, rfl⟩ := h.exists_site hp
    obtain ⟨q, -, hr⟩ := h.rep.site hS
    have hpw := pairwise_getVal hr (children_wf hS).keyed.nodup_keys
    exact ⟨_, h.getChildren hS, hpw.imp fun hne he => hne (congrArg _ he), hpw⟩
  val p hp := by
    obtain ⟨S, hS, rfl⟩ := h.exists_site hp
    obtain ⟨q, ha, -⟩ := h.rep.site hS
    exact ⟨_, ha.getTail, ha.getVal⟩
  empty_tail p ht := by
    have hp : p < s.heap.length := by
      by_contra hn
      rw [Heap.getTail, Heap.deref, List.getElem?_eq_none (not_lt.mp hn)] at ht
      cases ht
    obtain ⟨S, hS, rfl⟩ := h.exists_site hp
    rw [h.getTail hS, Except.ok.injEq] at ht
    obtain ⟨hl, hc⟩ := (T.wf.site (h.site_of_ne_head hS (h.ne_head_of_tail hS ht))).1 ht
    rw [h.getIsLeaf hS, h.getChildren hS, hl, hc]
    exact ⟨rfl, rfl⟩
  branching p hp hne := by
    obtain ⟨S, hS, rfl⟩ := h.exists_site hp
    rw [h.getIsLeaf hS, h.getChildren hS]
    rcases (T.wf.site (h.site_of_ne_head hS hne)).2.1 with hl | hw
    · exact .inl (by rw [hl])
    · exact .inr ⟨_, rfl, by rwa [Forest.length_roots]⟩
  leaf_below p hp hne := by
    obtain ⟨P, hP, hm⟩ := h.exists_holder hp hne
    obtain ⟨q, -, hr⟩ := h.rep.site hP
    exact exists_leaf_below hr (children_wf hP) hm

end Holds

theorem Ready.trieInvariant (h : s.Ready T) : s.TrieInvariant := by
  rcases h with ⟨hhead, hheap, -, -⟩ | h
  · have hno : ∀ p, ¬ p < s.heap.length := fun p => by simp [hheap]
    refine ⟨fun p hp => ?_, fun p hp => absurd hp (hno p), fun p hp => absurd hp (hno p), fun p hp => absurd hp (hno p),
      fun p ht => ?_, fun p hp => absurd hp (hno p), fun p hp => absurd hp (hno p)⟩
    · rw [hhead] at hp; cases hp
    · rw [hheap] at ht; cases ht
  · exact h.trieInvariant

/-- The head keeps its children. -/
theorem roots_prefix_adds (T : Trie) (ws : List Str) : T.forest.roots <+: (T.adds ws).forest.roots := by
  induction ws generalizing T with
  | nil => exact List.prefix_rfl
  | cons w ws ih =>
    refine List.IsPrefix.trans ?_ (ih (T.add w))
    unfold Trie.add
    split_ifs
    · exact List.prefix_rfl
    · by_cases hk : w.head? ∈ T.forest.keys
      · rw [(Forest.insert_of_mem hk).1]
      · rw [(Forest.insert_of_notMem hk).1]
        exact List.prefix_append _ _

/-- Every state that a run reaches has the shape, and the head is never split: it is the
head of every later state, with its tail and its children. -/
theorem trieInvariant_adds {ws : List Str} (hws : ∀ w ∈ ws, NulFree w) (hexit : fresh.adds ws ≠ .error .exit) :
    ∃ s, fresh.adds ws = .ok s ∧ s.TrieInvariant ∧ (ws ≠ [] → ∃ h, s.head = some h) ∧
      ∀ us, us <+: ws → ∃ s₀, fresh.adds us = .ok s₀ ∧ ∀ h, s₀.head = some h → s.head = some h ∧
        ∀ l, s₀.heap.getChildren h = .ok l → ∃ l', s.heap.getChildren h = .ok (l ++ l') := by
  obtain ⟨s, hs, hr, -⟩ := adds_of_not_exit ready_fresh hws hexit
  refine ⟨s, hs, hr.trieInvariant, fun hne => ⟨0, (ready_fresh.holds_of_adds hne hws hs).head⟩, fun us hp => ?_⟩
  obtain ⟨vs, rfl⟩ := hp
  obtain ⟨hus, hvs⟩ := List.forall_mem_append.mp hws
  obtain ⟨s₀, hs₀, hr₀, -⟩ := adds_of_not_exit ready_fresh hus (adds_ne_exit (List.prefix_append us vs) hexit)
  refine ⟨s₀, hs₀, fun h hh => ?_⟩
  rcases hr₀ with ⟨hnone, -⟩ | hr₀
  · rw [hnone] at hh; cases hh
  · rw [adds_append, hs₀, ok_bind] at hs
    have hlater := hr₀.adds hvs hs
    rw [hr₀.head, Option.some.injEq] at hh
    subst hh
    refine ⟨hlater.head, fun l hl => ?_⟩
    rw [hr₀.getChildren (Trie.head_mem_sites _), Except.ok.injEq] at hl
    subst hl
    obtain ⟨l', hl'⟩ := roots_prefix_adds (Trie.empty.adds us) vs
    exact ⟨l', by rw [hlater.getChildren (Trie.head_mem_sites _), ← hl']⟩

theorem trieInvariant_ab_ac : ∃ s, fresh.adds [ascii "ab", ascii "ac"] = .ok s ∧ s.TrieInvariant := by
  obtain ⟨s', hs', -⟩ := adds_of_isOk [ascii "ab", ascii "ac"] (by decide) (by decide +kernel)
  obtain ⟨s, hs, hi, -⟩ := trieInvariant_adds (show ∀ w ∈ [ascii "ab", ascii "ac"], NulFree w by decide)
    (by rw [hs']; exact fun h => nomatch h)
  exact ⟨s, hs, hi⟩

/-! ### One call -/

/-- What is stored stays, and one word at most is new: the one added, unless the call
takes a wrong turn. -/
theorem Ready.stored_of_add (h : s.Ready T) {w : Str} (hw : NulFree w) (hexit : s.add w ≠ .error .exit) :
    ∃ s', s.add w = .ok s' ∧ s'.Holds (T.add w) ∧ (∀ y, s'.Stored y ↔ s.Stored y ∨ y = T.filed w) ∧
      (T.filed w = w ↔ ¬ s.WrongTurn w) := by
  obtain ⟨s', e', h', -⟩ := add_of_not_exit h hw hexit
  refine ⟨s', e', h', fun y => ?_, ?_⟩
  · rw [h'.stored_iff, h.stored_iff, Trie.mem_words_add]
  · rw [h.wrongTurn_iff hw, Trie.filed_eq_iff]

theorem stored_add {ws : List Str} (hws : ∀ x ∈ ws, NulFree x) {s : SearchT Node2T} (hs : fresh.adds ws = .ok s)
    {w : Str} (hw : NulFree w) (hexit : s.add w ≠ .error .exit) :
    ∃ s', s.add w = .ok s' ∧ ∃ x, (∀ y, s'.Stored y ↔ s.Stored y ∨ y = x) ∧ (¬ s.WrongTurn w → x = w) := by
  obtain ⟨s', e', -, hst, hx⟩ := (ready_of_adds hws hs).stored_of_add hw hexit
  exact ⟨s', e', _, hst, hx.mpr⟩

theorem stored_add_ab_ac : ∃ s s', fresh.adds [ascii "ab"] = .ok s ∧ s.add (ascii "ac") = .ok s' ∧
    ∃ x, (∀ y, s'.Stored y ↔ s.Stored y ∨ y = x) ∧ (¬ s.WrongTurn (ascii "ac") → x = ascii "ac") := by
  obtain ⟨s, hs, -⟩ := adds_of_isOk [ascii "ab"] (by decide) (by decide +kernel)
  have hexit : s.add (ascii "ac") ≠ .error .exit := by
    intro h
    have hok : (fresh.adds ([ascii "ab"] ++ [ascii "ac"])).isOk = true := by decide +kernel
    rw [adds_concat, hs, ok_bind, h] at hok
    cases hok
  obtain ⟨s', hs', hx⟩ := stored_add (by decide) hs (by decide) hexit
  exact ⟨s, s', hs, hs', hx⟩

/-! ### A run of calls -/

/-- A run stores what was added, after each of its calls, if and only if no call takes a
wrong turn. -/
theorem stored_adds_iff {ws : List Str} (hws : ∀ w ∈ ws, NulFree w) (hexit : fresh.adds ws ≠ .error .exit) :
    (∀ us, us <+: ws → ∃ s, fresh.adds us = .ok s ∧ ∀ x, s.Stored x ↔ x ∈ us) ↔
      ∀ us w, us ++ [w] <+: ws → ∃ s, fresh.adds us = .ok s ∧ ¬ s.WrongTurn w := by
  constructor
  · intro h us w hp
    obtain ⟨s, hs, hst⟩ := h us ((List.prefix_append us [w]).trans hp)
    obtain ⟨s', hs', hst'⟩ := h (us ++ [w]) hp
    refine ⟨s, hs, fun hwt => ?_⟩
    have hr := ready_of_adds (fun x hx => hws x (((List.prefix_append us [w]).trans hp).subset hx)) hs
    have hw : NulFree w := hws w (hp.subset (by simp))
    rw [adds_concat, hs, ok_bind] at hs'
    obtain ⟨s'', hs'', -, hadd, hfiled⟩ := hr.stored_of_add hw (by rw [hs']; exact fun h => nomatch h)
    rw [hs', Except.ok.injEq] at hs''
    subst hs''
    -- the word is stored afterwards, so it was stored before, and is found again without a wrong turn
    rcases (hadd w).mp ((hst' w).mpr (by simp)) with hold | hnew
    · exact Trie.not_strays_of_mem (hr.stored_iff.mp hold) ((hr.wrongTurn_iff hw).mp hwt)
    · exact hfiled.mp hnew.symm hwt
  · intro h us hp
    induction us using List.reverseRecOn with
    | nil => exact ⟨fresh, rfl, fun x => by simp [ready_fresh.stored_iff, Trie.empty, Trie.words, Forest.words]⟩
    | append_singleton us w ih =>
      have hp' := (List.prefix_append us [w]).trans hp
      obtain ⟨s, hs, hst⟩ := ih hp'
      obtain ⟨s₁, hs₁, hwt⟩ := h us w hp
      rw [hs, Except.ok.injEq] at hs₁
      subst hs₁
      have hr := ready_of_adds (fun x hx => hws x (hp'.subset hx)) hs
      have hexit' := adds_ne_exit hp hexit
      rw [adds_concat, hs, ok_bind] at hexit'
      obtain ⟨s', hs', -, hadd, hfiled⟩ := hr.stored_of_add (hws w (hp.subset (by simp))) hexit'
      refine ⟨s', by rw [adds_concat, hs, ok_bind, hs'], fun x => ?_⟩
      rw [hadd, hst, hfiled.mpr hwt, List.mem_append, List.mem_singleton]

theorem stored_adds_iff_ab_ac : (∀ us, us <+: [ascii "ab", ascii "ac"] → ∃ s, fresh.adds us = .ok s ∧ ∀ x, s.Stored x ↔ x ∈ us) ↔
    ∀ us w, us ++ [w] <+: [ascii "ab", ascii "ac"] → ∃ s, fresh.adds us = .ok s ∧ ¬ s.WrongTurn w := by
  obtain ⟨s, hs, -⟩ := adds_of_isOk [ascii "ab", ascii "ac"] (by decide) (by decide +kernel)
  exact stored_adds_iff (by decide) (by rw [hs]; exact fun h => nomatch h)

/-- `abx` is filed as `abcx`. -/
theorem not_stored_abx : ∃ s, fresh.adds [ascii "abc", ascii "abcx", ascii "abx"] = .ok s ∧ ¬ s.Stored (ascii "abx") := by
  obtain ⟨s, hs, hr⟩ := adds_of_isOk [ascii "abc", ascii "abcx", ascii "abx"] (by decide) (by decide +kernel)
  refine ⟨s, hs, ?_⟩
  rw [hr.stored_iff]
  decide +kernel

end SearchT

end InfixSearch
