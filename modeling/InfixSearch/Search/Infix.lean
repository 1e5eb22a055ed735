import InfixSearch.Search.Answers
import InfixSearch.Search.Straight

/-!
# Searching a list of words

`load` adds a list of words and indexes the trie once. When `find_path` then answers a
key with the words that contain it is said in `findPath_iff`, for lists that are added
without a wrong turn, and when it answers a word of the list with that word alone in
`findPath_self_iff`. Neither holds of every list: a word can be filed under another
(`not_stored_abx`), a leaf node hides the words that go on from it, and a word that ends
where others go on is found along with them.
-/

namespace InfixSearch

open Library

namespace SearchT

/-- The words of a list, added one after the other, and indexed once. -/
def load (ws : List Str) : Except Fault (SearchT Node2T) := do (← fresh.adds ws).indexHead

section Heap

variable {N : Type} [NodeT N] (s : SearchT N)

/-- A leaf node spells `w`, with an occurrence of the key at whose end no leaf node
above ends. -/
def Visible (key w : Str) : Prop := ∃ l p, s.StoredAt l w ∧ key <+: w.drop p ∧ ¬ s.CutAt l w (p + key.length)

/-- The key can be read from position `i` in the tail of `p` on: a leaf node at or below
`p` spells a word with the key at that place. -/
def ReadAt (key : Str) (p : Ptr) (i : ℕ) : Prop :=
  ∃ x t l w, s.Spells p x ∧ s.heap.getTail p = .ok t ∧ Relation.ReflTransGen s.Child p l ∧ s.StoredAt l w ∧
    key <+: (sentinel :: w).drop (x.length - t.length + i)

/-- The key is the word of a leaf node with a tail, and the first entry of `tpm` under its
first two characters that it can be read from is the start of a child of the head. -/
def ReadFirst (key : Str) : Prop :=
  (∃ l t, s.StoredAt l key ∧ s.heap.getTail l = .ok t ∧ t ≠ []) ∧
    ∃ l₁ c l₂, s.tpm.at (key.headD 0, key.tail.headD 0) = l₁ ++ (c, 0) :: l₂ ∧ (∃ h, s.head = some h ∧ s.Child h c) ∧
      ∀ e ∈ l₁, ¬ s.ReadAt key e.1 e.2.toInt.toNat

end Heap

variable {s : SearchT Node2T} {T : Trie}

/-- What `load` returns holds the trie of the list. -/
theorem indexed_of_load {ws : List Str} (hws : ∀ w ∈ ws, NulFree w) (hs : load ws = .ok s) :
    s.Indexed (Trie.empty.adds ws) := by
  rw [load, bind_eq_ok] at hs
  obtain ⟨s₀, hs₀, hs⟩ := hs
  rcases eq_or_ne ws [] with rfl | hne
  · -- with no word there is no head to index
    obtain rfl : fresh = s₀ := Except.ok.inj hs₀
    rw [indexHead_empty rfl] at hs
    cases hs
  · exact (ready_fresh.holds_of_adds hne hws hs₀).indexed (others_of_adds hws hs₀).tpm hs

/-- A list can be loaded if it is not empty and no call of `add` exits. -/
theorem load_ok_iff {ws : List Str} (hws : ∀ w ∈ ws, NulFree w) :
    (∃ s, load ws = .ok s) ↔ ws ≠ [] ∧ Trie.empty.Rooms ws := by
  constructor
  · rintro ⟨s, hs⟩
    rw [load, bind_eq_ok] at hs
    obtain ⟨s₀, hs₀, hs⟩ := hs
    refine ⟨?_, ?_⟩
    · rintro rfl
      obtain rfl : fresh = s₀ := Except.ok.inj hs₀
      rw [indexHead_empty rfl] at hs
      cases hs
    · by_contra hr
      rw [adds_exit ready_fresh hws hr] at hs₀
      cases hs₀
  · rintro ⟨hne, hr⟩
    obtain ⟨s₀, hs₀, -⟩ := adds_eq ready_fresh hws hr
    obtain ⟨-, s, hs, -⟩ := indexed_of_adds hws hne hs₀
    exact ⟨s, by rw [load, hs₀, ok_bind, hs]⟩

theorem tailsLe_of_short {ws : List Str} (hshort : ∀ w ∈ ws, w.length ≤ 98) :
    (Trie.empty.adds ws).forest.TailsLe 128 :=
  Trie.tailsLe_adds (T := Trie.empty) trivial fun w hw => (hshort w hw).trans (by omega)

/-! ### Answers with the words that contain the key -/

theorem Indexed.visible_iff (h : s.Indexed T) {key w : Str} (hne : key ≠ []) :
    s.Visible key w ↔ w ∈ (T.forest.leaves [] []).flatMap (Forest.copies key 0) := by
  obtain ⟨ls, -, hls, hflat⟩ := h.holds.exists_leaves hne
  rw [← hflat, List.mem_flatMap]
  constructor
  · rintro ⟨l, p, hl, hp, hcut⟩
    refine ⟨(l, w), (hls l w).mpr hl, List.mem_map.mpr ⟨p, List.mem_filter.mpr ⟨List.mem_range.mpr ?_, ?_⟩, rfl⟩⟩
    · have h₁ := hp.length_le
      have h₂ := List.length_pos_iff.mpr hne
      rw [List.length_drop] at h₁
      exact Nat.lt_of_sub_pos (h₂.trans_le h₁)
    · simpa using ⟨hp, hcut⟩
  · rintro ⟨⟨l, w'⟩, hl, hw⟩
    obtain ⟨p, hp, rfl⟩ := List.mem_map.mp hw
    have := (List.mem_filter.mp hp).2
    simp only [decide_eq_true_eq] at this
    exact ⟨l, p, (hls l w').mp hl, this.1, this.2⟩

/-- A key that is stored is visible. -/
theorem Indexed.visible_self (h : s.Indexed T) {key : Str} (hne : key ≠ []) (hw : key ∈ T.forest.words []) :
    s.Visible key key := by
  rw [h.visible_iff hne, Forest.mem_copies_iff T.wf h.holds.owns.nodup_forest.2 hne]
  exact ⟨hw, 0, List.prefix_rfl, fun hlt => absurd hlt (by simp)⟩

/-- Where no call took a wrong turn, a key is visible in the words of the list that are not hidden. -/
theorem Indexed.visible_iff_hidden {ws : List Str} (h : s.Indexed (Trie.empty.adds ws)) (hst : Trie.Straight ws)
    {key w : Str} (hne : key ≠ []) : s.Visible key w ↔ w ∈ ws ∧ ¬ Hidden ws key w := by
  have hpos := List.length_pos_iff.mpr hne
  rw [h.visible_iff hne, Forest.mem_copies_iff (Trie.empty.adds ws).wf h.holds.owns.nodup_forest.2 hne]
  unfold Hidden
  simp only [not_forall, not_and, exists_prop]
  rcases eq_or_ne w [] with rfl | hw
  · simp [hne]
  · rw [Trie.mem_forest_words hw, hst.mem_words]
    refine and_congr_right fun _ => exists_congr fun p => and_congr_right fun _ => forall_congr' fun hlt => ?_
    -- the key is not empty, so neither is what ends with it
    rw [hst.stops_iff (List.ne_nil_of_length_pos (by rw [List.length_take]; omega))]

/-- The answers from all positions show the key. -/
theorem Indexed.visible_iff_answers (h : s.Indexed T) {a b : Byte} {key w : Str} (ha : a ≠ sentinel) :
    s.Visible (a :: b :: key) w ↔
      w ∈ (Forest.selected a (some b) T.starts).flatMap (Forest.Start.answers (a :: b :: key)) := by
  have hup : T.headStart.rest.head? ≠ some a := fun he => ha (Option.some.inj he).symm
  rw [h.visible_iff (by simp)]
  exact (Forest.answers_perm T.wf hup).mem_iff.symm

/-- The key is in a word that shows it. -/
theorem Visible.isInfix {key w : Str} (h : s.Visible key w) : key <:+: w := by
  obtain ⟨l, p, -, hp, -⟩ := h
  exact hp.isInfix.trans (List.drop_suffix p w).isInfix

/-- `find_path` answers with the words of the list that contain the key if and only if the list
can be loaded, every word that shows the key is a word of the list, and every word of the
list that contains the key shows it. -/
theorem findPath_iff_visible {ws : List Str} (hws : ∀ w ∈ ws, NulFree w) (hshort : ∀ w ∈ ws, w.length ≤ 98) {key : Str}
    (hkey : NulFree key) (hlen : 2 ≤ key.length) (hstar : key.head? ≠ some sentinel) (hmem : key ∉ ws)
    (foundKeys : List Str) :
    (∃ s found, load ws = .ok s ∧ s.findPath key foundKeys = .ok (foundKeys ++ found) ∧
      ∀ x, x ∈ found ↔ x ∈ findInFile key ws) ↔
    ∃ s, load ws = .ok s ∧ (∀ w, s.Visible key w → w ∈ ws) ∧ ∀ w ∈ ws, key <:+: w → s.Visible key w := by
  obtain ⟨a, b, key, rfl⟩ := exists_cons_cons hlen
  have hne : a :: b :: key ≠ [] := by simp
  have ha : a ≠ sentinel := fun he => hstar (by rw [he]; rfl)
  have hfile : ∀ x, x ∈ findInFile (a :: b :: key) ws ↔ x ∈ ws ∧ a :: b :: key <:+: x := fun x => by
    simp [findInFile]
  have ht := tailsLe_of_short hshort
  constructor
  · rintro ⟨s, found, hs, hfound, hall⟩
    have h := indexed_of_load hws hs
    obtain ⟨-, hr⟩ := h.eq_of_findPath ht hkey hfound
    rw [List.append_cancel_left_eq] at hr
    subst hr
    rcases Forest.visited_cases (a :: b :: key) (Forest.selected a (some b) (Trie.empty.adds ws).starts) with
      ⟨hv, -⟩ | ⟨l₁, st, l₂, -, hv, -, hex⟩
    · rw [List.head?_cons, hv] at hall
      simp only [← h.visible_iff_answers ha, hfile] at hall
      exact ⟨s, hs, fun w hw => ((hall w).mp hw).1, fun w hw hin => (hall w).mpr ⟨hw, hin⟩⟩
    · -- an exact position would answer with the key itself
      have hin := (hall (a :: b :: key)).mp (by
        rw [List.head?_cons, hv, List.flatMap_append, List.flatMap_singleton, Forest.Start.answers_of_exact hex]
        simp)
      exact absurd ((hfile _).mp hin).1 hmem
  · rintro ⟨s, hs, hsub, hsup⟩
    have h := indexed_of_load hws hs
    have htails : ∀ L ∈ (Trie.empty.adds ws).forest.sites [], L.word = a :: b :: key → L.leaf = true → L.tail = [] := by
      intro L hL hword hl
      by_contra
      exact hmem (hsub _ (h.visible_self hne (Forest.mem_words_iff_site.mpr ⟨L, hL, hl, hword⟩)))
    have hfit : ∀ st ∈ Forest.selected a (some b) (Trie.empty.adds ws).starts, Fits (a :: b :: key) st := by
      intro st hst
      obtain ⟨e, he, rfl, -⟩ := Forest.exists_of_mem_selected hst
      refine (h.locates ht he).fits hne fun x hx => ?_
      have := hshort x (hsub x ((h.visible_iff_answers ha).mpr (List.mem_flatMap.mpr ⟨_, hst, hx⟩)))
      omega
    obtain ⟨found, hfound, hperm⟩ :=
      h.findPathFound_perm ht hkey ha (exact_eq_false hne hstar htails) hfit foundKeys
    refine ⟨s, found, hs, by rw [findPath, hfound, map_ok], fun x => ?_⟩
    rw [hperm.mem_iff, ← h.visible_iff hne, hfile]
    exact ⟨fun hx => ⟨hsub x hx, hx.isInfix⟩, fun hx => hsup x hx.1 hx.2⟩

/-- **When the search is exact.** For a key of two bytes and more, that does not begin with
`*` and is not a word of the list, and a list that is added without a wrong turn, `find_path`
answers with the words of the list that contain the key if and only if the list is not empty,
no node gets more children than it has room for, and no word with the key is hidden. -/
theorem findPath_iff {ws : List Str} (hws : ∀ w ∈ ws, NulFree w) (hshort : ∀ w ∈ ws, w.length ≤ 98)
    (hturn : ∀ us w s, us ++ [w] <+: ws → fresh.adds us = .ok s → ¬ s.WrongTurn w) {key : Str}
    (hkey : NulFree key) (hlen : 2 ≤ key.length) (hstar : key.head? ≠ some sentinel) (hmem : key ∉ ws)
    (foundKeys : List Str) :
    (∃ s found, load ws = .ok s ∧ s.findPath key foundKeys = .ok (foundKeys ++ found) ∧
      ∀ x, x ∈ found ↔ x ∈ findInFile key ws) ↔
    ws ≠ [] ∧ Roomy ws ∧ ∀ w ∈ ws, key <:+: w → ¬ Hidden ws key w := by
  have hne : key ≠ [] := fun h0 => by simp [h0] at hlen
  rw [findPath_iff_visible hws hshort hkey hlen hstar hmem]
  constructor
  · rintro ⟨s, hs, -, hsup⟩
    obtain ⟨hws₀, hrooms⟩ := (load_ok_iff hws).mp ⟨s, hs⟩
    have hst := straight_of_run hws (.inl hrooms) hturn
    have h := indexed_of_load hws hs
    exact ⟨hws₀, hst.rooms_iff.mp hrooms, fun w hw hin => ((h.visible_iff_hidden hst hne).mp (hsup w hw hin)).2⟩
  · rintro ⟨hws₀, hroomy, hall⟩
    have hst := straight_of_run hws (.inr hroomy) hturn
    obtain ⟨s, hs⟩ := (load_ok_iff hws).mpr ⟨hws₀, hst.rooms_iff.mpr hroomy⟩
    have h := indexed_of_load hws hs
    exact ⟨s, hs, fun w hw => ((h.visible_iff_hidden hst hne).mp hw).1,
      fun w hw hin => (h.visible_iff_hidden hst hne).mpr ⟨hw, hall w hw hin⟩⟩

theorem findPath_iff_bc : (∃ s found, load [ascii "abc", ascii "abd"] = .ok s ∧
      s.findPath (ascii "bc") [] = .ok ([] ++ found) ∧
      ∀ x, x ∈ found ↔ x ∈ findInFile (ascii "bc") [ascii "abc", ascii "abd"]) ↔
    [ascii "abc", ascii "abd"] ≠ [] ∧ Roomy [ascii "abc", ascii "abd"] ∧
      ∀ w ∈ [ascii "abc", ascii "abd"], ascii "bc" <:+: w → ¬ Hidden [ascii "abc", ascii "abd"] (ascii "bc") w := by
  refine findPath_iff (by decide) (by decide) (fun us w s hp hs => ?_) (by decide) (by decide) (by decide) (by decide) []
  have hnul : ∀ x ∈ us ++ [w], NulFree x := fun x hx =>
    (show ∀ x ∈ [ascii "abc", ascii "abd"], NulFree x by decide) x (hp.subset hx)
  rw [(ready_of_adds (fun x hx => hnul x (List.mem_append_left _ hx)) hs).wrongTurn_iff (hnul w (by simp)),
    ← Trie.filed_eq_iff]
  -- the two calls
  rcases us with _ | ⟨u, _ | ⟨u', us⟩⟩
  · obtain ⟨rfl, -⟩ := List.cons_prefix_cons.mp hp
    decide +kernel
  · obtain ⟨rfl, hp'⟩ := List.cons_prefix_cons.mp hp
    obtain ⟨rfl, -⟩ := List.cons_prefix_cons.mp hp'
    decide +kernel
  · have := hp.length_le
    simp at this

/-- `xab` hides `xabc`, which goes on from it. -/
theorem not_findPath_iff_xab : ¬ ∃ s found, load [ascii "xab", ascii "xabc"] = .ok s ∧
    s.findPath (ascii "ab") [] = .ok found ∧ ∀ x, x ∈ found ↔ x ∈ findInFile (ascii "ab") [ascii "xab", ascii "xabc"] := by
  rintro ⟨s, found, hs, hfound, hall⟩
  have hrun : (do (← load [ascii "xab", ascii "xabc"]).findPath (ascii "ab") []) = .ok [ascii "xab"] := by decide +kernel
  rw [hs, ok_bind, hfound, Except.ok.injEq] at hrun
  subst hrun
  exact absurd ((hall (ascii "xabc")).mpr (by decide)) (by decide)

/-- `abx` is filed as `abcx`, and not found. -/
example : (do (← load [ascii "abc", ascii "abcx", ascii "abx"]).findPath (ascii "bx") []) = .ok [] := by decide +kernel

/-! ### Answers with the key alone -/

/-- A position that is selected belongs to a site. -/
theorem Indexed.selected_site (h : s.Indexed T) (ht : T.forest.TailsLe 128) {a : Byte} {b : Option Byte}
    (ha : a ≠ sentinel) {st : Forest.Start Ptr Byte} (hst : st ∈ Forest.selected a b T.starts) :
    s.Locates st ∧ ∃ S ∈ T.forest.sites [], ∃ i < S.tail.length, st = Forest.startAt S.pre S.id S.tail S.leaf S.children i := by
  obtain ⟨e, he, rfl, hhead⟩ := Forest.exists_of_mem_selected hst
  refine ⟨h.locates ht he, ?_⟩
  rcases Forest.mem_starts T.wf he with ⟨hup, -⟩ | ⟨S, hS, i, hi, hat, -⟩
  · rw [hup] at hhead
    exact absurd (Option.some.inj hhead).symm ha
  · exact ⟨S, hS, i, hi, hat⟩

/-- The words of the leaf nodes at or below a node. -/
theorem Holds.below_iff (h : s.Holds T) {S : Forest.Site Ptr Byte} (hS : S ∈ T.forest.sites []) {w : Str} :
    (∃ l, Relation.ReflTransGen s.Child S.id l ∧ s.StoredAt l w) ↔
      w ∈ (Forest.node S.id S.tail S.leaf S.children .nil).words S.pre := by
  obtain ⟨hzero, hnodup⟩ := h.owns.nodup_forest
  have htrans : ∀ {q}, Relation.TransGen s.Child S.id q ↔ q ∈ S.children.ids :=
    h.transGen_child_iff (S := { S with pre := sentinel :: S.pre }) (Trie.mem_sites_tree.mpr (.inr ⟨S, hS, rfl⟩))
  -- a leaf node of the forest, and the site it is at
  have hsite : ∀ {S' : Forest.Site Ptr Byte}, S' ∈ T.forest.sites [] → (s.StoredAt S'.id w ↔ S'.word = w ∧ S'.leaf = true) := by
    intro S' hS'
    rw [h.storedAt_iff_forest]
    constructor
    · rintro (⟨h0, -⟩ | ⟨S'', hS'', hid, hw⟩)
      · exact absurd (h0 ▸ Forest.Site.id_mem hS') hzero
      · exact Forest.site_unique hnodup hS'' hS' hid ▸ hw
    · intro hw
      exact .inr ⟨S', hS', rfl, hw⟩
  rw [Forest.mem_words_node]
  constructor
  · rintro ⟨l, hl, hw⟩
    rcases Relation.reflTransGen_iff_eq_or_transGen.mp hl with rfl | hl
    · obtain ⟨rfl, hleaf⟩ := (hsite hS).mp hw
      exact .inl ⟨hleaf, rfl⟩
    · have hm := htrans.mp hl
      rw [← Forest.map_id_sites S.word, List.mem_map] at hm
      obtain ⟨S', hS', rfl⟩ := hm
      obtain ⟨hword, hleaf⟩ := (hsite (Forest.mem_sites_trans hS hS')).mp hw
      exact .inr (.inl (Forest.mem_words_iff_site.mpr ⟨S', hS', hleaf, hword⟩))
  · rintro (⟨hleaf, rfl⟩ | hw | hw)
    · exact ⟨S.id, .refl, (hsite hS).mpr ⟨rfl, hleaf⟩⟩
    · obtain ⟨S', hS', hleaf, hword⟩ := Forest.mem_words_iff_site.mp hw
      exact ⟨S'.id, (htrans.mpr (Forest.Site.id_mem hS')).to_reflTransGen,
        (hsite (Forest.mem_sites_trans hS hS')).mpr ⟨hword, hleaf⟩⟩
    · simp [Forest.words] at hw

/-- The key can be read from a position if the search reads it there. -/
theorem Holds.readAt_iff (h : s.Holds T) {S : Forest.Site Ptr Byte} (hS : S ∈ T.forest.sites []) {i : ℕ}
    (hi : i < S.tail.length) {key : Str} (hne : key ≠ []) :
    s.ReadAt key S.id i ↔ ((Forest.startAt S.pre S.id S.tail S.leaf S.children i).tree.seek key).isSome := by
  have hS' : { S with pre := sentinel :: S.pre } ∈ T.tree.sites [] := Trie.mem_sites_tree.mpr (.inr ⟨S, hS, rfl⟩)
  have hspells : ∀ x, s.Spells S.id x ↔ x = sentinel :: S.word := by
    intro x
    rw [h.spells_iff]
    constructor
    · rintro ⟨S'', hS'', hid, rfl⟩
      rw [Forest.site_unique h.owns.nodup hS'' hS' hid]
      rfl
    · rintro rfl
      exact ⟨_, hS', rfl, rfl⟩
  have hdrop : ∀ w : Str, (sentinel :: w).drop ((sentinel :: S.word).length - S.tail.length + i) = w.drop (S.pre.length + i) := by
    intro w
    have hlen : (sentinel :: S.word).length - S.tail.length + i = S.pre.length + i + 1 := by
      rw [List.length_cons, Forest.Site.word, List.length_append]
      omega
    rw [hlen, List.drop_succ_cons]
  have htail := h.getTail hS'
  have hwf := Forest.startAt_wf T.wf hS hi
  rw [Forest.seek_isSome_iff hwf hne]
  have hwords := Forest.words_startAt S i
  constructor
  · rintro ⟨x, t, l, w, hx, ht, hl, hw, hp⟩
    rw [htail, Except.ok.injEq] at ht
    rw [(hspells x).mp hx, ← ht, hdrop] at hp
    have hm := (h.below_iff hS).mp ⟨l, hl, hw⟩
    rw [hwords, List.mem_map] at hm
    obtain ⟨y, hy, rfl⟩ := hm
    exact ⟨y, hy, by simpa [hi.le] using hp⟩
  · rintro ⟨y, hy, hp⟩
    obtain ⟨l, hl, hw⟩ := (h.below_iff hS).mpr (by rw [hwords]; exact List.mem_map_of_mem hy)
    refine ⟨_, _, l, _, (hspells _).mpr rfl, htail, hl, hw, ?_⟩
    rw [hdrop]
    simpa [hi.le] using hp

/-- An entry that is not read has no answers. -/
theorem answers_eq_nil {key : Str} {st : Forest.Start Ptr Byte} (h : st.tree.seek key = none) :
    st.answers key = [] ∧ st.exact key = false ∧ Fits key st := by
  refine ⟨by rw [Forest.Start.answers, Forest.found, h]; rfl, by rw [Forest.Start.exact, h], fun hit hseek => ?_⟩
  rw [h] at hseek
  cases hseek

/-- A position that is selected is read from, or not. -/
theorem Indexed.readAt_startVal (h : s.Indexed T) (ht : T.forest.TailsLe 128) {a : Byte} {b : Option Byte}
    (ha : a ≠ sentinel) {st : Forest.Start Ptr Byte} (hst : st ∈ Forest.selected a b T.starts) {key : Str}
    (hne : key ≠ []) :
    s.ReadAt key (startVal st).1 (startVal st).2.toInt.toNat ↔ (st.tree.seek key).isSome := by
  obtain ⟨hloc, S, hS, i, hi, rfl⟩ := h.selected_site ht ha hst
  have hidx := hloc.idx
  rw [startVal, hidx]
  exact h.holds.readAt_iff hS hi hne

/-- The start of a child of the head reads the word of a leaf node with a tail to its end. -/
theorem Indexed.exact_of_child (h : s.Indexed T) (ht : T.forest.TailsLe 128) {a : Byte} {b : Option Byte}
    (ha : a ≠ sentinel) {st : Forest.Start Ptr Byte} (hst : st ∈ Forest.selected a b T.starts) {key : Str}
    (hroot : (startVal st).1 ∈ T.forest.roots) (hzero : (startVal st).2 = 0) {L : Forest.Site Ptr Byte}
    (hL : L ∈ T.forest.sites []) (hword : L.word = a :: key) (hleaf : L.leaf = true) (htail : L.tail ≠ []) :
    st.exact (a :: key) = true := by
  obtain ⟨hloc, S, hS, i, hi, rfl⟩ := h.selected_site ht ha hst
  obtain ⟨-, -, -, hhead⟩ := Forest.exists_of_mem_selected hst
  have hi0 : i = 0 := by
    have hidx := hloc.idx
    have hzero' : narrow (Forest.startAt S.pre S.id S.tail S.leaf S.children i).idx = 0 := hzero
    rw [hzero'] at hidx
    exact (Int.ofNat_inj.mp hidx).symm
  subst hi0
  -- the child is at the site of the forest with its name
  obtain ⟨S₁, hS₁, hid, hpre⟩ := Forest.exists_site_of_mem_roots (u := []) hroot
  obtain rfl := Forest.site_unique h.holds.owns.nodup_forest.2 hS₁ hS hid
  have hseek := (Forest.seek_of_site T.wf hL htail).2
  have hhead' : S₁.tail.head? = (a :: key).head? := hhead
  rw [hword, List.length_nil, List.drop_zero, (Forest.seek_of_root T.wf hS₁ hpre hhead').2] at hseek
  have htree : (Forest.startAt S₁.pre S₁.id S₁.tail S₁.leaf S₁.children 0).tree =
      .node S₁.id S₁.tail S₁.leaf S₁.children .nil := rfl
  rw [Forest.Start.exact, htree, hseek]
  simp [Forest.Hit.exact, Forest.startAt, hleaf, hpre]

/-- An exact position fits. -/
theorem fits_of_exact {key : Str} {st : Forest.Start Ptr Byte} (h : st.exact key = true) : Fits key st := by
  intro hit hseek
  rw [Forest.Start.exact, hseek] at h
  simp only [Bool.and_eq_true, List.isEmpty_iff] at h
  rw [h.1, h.2]
  exact ⟨by decide, fun h0 => absurd h0 (by decide)⟩

/-- The key is read first at an exact position. -/
theorem Indexed.readFirst_iff (h : s.Indexed T) (ht : T.forest.TailsLe 128) {a b : Byte} {key : Str} (ha : a ≠ sentinel)
    (hb : some b ≠ some 0) :
    s.ReadFirst (a :: b :: key) ↔ ∃ l₁ st l₂, Forest.selected a (some b) T.starts = l₁ ++ st :: l₂ ∧
      st.exact (a :: b :: key) = true ∧ ∀ st' ∈ l₁, st'.tree.seek (a :: b :: key) = none := by
  have hne : a :: b :: key ≠ [] := by simp
  have hstar : (a :: b :: key).head? ≠ some sentinel := fun he => ha (Option.some.inj he)
  have hat : s.tpm.at (a, b) = (Forest.selected a (some b) T.starts).map startVal := h.at_eq hb
  rw [ReadFirst, List.headD_cons, List.tail_cons, List.headD_cons, hat]
  constructor
  · rintro ⟨⟨l, t, hl, htl, htne⟩, l₁, c, l₂, hat', ⟨q, hq, hchild⟩, hread⟩
    obtain ⟨L₁, L₂', hsel, rfl, h₂⟩ := List.map_eq_append_iff.mp hat'
    obtain ⟨st, L₂, rfl, hst, -⟩ := List.map_eq_cons_iff.mp h₂
    have hmem : ∀ st' ∈ L₁ ++ st :: L₂, st' ∈ Forest.selected a (some b) T.starts := by
      rw [hsel]
      exact fun _ h => h
    refine ⟨L₁, st, L₂, hsel, ?_, fun st' hst' => ?_⟩
    · obtain ⟨L, hL, rfl, hword, hleaf⟩ := (h.holds.storedAt_iff_forest.mp hl).resolve_left fun hk => hne hk.2.1
      have htail := h.holds.getTail (Trie.mem_sites_tree.mpr (.inr ⟨L, hL, rfl⟩))
      rw [htl, Except.ok.injEq] at htail
      rw [h.holds.head, Option.some.injEq] at hq
      subst hq
      have hroot := (h.holds.child_iff (Trie.head_mem_sites _)).mp hchild
      exact h.exact_of_child ht ha (hmem st (by simp)) (by rw [hst]; exact hroot) (by rw [hst]) hL hword hleaf
        fun h0 => htne (htail.trans h0)
    · have hno := hread _ (List.mem_map_of_mem hst')
      rw [h.readAt_startVal ht ha (hmem st' (List.mem_append_left _ hst')) hne] at hno
      simpa using hno
  · rintro ⟨l₁, st, l₂, hsel, hex, hnone⟩
    have hmem : ∀ st' ∈ l₁ ++ st :: l₂, st' ∈ Forest.selected a (some b) T.starts := by
      rw [hsel]
      exact fun _ h => h
    obtain ⟨e, he, rfl, -⟩ := Forest.exists_of_mem_selected (hmem st (by simp))
    obtain ⟨⟨S, hS, hroot, hst⟩, L, hL, hword, hl, htail⟩ := site_of_exact hne hstar he hex
    have hget := h.holds.getTail (Trie.mem_sites_tree.mpr (.inr ⟨L, hL, rfl⟩))
    refine ⟨⟨L.id, L.tail, h.holds.storedAt_iff_forest.mpr (.inr ⟨L, hL, rfl, hword, hl⟩), hget, htail⟩,
      l₁.map startVal, S.id, l₂.map startVal, ?_, ⟨0, h.holds.head, (h.holds.child_iff (Trie.head_mem_sites _)).mpr hroot⟩,
      fun e' he' => ?_⟩
    · rw [hsel, List.map_append, List.map_cons, hst]
      rfl
    · obtain ⟨st', hst', rfl⟩ := List.mem_map.mp he'
      rw [h.readAt_startVal ht ha (hmem st' (List.mem_append_left _ hst')) hne, hnone st' hst']
      exact Bool.false_ne_true

/-- If the key is the only answer, the first position that reads it is exact. -/
theorem Indexed.exists_first_exact (h : s.Indexed T) (ht : T.forest.TailsLe 128) {a : Byte} {b : Option Byte}
    (ha : a ≠ sentinel) {key : Str} (hne : key ≠ [])
    (hself : (Forest.visited key (Forest.selected a b T.starts)).flatMap (Forest.Start.answers key) = [key]) :
    ∃ l₁ st l₂, Forest.selected a b T.starts = l₁ ++ st :: l₂ ∧ st.exact key = true ∧ ∀ st' ∈ l₁, st'.tree.seek key = none := by
  rcases Forest.visited_cases key (Forest.selected a b T.starts) with ⟨hv, hno⟩ | ⟨l₁, st, l₂, hsel, hv, -, hex⟩
  · -- whoever answers with the key alone is exact
    rw [hv] at hself
    have hkey : key ∈ (Forest.selected a b T.starts).flatMap (Forest.Start.answers key) :=
      by rw [hself]; exact List.mem_cons_self
    obtain ⟨st, hst, hmem⟩ := List.mem_flatMap.mp hkey
    obtain ⟨-, S, hS, i, hi, rfl⟩ := h.selected_site ht ha hst
    have hex := Forest.Start.exact_of_answers (Forest.startAt_wf T.wf hS hi) hne hmem fun x hx => by
      have hm := List.mem_flatMap.mpr ⟨_, hst, hx⟩
      rw [hself] at hm
      exact List.mem_singleton.mp hm
    rw [hno _ hst] at hex
    cases hex
  · rw [hv, List.flatMap_append, List.flatMap_singleton, Forest.Start.answers_of_exact hex] at hself
    have hnil : l₁.flatMap (Forest.Start.answers key) = [] := by simpa using hself
    refine ⟨l₁, st, l₂, hsel, hex, fun st' hst' => ?_⟩
    by_contra hsome
    obtain ⟨hit, hseek⟩ := Option.ne_none_iff_exists'.mp hsome
    have hsel' : st' ∈ Forest.selected a b T.starts := by
      rw [hsel]
      exact List.mem_append_left _ hst'
    obtain ⟨y, hy⟩ := (h.selected_site ht ha hsel').1.exists_suffix hne hseek
    have hmem := Forest.Start.mem_answers.mpr ⟨hit, hseek, y, hy, rfl⟩
    rw [List.flatMap_eq_nil_iff.mp hnil st' hst'] at hmem
    cases hmem

/-- Where the first position that reads the key is exact, the key is the only answer. -/
theorem Indexed.findPath_of_first_exact (h : s.Indexed T) (ht : T.forest.TailsLe 128) {a : Byte} {key : Str}
    (hkey : NulFree (a :: key)) {l₁ l₂ : List (Forest.Start Ptr Byte)} {st : Forest.Start Ptr Byte}
    (hsel : Forest.selected a key.head? T.starts = l₁ ++ st :: l₂) (hex : st.exact (a :: key) = true)
    (hnone : ∀ st' ∈ l₁, st'.tree.seek (a :: key) = none) : s.findPath (a :: key) [] = .ok [a :: key] := by
  have hv : Forest.visited (a :: key) (l₁ ++ st :: l₂) = l₁ ++ [st] :=
    Forest.visited_append_cons (fun st' hst' => (answers_eq_nil (hnone st' hst')).2.1) hex
  have hok := (h.findPathFound_eq ht hkey []).1
  rw [hsel, hv] at hok
  rw [findPath, hok ?_, map_ok, List.flatMap_append, List.flatMap_singleton, Forest.Start.answers_of_exact hex,
    List.flatMap_eq_nil_iff.mpr fun st' hst' => (answers_eq_nil (hnone st' hst')).1]
  · rfl
  · intro st' hst'
    rcases List.mem_append.mp hst' with hst' | hst'
    · exact (answers_eq_nil (hnone st' hst')).2.2
    · rw [List.mem_singleton.mp hst']
      exact fits_of_exact hex

/-- **When an exact match is unique.** For a key of two bytes and more that does not begin
with `*`, `find_path` finds the key alone if and only if the list can be loaded, the key is
the word of a leaf node with a tail, and no entry of `tpm` before the start of that word
reads the key. -/
theorem findPath_self_iff {ws : List Str} (hws : ∀ w ∈ ws, NulFree w) (hshort : ∀ w ∈ ws, w.length ≤ 98) {key : Str}
    (hkey : NulFree key) (hlen : 2 ≤ key.length) (hstar : key.head? ≠ some sentinel) :
    (∃ s, load ws = .ok s ∧ s.findPath key [] = .ok [key]) ↔ ∃ s, load ws = .ok s ∧ s.ReadFirst key := by
  obtain ⟨a, b, key, rfl⟩ := exists_cons_cons hlen
  have ha : a ≠ sentinel := fun he => hstar (by rw [he]; rfl)
  have hb : some b ≠ some 0 := by
    intro h0
    rw [Option.some.inj h0, nulFree_cons, nulFree_cons] at hkey
    exact hkey.2.1 rfl
  have ht := tailsLe_of_short hshort
  refine exists_congr fun s => and_congr_right fun hs => ?_
  have h := indexed_of_load hws hs
  rw [h.readFirst_iff ht ha hb]
  constructor
  · intro hfound
    obtain ⟨-, hr⟩ := h.eq_of_findPath ht hkey hfound
    exact h.exists_first_exact ht ha (by simp) hr.symm
  · rintro ⟨l₁, st, l₂, hsel, hex, hnone⟩
    exact h.findPath_of_first_exact ht hkey hsel hex hnone

theorem findPath_self_iff_ab :
    (∃ s, load [ascii "ab", ascii "abc"] = .ok s ∧ s.findPath (ascii "ab") [] = .ok [ascii "ab"]) ↔
    ∃ s, load [ascii "ab", ascii "abc"] = .ok s ∧ s.ReadFirst (ascii "ab") :=
  findPath_self_iff (by decide) (by decide) (by decide) (by decide) (by decide)

/-- In the other order `ab` ends at a node without a leaf, and `abc` is found with it. -/
theorem not_findPath_self_ab : [ascii "abc", ascii "ab"].Nodup ∧ ascii "ab" ∈ [ascii "abc", ascii "ab"] ∧
    ¬ ∃ s, load [ascii "abc", ascii "ab"] = .ok s ∧ s.findPath (ascii "ab") [] = .ok [ascii "ab"] := by
  refine ⟨by decide, by decide, ?_⟩
  rintro ⟨s, hs, hfound⟩
  have hrun : (do (← load [ascii "abc", ascii "ab"]).findPath (ascii "ab") []) = .ok [ascii "abc", ascii "ab"] := by
    decide +kernel
  rw [hs, ok_bind, hfound] at hrun
  exact absurd (Except.ok.inj hrun) (by decide)

end SearchT

end InfixSearch
