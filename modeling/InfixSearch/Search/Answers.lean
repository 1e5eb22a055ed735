import InfixSearch.Search.Finding

/-!
# The answers of a search

What `find_path` answers is stated here in terms of the leaf nodes of the trie it runs
on: an occurrence of the key in the word of a leaf node is answered with that word,
unless a leaf node above ends right where the occurrence does (`CutAt`). For keys that
no leaf node with a tail spells this is all (`findPath_perm`). Every answer, for any
key, is a stored word with the key in it, or, for keys that begin with `*`, a stored
word behind a `*` (`findPath_sound`).
-/

namespace InfixSearch

open Library

namespace SearchT

/-! ### Occurrences -/

section Heap

variable {N : Type} [NodeT N] (s : SearchT N)

/-- A leaf node above `l` spells the first `n` characters of `w`. -/
def CutAt (l : Ptr) (w : Str) (n : ℕ) : Prop := ∃ a, Relation.TransGen s.Child a l ∧ s.StoredAt a (w.take n)

open Classical in
/-- One copy of `w`, the word of `l`, for each offset at which the key occurs in it and
is not cut off. -/
noncomputable def copiesAt (key : Str) (l : Ptr) (w : Str) : List Str :=
  ((List.range w.length).filter fun p => key <+: w.drop p ∧ ¬ s.CutAt l w (p + key.length)).map fun _ => w

end Heap

variable {s : SearchT Node2T} {T : Trie}

/-- Below a leaf of the forest is cut off where a leaf node above it ends. -/
theorem Holds.cutAt_iff (h : s.Holds T) {e : Forest.Ending Ptr Byte} (he : e ∈ T.forest.leaves [] []) {n : ℕ}
    (hn : 0 < n) (hle : n ≤ e.word.length) : s.CutAt e.id e.word n ↔ n ∈ e.cuts := by
  have hbelow : ∀ S ∈ T.forest.sites [], Relation.TransGen s.Child S.id e.id ↔ e.id ∈ S.children.ids := fun S hS =>
    h.transGen_child_iff (S := { S with pre := sentinel :: S.pre }) (Trie.mem_sites_tree.mpr (.inr ⟨S, hS, rfl⟩))
  rw [Forest.mem_cuts_iff h.owns.nodup_forest.2 he]
  constructor
  · rintro ⟨a, hup, ha⟩
    rcases h.storedAt_iff_forest.mp ha with ⟨-, hw, -⟩ | ⟨S, hS, rfl, hw, hl⟩
    · have := congrArg List.length hw
      rw [List.length_take, List.length_nil] at this
      omega
    · refine .inr ⟨S, hS, hl, (hbelow S hS).mp hup, hw ▸ List.take_prefix n e.word, ?_⟩
      rw [hw, List.length_take]
      omega
  · rintro (h0 | ⟨S, hS, hl, hm, hp, rfl⟩)
    · simp at h0
    · exact ⟨S.id, (hbelow S hS).mpr hm, h.storedAt_iff_forest.mpr (.inr ⟨S, hS, rfl, List.prefix_iff_eq_take.mp hp, hl⟩)⟩

theorem Holds.copiesAt_eq (h : s.Holds T) {e : Forest.Ending Ptr Byte} (he : e ∈ T.forest.leaves [] []) {key : Str}
    (hne : key ≠ []) : s.copiesAt key e.id e.word = Forest.copies key 0 e := by
  have hpos := List.length_pos_iff.mpr hne
  have hshown : ∀ p, (key <+: e.word.drop p ∧ ¬ s.CutAt e.id e.word (p + key.length)) ↔ Forest.Shown key e p := by
    refine fun p => and_congr_right fun hp => not_congr (h.cutAt_iff he (by omega) ?_)
    have := hp.length_le
    rw [List.length_drop] at this
    omega
  rw [copiesAt, Forest.copies, Nat.sub_zero]
  simp only [hshown, Nat.zero_add]
  generalize List.range e.word.length = l
  induction l with
  | nil => rfl
  | cons p l ih =>
    rw [List.filter_cons, List.flatMap_cons, ← ih]
    by_cases hp : Forest.Shown key e p <;> simp [hp]

/-- The leaf nodes of the trie with their words. -/
theorem Holds.exists_leaves (h : s.Holds T) {key : Str} (hne : key ≠ []) :
    ∃ ls : List (Ptr × Str), ls.Nodup ∧ (∀ l w, (l, w) ∈ ls ↔ s.StoredAt l w) ∧
      (ls.flatMap fun e => s.copiesAt key e.1 e.2) = (T.forest.leaves [] []).flatMap (Forest.copies key 0) := by
  obtain ⟨hzero, hnodup⟩ := h.owns.nodup_forest
  have hids := Forest.map_id_leaves_sublist [] [] T.forest
  refine ⟨(if T.leaf then [(0, [])] else []) ++ (T.forest.leaves [] []).map fun e => (e.id, e.word), ?_, fun l w => ?_, ?_⟩
  · -- the names of the nodes are different
    apply List.Nodup.of_map Prod.fst
    rw [List.map_append, List.map_map]
    have hleaves : ((T.forest.leaves [] []).map Forest.Ending.id).Nodup := hnodup.sublist hids
    cases T.leaf with
    | false => simpa [Function.comp_def] using hleaves
    | true =>
      exact List.nodup_cons.mpr ⟨fun hm => hzero (hids.subset hm), hleaves⟩
  · rw [h.storedAt_iff_forest, List.mem_append, ← Forest.mem_leaves_iff_site (A := [])]
    refine or_congr ?_ ?_
    · cases T.leaf <;> simp
    · rw [List.mem_map]
      constructor
      · rintro ⟨e, he, heq⟩
        rw [Prod.mk.injEq] at heq
        exact ⟨e.cuts, heq.1 ▸ heq.2 ▸ he⟩
      · rintro ⟨A', he⟩
        exact ⟨_, he, rfl⟩
  · rw [List.flatMap_append, List.flatMap_map]
    have hhead : (if T.leaf then [((0 : Ptr), ([] : Str))] else []).flatMap (fun e => s.copiesAt key e.1 e.2) = [] := by
      cases T.leaf <;> simp [copiesAt]
    rw [hhead, List.nil_append]
    exact List.flatMap_congr fun e he => h.copiesAt_eq he hne

/-! ### Answers from one position -/

/-- What can be read from a position of a site is a word of the forest. -/
theorem append_mem_words {S : Forest.Site Ptr Byte} (hS : S ∈ T.forest.sites []) (i : ℕ) {y : Str}
    (hy : y ∈ (Forest.startAt S.pre S.id S.tail S.leaf S.children i).tree.words []) :
    (Forest.startAt S.pre S.id S.tail S.leaf S.children i).pre ++ y ∈ T.forest.words [] := by
  have hword : S.pre ++ S.tail.take i ++ S.tail.drop i = S.word := by
    rw [List.append_assoc, List.take_append_drop, Forest.Site.word]
  have hw := List.mem_map_of_mem (f := fun x => S.pre ++ S.tail.take i ++ x) hy
  rw [← Forest.words_append, List.append_nil, Forest.Start.tree, Forest.startAt, Forest.mem_words_node, hword] at hw
  rcases hw with ⟨hl, he⟩ | hw | hw
  · exact Forest.mem_words_iff_site.mpr ⟨S, hS, hl, he.symm⟩
  · exact Forest.mem_words_of_site hS hw
  · simp [Forest.words] at hw

/-- The answers from an entry: stored words with the key in them, from the head behind
a `*`. -/
theorem Indexed.answers_sound (h : s.Indexed T) {key x : Str} (hne : key ≠ []) {e : StartEntry} (he : e ∈ T.starts)
    (hx : x ∈ e.2.answers key) : key <:+: x ∧ (e.2.id ≠ 0 → x ∈ T.words) ∧
      (e.2.id = 0 → key.head? = some sentinel ∧ ∃ w ∈ T.words, x = sentinel :: w) := by
  obtain ⟨y, hy, hp, rfl⟩ := Forest.Start.exists_word_of_mem_answers hne hx
  refine ⟨hp.isInfix.trans (List.suffix_append e.2.pre y).isInfix, ?_⟩
  rcases Forest.mem_starts T.wf he with ⟨hst, -⟩ | ⟨S, hS, i, -, hst, -⟩
  · rw [hst] at hy ⊢
    obtain ⟨w, hw, rfl⟩ := Trie.mem_words_tree.mp (hy : y ∈ T.tree.words [])
    refine ⟨fun h0 => absurd rfl h0, fun _ => ⟨?_, w, hw, rfl⟩⟩
    obtain ⟨c, key, rfl⟩ := List.exists_cons_of_ne_nil hne
    rw [List.cons_prefix_cons] at hp
    rw [hp.1]; rfl
  · rw [hst] at hy ⊢
    refine ⟨fun _ => List.mem_append_right _ (append_mem_words hS i hy), fun h0 => absurd ?_ h.holds.owns.nodup_forest.1⟩
    have h0' : S.id = 0 := h0
    exact h0' ▸ Forest.Site.id_mem hS

/-- A hit goes on somehow. -/
theorem Locates.exists_suffix {st : Forest.Start Ptr Byte} {key : Str} {hit : Forest.Hit Ptr Byte} (h : s.Locates st)
    (hne : key ≠ []) (hseek : st.tree.seek key = some hit) : ∃ y, y ∈ hit.suffixes := by
  unfold Forest.Hit.suffixes
  split_ifs
  · exact ⟨[], by simp⟩
  · obtain ⟨w, hw, -⟩ := h.exists_word hne hseek
    rw [words_hit, List.mem_map] at hw
    obtain ⟨y, hy, -⟩ := hw
    exact ⟨y, hy⟩

/-- Short answers fit in the arrays. -/
theorem Locates.fits {st : Forest.Start Ptr Byte} {key : Str} (h : s.Locates st) (hne : key ≠ [])
    (hshort : ∀ x ∈ st.answers key, x.length < 100) : Fits key st := by
  intro hit hseek
  have hall : ∀ y ∈ hit.suffixes, (st.pre ++ key ++ y).length < 100 := fun y hy =>
    hshort _ (Forest.Start.mem_answers.mpr ⟨hit, hseek, y, hy, rfl⟩)
  obtain ⟨y₀, hy₀⟩ := h.exists_suffix hne hseek
  refine ⟨?_, fun _ y hy => ?_⟩
  · have := hall y₀ hy₀
    simp only [List.length_append] at this
    omega
  · have := hall y hy
    simp only [List.length_append] at this ⊢
    omega

/-- Where the stored words are short, so are the answers. -/
theorem Indexed.fits (h : s.Indexed T) (ht : T.forest.TailsLe 128) (hshort : ∀ w ∈ T.words, w.length ≤ 98) {key : Str}
    (hne : key ≠ []) {e : StartEntry} (he : e ∈ T.starts) : Fits key e.2 := by
  refine (h.locates ht he).fits hne fun x hx => ?_
  obtain ⟨-, hnode, hhead⟩ := h.answers_sound hne he hx
  by_cases hid : e.2.id = 0
  · obtain ⟨-, w, hw, rfl⟩ := hhead hid
    have := hshort w hw
    rw [List.length_cons]; omega
  · have := hshort x (hnode hid)
    omega

/-- A node with nothing before it is a child of the head. -/
theorem mem_roots_of_pre {S : Forest.Site Ptr Byte} (hS : S ∈ T.forest.sites []) (hp : S.pre = []) : S.id ∈ T.forest.roots := by
  rcases Forest.mem_roots_or_child hS with ⟨hr, -⟩ | ⟨P, hP, hr, hpreP⟩
  · exact hr
  · rw [hp, Forest.Site.word] at hpreP
    have htail := (List.append_eq_nil_iff.mp hpreP.symm).2
    rw [((T.wf.site hP).1 htail).2] at hr
    simp [Forest.roots] at hr

/-- A position from which the key is read as a whole word, when the key does not begin
with `*`, is the start of the tail of a child of the head, and the key is the word of a
leaf with a tail. -/
theorem site_of_exact {key : Str} (hne : key ≠ []) (hstar : key.head? ≠ some sentinel) {e : StartEntry}
    (he : e ∈ T.starts) (hex : e.2.exact key = true) :
    (∃ S ∈ T.forest.sites [], S.id ∈ T.forest.roots ∧ e.2 = Forest.startAt [] S.id S.tail S.leaf S.children 0) ∧
      ∃ L ∈ T.forest.sites [], L.word = key ∧ L.leaf = true ∧ L.tail ≠ [] := by
  unfold Forest.Start.exact at hex
  cases hseek : e.2.tree.seek key with
  | none => rw [hseek] at hex; cases hex
  | some hit =>
    rw [hseek] at hex
    simp only [Bool.and_eq_true, List.isEmpty_iff, Forest.Hit.exact] at hex
    obtain ⟨⟨hleaf, hrest⟩, hpre⟩ := hex
    rcases Forest.mem_starts T.wf he with ⟨hst, -⟩ | ⟨S, hS, i, hi, hst, -⟩
    · -- from the head only keys with a `*` are read
      rw [hst, Forest.seek_eq_none_of_notMem] at hseek
      · cases hseek
      · simpa [Forest.Start.tree, Trie.headStart, Forest.keys] using hstar
    · rw [hst] at hpre hseek
      obtain ⟨hp, hi0⟩ := List.append_eq_nil_iff.mp (hpre : S.pre ++ S.tail.take i = [])
      obtain rfl : i = 0 := by
        have := congrArg List.length hi0
        rw [List.length_take, List.length_nil] at this
        omega
      refine ⟨⟨S, hS, mem_roots_of_pre hS hp, by rw [hst, hp]⟩, ?_⟩
      obtain ⟨L, hL, -, hl, -, hword, htail⟩ := Forest.exists_site_of_seek (u := []) hne hseek
      rw [hrest, List.append_nil, List.nil_append] at hword
      rw [Forest.Start.tree, Forest.startAt, Forest.mem_sites_node] at hL
      rcases hL with rfl | hL | hL
      · exact ⟨S, hS, by rw [← hword, Forest.Site.word, Forest.Site.word, hp]; rfl, hl.trans hleaf, htail⟩
      · refine ⟨L, Forest.mem_sites_trans hS ?_, hword, hl.trans hleaf, htail⟩
        rw [Forest.Site.word, hp]
        exact hL
      · simp [Forest.sites] at hL

/-- Where only leaf nodes without a tail spell the key no position is exact. -/
theorem exact_eq_false {key : Str} (hne : key ≠ []) (hstar : key.head? ≠ some sentinel)
    (hleaf : ∀ L ∈ T.forest.sites [], L.word = key → L.leaf = true → L.tail = []) {a : Byte} {b : Option Byte} :
    ∀ st ∈ Forest.selected a b T.starts, st.exact key = false := by
  intro st hst
  obtain ⟨e, he, rfl, -⟩ := Forest.exists_of_mem_selected hst
  by_contra hex
  obtain ⟨-, L, hL, hword, hl, htail⟩ := site_of_exact hne hstar he (by simpa using hex)
  exact htail (hleaf L hL hword hl)

/-- With no exact position, `find_path` answers each leaf and each occurrence of the key in
its word that is not cut off. -/
theorem Indexed.findPathFound_perm (h : s.Indexed T) (ht : T.forest.TailsLe 128) {a b : Byte} {key : Str}
    (hkey : NulFree (a :: b :: key)) (hstar : a ≠ sentinel)
    (hno : ∀ st ∈ Forest.selected a (some b) T.starts, st.exact (a :: b :: key) = false)
    (hfit : ∀ st ∈ Forest.selected a (some b) T.starts, Fits (a :: b :: key) st) (foundKeys : List Str) :
    ∃ found, s.findPathFound (a :: b :: key) foundKeys = .ok ⟨foundKeys ++ found, false, 0⟩ ∧
      found.Perm ((T.forest.leaves [] []).flatMap (Forest.copies (a :: b :: key) 0)) := by
  have hok := (h.findPathFound_eq ht hkey foundKeys).1
  simp only [List.head?_cons, Forest.visited_eq_self hno] at hok
  refine ⟨_, ?_, Forest.answers_perm T.wf (show T.headStart.rest.head? ≠ some a from fun heq => hstar ?_)⟩
  · rw [hok hfit]
    have hany : (Forest.selected a (some b) T.starts).any (·.exact (a :: b :: key)) = false := by
      rw [List.any_eq_false]
      intro st hst
      simp [hno st hst]
    rw [hany]
    rfl
  · exact (Option.some.inj heq).symm

/-- What `find_path` returns, it was able to put together. -/
theorem Indexed.eq_of_findPath (h : s.Indexed T) (ht : T.forest.TailsLe 128) {a : Byte} {key : Str} (hkey : NulFree (a :: key))
    {foundKeys r : List Str} (e : s.findPath (a :: key) foundKeys = .ok r) :
    (∀ st ∈ Forest.visited (a :: key) (Forest.selected a key.head? T.starts), Fits (a :: key) st) ∧
      r = foundKeys ++
        (Forest.visited (a :: key) (Forest.selected a key.head? T.starts)).flatMap (Forest.Start.answers (a :: key)) := by
  obtain ⟨hok, herr⟩ := h.findPathFound_eq ht hkey foundKeys
  unfold findPath at e
  have hfit : ∀ st ∈ Forest.visited (a :: key) (Forest.selected a key.head? T.starts), Fits (a :: key) st := by
    by_contra hfit
    simp only [not_forall, exists_prop] at hfit
    rw [herr hfit] at e
    cases e
  rw [hok hfit, map_ok, Except.ok.injEq] at e
  exact ⟨hfit, e.symm⟩

/-- Where no leaf has children a stored word is copied once for each occurrence. -/
theorem Holds.count_copies (h : s.Holds T) (hleaf : ∀ l w, s.StoredAt l w → s.heap.getChildren l = .ok []) {key w : Str}
    (hw : s.Stored w) : ((T.forest.leaves [] []).flatMap (Forest.copies key 0)).count w =
      ((List.range w.length).filter fun p => key <+: w.drop p).length := by
  have hinner : ∀ S ∈ T.forest.sites [], S.leaf = true → S.children = .nil := by
    intro S hS hl
    have hget := h.getChildren (Trie.mem_sites_tree.mpr (.inr ⟨S, hS, rfl⟩))
    rw [hleaf S.id S.word (h.storedAt_iff_forest.mpr (.inr ⟨S, hS, rfl, rfl, hl⟩)), Except.ok.injEq] at hget
    exact Forest.roots_eq_nil_iff.mp hget.symm
  by_cases hm : w ∈ T.forest.words []
  · exact Forest.count_flatMap_copies T.wf h.owns.nodup_forest.2 hinner hm
  · -- the empty word, at the head
    have hw' := h.stored_iff.mp hw
    rw [Trie.words, List.mem_append] at hw'
    have hnil := hw'.resolve_right hm
    split_ifs at hnil
    · obtain rfl := List.mem_singleton.mp hnil
      exact List.count_eq_zero.mpr fun hc => hm (Forest.mem_words_of_mem_copies hc)
    · cases hnil

theorem exists_cons_cons {key : Str} (h : 2 ≤ key.length) : ∃ a b key', key = a :: b :: key' := by
  match key, h with
  | a :: b :: key, _ => exact ⟨a, b, key, rfl⟩

/-! ### All answers -/

theorem Holds.tailsLe (h : s.Holds T) (hshort : ∀ w, s.Stored w → w.length ≤ 98) : T.forest.TailsLe 128 := by
  refine T.wf.tailsLe (u := []) fun w hw => ?_
  have := hshort w (h.stored_iff.mpr (List.mem_append_right _ hw))
  omega

/-- **The answers to a key** of two bytes and more, that does not begin with `*` and that
no leaf node with a tail spells: one copy of the word for each leaf node and each
occurrence of the key in its word, except those that a leaf node above cuts off. Where no
leaf node has children, each stored word once for each occurrence. -/
theorem findPath_perm {ws : List Str} (hws : ∀ w ∈ ws, NulFree w) (hne : ws ≠ []) {s₀ : SearchT Node2T}
    (hs₀ : fresh.adds ws = .ok s₀) (hshort : ∀ w, s₀.Stored w → w.length ≤ 98) {key : Str} (hkey : NulFree key)
    (hlen : 2 ≤ key.length) (hstar : key.head? ≠ some sentinel)
    (hleaf : ∀ l, s₀.StoredAt l key → s₀.heap.getTail l = .ok []) (foundKeys : List Str) :
    ∃ s found, s₀.indexHead = .ok s ∧ s.findPath key foundKeys = .ok (foundKeys ++ found) ∧
      (∃ ls : List (Ptr × Str), ls.Nodup ∧ (∀ l w, (l, w) ∈ ls ↔ s₀.StoredAt l w) ∧
        found.Perm (ls.flatMap fun e => s₀.copiesAt key e.1 e.2)) ∧
      ((∀ l w, s₀.StoredAt l w → s₀.heap.getChildren l = .ok []) → ∀ w, s₀.Stored w →
        found.count w = ((List.range w.length).filter fun p => key <+: w.drop p).length) := by
  obtain ⟨h₀, s, hs, h⟩ := indexed_of_adds hws hne hs₀
  have ht := h₀.tailsLe hshort
  obtain ⟨a, b, key, rfl⟩ := exists_cons_cons hlen
  have hwords : ∀ w ∈ (Trie.empty.adds ws).words, w.length ≤ 98 := fun w hw => hshort w (h₀.stored_iff.mpr hw)
  have htails : ∀ L ∈ (Trie.empty.adds ws).forest.sites [], L.word = a :: b :: key → L.leaf = true → L.tail = [] := by
    intro L hL hword hl
    have hget := h₀.getTail (Trie.mem_sites_tree.mpr (.inr ⟨L, hL, rfl⟩))
    rw [hleaf L.id (h₀.storedAt_iff_forest.mpr (.inr ⟨L, hL, rfl, hword, hl⟩)), Except.ok.injEq] at hget
    exact hget.symm
  have hfit : ∀ st ∈ Forest.selected a (some b) (Trie.empty.adds ws).starts, Fits (a :: b :: key) st := by
    intro st hst
    obtain ⟨e, he, rfl, -⟩ := Forest.exists_of_mem_selected hst
    exact h.fits ht hwords (by simp) he
  obtain ⟨found, hfound, hperm⟩ := h.findPathFound_perm ht hkey (fun he => hstar (by rw [he]; rfl))
    (exact_eq_false (by simp) hstar htails) hfit foundKeys
  refine ⟨s, found, hs, by rw [findPath, hfound, map_ok], ?_, fun hchildren w hw => ?_⟩
  · obtain ⟨ls, hnd, hmem, hflat⟩ := h₀.exists_leaves (show a :: b :: key ≠ [] by simp)
    exact ⟨ls, hnd, hmem, hflat ▸ hperm⟩
  · rw [hperm.count_eq]
    exact h₀.count_copies hchildren hw

theorem findPath_perm_bc : ∃ s₀ s found, fresh.adds [ascii "abc", ascii "abcd"] = .ok s₀ ∧ s₀.indexHead = .ok s ∧
    s.findPath (ascii "bc") [] = .ok found ∧ ∃ ls : List (Ptr × Str), ls.Nodup ∧
      (∀ l w, (l, w) ∈ ls ↔ s₀.StoredAt l w) ∧ found.Perm (ls.flatMap fun e => s₀.copiesAt (ascii "bc") e.1 e.2) := by
  obtain ⟨s₀, hs₀, hst⟩ := stored_of_isOk [ascii "abc", ascii "abcd"] (by decide) (by decide +kernel)
  have hshort : ∀ w ∈ (Trie.empty.adds [ascii "abc", ascii "abcd"]).words, w.length ≤ 98 := by decide +kernel
  have hkey : ascii "bc" ∉ (Trie.empty.adds [ascii "abc", ascii "abcd"]).words := by decide +kernel
  obtain ⟨s, found, hs, hfound, hls, -⟩ := findPath_perm (by decide) (by simp) hs₀
    (fun w hw => hshort w ((hst w).mp hw)) (show NulFree (ascii "bc") by decide) (by decide) (by decide)
    (fun l hl => absurd ((hst _).mp ⟨l, hl⟩) hkey) []
  exact ⟨s₀, s, found, hs₀, hs, hfound, hls⟩

/-- **Every answer is right**, for keys of any kind. The answers are those of the entries
of `tpm` that the loop goes through, one call of `find_path_util` each, and none of these
calls reports a match without having reached a leaf. An answer contains the key. From a
node other than the head it is a stored word; from the head, where only keys that begin
with `*` are read, it is a stored word behind a `*`. -/
theorem findPath_sound {ws : List Str} (hws : ∀ w ∈ ws, NulFree w) (hne : ws ≠ []) {s₀ : SearchT Node2T}
    (hs₀ : fresh.adds ws = .ok s₀) (hshort : ∀ w, s₀.Stored w → w.length ≤ 98) {key : Str} (hkey : NulFree key)
    (hpos : key ≠ []) (foundKeys : List Str) :
    ∃ s found, ∃ parts : List (TreePosValT × List Str), s₀.indexHead = .ok s ∧
      s.findPathFound key foundKeys = .ok found ∧ found.noSuffix = 0 ∧
      found.foundKeys = foundKeys ++ parts.flatMap Prod.snd ∧
      parts.map Prod.fst <+: s.tpm.at (key.headD 0, key.tail.headD 0) ∧
      ∀ e ∈ parts, (∃ exact, s.findPathUtil e.1 key (key.length + 1) e.1.1 e.1.2.toInt key ⟨[], false, 0⟩ =
          .ok ⟨e.2, exact, 0⟩) ∧
        ∀ x ∈ e.2, key <:+: x ∧ (s.head ≠ some e.1.1 → s₀.Stored x) ∧
          (s.head = some e.1.1 → key.head? = some sentinel ∧ ∃ w, s₀.Stored w ∧ x = sentinel :: w) := by
  obtain ⟨h₀, s, hs, h⟩ := indexed_of_adds hws hne hs₀
  have ht := h₀.tailsLe hshort
  have hwords : ∀ w ∈ (Trie.empty.adds ws).words, w.length ≤ 98 := fun w hw => hshort w (h₀.stored_iff.mpr hw)
  obtain ⟨a, key, rfl⟩ := List.exists_cons_of_ne_nil hpos
  have hvisited : ∀ st ∈ Forest.visited (a :: key) (Forest.selected a key.head? (Trie.empty.adds ws).starts),
      ∃ e ∈ (Trie.empty.adds ws).starts, e.2 = st := by
    intro st hst
    obtain ⟨e, he, hest, -⟩ := Forest.exists_of_mem_selected ((Forest.visited_prefix _ _).subset hst)
    exact ⟨e, he, hest⟩
  have hfits : ∀ st ∈ Forest.visited (a :: key) (Forest.selected a key.head? (Trie.empty.adds ws).starts),
      Fits (a :: key) st := by
    intro st hst
    obtain ⟨e, he, rfl⟩ := hvisited st hst
    exact h.fits ht hwords hpos he
  have hfound := (h.findPathFound_eq ht hkey foundKeys).1 hfits
  have hb : key.head? ≠ some 0 := fun h0 => (nulFree_cons.mp hkey).2 (List.mem_of_mem_head? h0)
  refine ⟨s, _, (Forest.visited (a :: key) (Forest.selected a key.head? (Trie.empty.adds ws).starts)).map
    fun st => (startVal st, st.answers (a :: key)), hs, hfound, rfl, ?_, ?_, ?_⟩
  · rw [List.flatMap_map]
  · have hat := h.at_eq (a := a) hb
    rw [← headD_eq_keyByte] at hat
    rw [List.map_map, List.headD_cons, List.tail_cons, hat]
    exact (Forest.visited_prefix _ _).map startVal
  · rintro e' he'
    obtain ⟨st, hst, rfl⟩ := List.mem_map.mp he'
    have hfit := hfits st hst
    obtain ⟨e, he, rfl⟩ := hvisited st hst
    refine ⟨⟨_, (findPathUtil_start (h.locates ht he) hpos hkey ⟨[], false, 0⟩ rfl).1 hfit⟩, fun x hx => ?_⟩
    obtain ⟨hin, hnode, hhead⟩ := h.answers_sound hpos he hx
    rw [h.holds.head]
    refine ⟨hin, fun hid => h₀.stored_iff.mpr (hnode fun h0 => hid ?_), fun hid => ?_⟩
    · rw [← h0]; rfl
    · obtain ⟨hstar, w, hw, hxw⟩ := hhead (Option.some.inj hid).symm
      exact ⟨hstar, w, h₀.stored_iff.mpr hw, hxw⟩

theorem findPath_sound_star : ∃ s₀ s found, fresh.adds [ascii "abc", ascii "abcd"] = .ok s₀ ∧ s₀.indexHead = .ok s ∧
    s.findPathFound (ascii "*a") [] = .ok found ∧ found.noSuffix = 0 := by
  obtain ⟨s₀, hs₀, hst⟩ := stored_of_isOk [ascii "abc", ascii "abcd"] (by decide) (by decide +kernel)
  have hshort : ∀ w ∈ (Trie.empty.adds [ascii "abc", ascii "abcd"]).words, w.length ≤ 98 := by decide +kernel
  obtain ⟨s, found, parts, hs, hfound, hno, -⟩ := findPath_sound (by decide) (by simp) hs₀
    (fun w hw => hshort w ((hst w).mp hw)) (show NulFree (ascii "*a") by decide) (by decide) []
  exact ⟨s₀, s, found, hs₀, hs, hfound, hno⟩

end SearchT

end InfixSearch
