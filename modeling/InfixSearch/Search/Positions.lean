import InfixSearch.Search.Rows

/-!
# The positions in `tpm`

What `index_trie` lists under a pair of characters are the positions in tails where the
first stands before the second, in the tail or at the start of a child, and each of them
once (`at_indexHead`). A position is kept in a `char`: on the way back to an `int` it
survives if the tail is not too long (`positionsKept_iff`).
-/

namespace InfixSearch

open Library

namespace SearchT

section Heap

variable {N : Type} [NodeT N] (s : SearchT N)

/-- At position `i` of the tail of `p` stands `a`, and after it comes `b`: in the tail, or as the
value of a child. -/
def PairAt (a b : Byte) (p : Ptr) (i : ℕ) : Prop :=
  ∃ t, s.heap.getTail p = .ok t ∧ t[i]? = some a ∧
    (t[i + 1]? = some b ∨ (i + 1 = t.length ∧ ∃ q, s.Child p q ∧ s.heap.getVal q = .ok b))

end Heap

variable {s s' : SearchT Node2T} {T : Trie}

/-- The values of the roots of a forest in the heap are its keys. -/
theorem exists_root_val_iff {F : Forest Ptr Byte} {par : Option Ptr} (hr : Rep s.heap par F) {b : Byte} :
    (∃ q ∈ F.roots, s.heap.getVal q = .ok b) ↔ ∃ k ∈ F.keys, keyByte k = b := by
  constructor
  · rintro ⟨q, hq, hv⟩
    obtain ⟨v, ha, hk, -⟩ := hr.at_of_mem_roots hq
    rw [ha.getVal, headD_eq_keyByte, Except.ok.injEq] at hv
    exact ⟨_, hk, hv⟩
  · rintro ⟨k, hk, rfl⟩
    obtain ⟨q, hq⟩ := Forest.exists_rootOf hk
    obtain ⟨v, ha, rfl, -⟩ := hr.at_of_rootOf hq
    exact ⟨q, Forest.rootOf_mem_roots hq, by rw [ha.getVal, headD_eq_keyByte]⟩

theorem keyByte_getElem? {t : Str} {i : ℕ} (hi : i < t.length) {a : Byte} : keyByte t[i]? = a ↔ t[i]? = some a := by
  rw [List.getElem?_eq_getElem hi, Option.some.injEq]
  rfl

/-- The entries that a site lists for a pair of characters. -/
theorem exists_start_iff {S : Forest.Site Ptr Byte} (hnil : S.tail = [] → S.children = .nil) {a b : Byte} {i : ℕ} :
    (∃ e ∈ S.starts, startKey e = (a, b) ∧ e.2.idx = i) ↔
      S.tail[i]? = some a ∧ (S.tail[i + 1]? = some b ∨ (i + 1 = S.tail.length ∧ ∃ k ∈ S.children.keys, keyByte k = b)) := by
  have hkey (k : Option Byte) (j : ℕ) : startKey (k, Forest.startAt S.pre S.id S.tail S.leaf S.children j) =
      (keyByte S.tail[j]?, keyByte k) := by rw [← List.head?_drop]; rfl
  simp only [Forest.Site.starts, List.mem_append, List.mem_map, List.mem_range]
  constructor
  · rintro ⟨e, ⟨j, hj, rfl⟩ | ⟨k, hk, rfl⟩, he, hidx⟩
    · -- inside the tail
      obtain rfl : j = i := hidx
      rw [hkey, Prod.mk.injEq, keyByte_getElem? (by omega), keyByte_getElem? (by omega)] at he
      exact ⟨he.1, .inl he.2⟩
    · -- across the edge to a child
      have ht : S.tail ≠ [] := by
        intro h0
        rw [hnil h0] at hk
        cases hk
      have hpos := List.length_pos_iff.mpr ht
      obtain rfl : S.tail.length - 1 = i := hidx
      rw [hkey, Prod.mk.injEq, keyByte_getElem? (by omega)] at he
      exact ⟨he.1, .inr ⟨by omega, k, hk, he.2⟩⟩
  · rintro ⟨ha, hb | ⟨hi, k, hk, hb⟩⟩
    · have hlt := (List.getElem?_eq_some_iff.mp hb).1
      refine ⟨_, .inl ⟨i, by omega, rfl⟩, ?_, rfl⟩
      rw [hkey, ha, hb]
      rfl
    · obtain rfl : i = S.tail.length - 1 := by omega
      refine ⟨_, .inr ⟨k, hk, rfl⟩, ?_, rfl⟩
      rw [hkey, ha, hb]
      rfl

/-- The start positions are those of the head and of the sites under it. -/
theorem starts_perm (T : Trie) :
    T.starts.Perm ((⟨[], 0, [sentinel], T.leaf, T.forest⟩ :: T.forest.sites []).flatMap Forest.Site.starts) :=
  Forest.starts_perm [] T.headStart T.forest

namespace Holds

theorem pairAt_site (h : s.Holds T) {S : Forest.Site Ptr Byte} (hS : S ∈ T.tree.sites []) {a b : Byte} {i : ℕ} :
    s.PairAt a b S.id i ↔
      S.tail[i]? = some a ∧ (S.tail[i + 1]? = some b ∨ (i + 1 = S.tail.length ∧ ∃ k ∈ S.children.keys, keyByte k = b)) := by
  obtain ⟨par, -, hc⟩ := h.rep.site hS
  rw [← exists_root_val_iff hc, PairAt]
  simp only [h.getTail hS, Except.ok.injEq, exists_eq_left', h.child_iff hS]

/-- The positions that `index_trie` lists. -/
theorem pairAt_iff (h : s.Holds T) {a b : Byte} {p : Ptr} {i : ℕ} :
    s.PairAt a b p i ↔ ∃ e ∈ T.starts, startKey e = (a, b) ∧ e.2.id = p ∧ e.2.idx = i := by
  have hhead : [sentinel] = [] → T.forest = .nil := fun h0 => (nomatch h0)
  simp only [(starts_perm T).mem_iff, List.mem_flatMap, List.mem_cons]
  constructor
  · intro hp
    obtain ⟨S, hS, rfl⟩ := h.exists_site (lt_of_getTail hp.choose_spec.1)
    have hpair := (h.pairAt_site hS).mp hp
    rcases Trie.mem_sites_tree.mp hS with rfl | ⟨S', hS', rfl⟩
    · obtain ⟨e, he, hkey, hidx⟩ := (exists_start_iff hhead).mpr hpair
      exact ⟨e, ⟨_, .inl rfl, he⟩, hkey, Forest.Site.id_of_mem_starts he, hidx⟩
    · obtain ⟨e, he, hkey, hidx⟩ := (exists_start_iff (S := S') fun h0 => ((T.wf.site hS').1 h0).2).mpr hpair
      exact ⟨e, ⟨S', .inr hS', he⟩, hkey, (Forest.Site.id_of_mem_starts he : e.2.id = S'.id), hidx⟩
  · rintro ⟨e, ⟨S, hS, he⟩, hkey, rfl, hidx⟩
    rw [Forest.Site.id_of_mem_starts he]
    rcases hS with rfl | hS
    · exact (h.pairAt_site T.head_mem_sites).mpr ((exists_start_iff hhead).mp ⟨e, he, hkey, hidx⟩)
    · have hS' : { S with pre := sentinel :: S.pre } ∈ T.tree.sites [] := Trie.mem_sites_tree.mpr (.inr ⟨S, hS, rfl⟩)
      exact (h.pairAt_site hS').mpr ((exists_start_iff fun h0 => ((T.wf.site hS).1 h0).2).mp ⟨e, he, hkey, hidx⟩)

/-- No position is listed twice with the same character after it. -/
theorem nodup_starts (h : s.Holds T) : (T.starts.map fun e => (e.1, e.2.id, e.2.idx)).Nodup := by
  refine ((starts_perm T).map _).nodup_iff.mpr (Forest.nodup_flatMap_starts ?_ ?_)
  · rw [List.map_cons, Forest.map_id_sites]
    exact List.nodup_cons.mpr h.owns.nodup_forest
  · refine List.forall_mem_cons.mpr ⟨T.wf.keyed.nodup_keys, fun S hS => ?_⟩
    exact (T.wf.site hS).2.2.keyed.nodup_keys

end Holds

/-- The nodes and positions that are listed under a pair of characters. -/
def listed (T : Trie) (k : TreePosKeyT) : List (Ptr × ℕ) := (T.starts.filter fun e => startKey e = k).map fun e => (e.2.id, e.2.idx)

namespace Indexed

theorem at_eq_listed (h : s.Indexed T) (k : TreePosKeyT) : s.tpm.at k = (listed T k).map fun e => (e.1, narrow e.2) := by
  have hempty : TreePosMapT.at ∅ k = [] := rfl
  rw [h.tpm, at_pushStarts, hempty, List.nil_append, listed, List.map_map]
  rfl

theorem mem_listed_iff (h : s.Indexed T) {a b : Byte} {p : Ptr} {i : ℕ} : (p, i) ∈ listed T (a, b) ↔ s.PairAt a b p i := by
  rw [h.holds.pairAt_iff, listed, List.mem_map]
  simp only [List.mem_filter, decide_eq_true_eq, Prod.mk.injEq, and_assoc]

theorem nodup_listed (h : s.Indexed T) (k : TreePosKeyT) : (listed T k).Nodup := by
  have hn := h.holds.nodup_starts
  refine List.Nodup.map_on (fun e he e' he' heq => ?_) ((List.Nodup.of_map _ hn).filter _)
  simp only [List.mem_filter, decide_eq_true_eq] at he he'
  refine List.inj_on_of_nodup_map hn he.1 he'.1 (Prod.mk.injEq _ _ _ _ ▸ ⟨?_, heq⟩)
  -- the characters that follow are the same, as their bytes are
  refine (keyByte_inj_of_ne (h.next_ne he.1) (h.next_ne he'.1)).mp ?_
  exact (Prod.mk.inj (he.2.trans he'.2.symm)).2

end Indexed

/-- **Every adjacent pair once.** On a trie that `add` has built, `index_trie(head, NULL)` lists
under every pair of characters the positions where the first stands before the second, and no
others, each of them once; and it reads no character before a tail. -/
theorem at_indexHead {ws : List Str} (hne : ws ≠ []) (hws : ∀ w ∈ ws, NulFree w) (hs : fresh.adds ws = .ok s) :
    ∃ s', s.indexHead = .ok s' ∧ ∀ a b, ∃ es : List (Ptr × ℕ), s'.tpm.at (a, b) = es.map (fun e => (e.1, narrow e.2)) ∧
      es.Nodup ∧ ∀ p i, (p, i) ∈ es ↔ s.PairAt a b p i := by
  obtain ⟨h, s', e, h'⟩ := indexed_of_adds hws hne hs
  refine ⟨s', e, fun a b => ⟨listed _ (a, b), h'.at_eq_listed _, h'.nodup_listed _, fun p i => ?_⟩⟩
  rw [h'.mem_listed_iff, h.pairAt_iff, h'.holds.pairAt_iff]

theorem at_indexHead_ab : ∃ s, fresh.adds [ascii "abc", ascii "ab"] = .ok s ∧ ∃ s', s.indexHead = .ok s' ∧
    ∀ a b, ∃ es : List (Ptr × ℕ), s'.tpm.at (a, b) = es.map (fun e => (e.1, narrow e.2)) ∧
      es.Nodup ∧ ∀ p i, (p, i) ∈ es ↔ s.PairAt a b p i := by
  obtain ⟨s, hs, -⟩ := adds_of_isOk [ascii "abc", ascii "ab"] (by decide) (by decide +kernel)
  exact ⟨s, hs, at_indexHead (by decide) (by decide) hs⟩

/-! ### Positions in a `char` -/

/-- The positions that `find_path` reads back from `tpm` are those that were listed, and the
positions that `traverse_up` derives are the last ones of their tails. -/
def PositionsKept (s : SearchT Node2T) : Prop :=
  (∀ a b, ∃ es : List (Ptr × ℕ), s.tpm.at (a, b) = es.map (fun e => (e.1, narrow e.2)) ∧
    (∀ p i, (p, i) ∈ es ↔ s.PairAt a b p i) ∧
    ∀ p i t, (p, i) ∈ es → s.heap.getTail p = .ok t → (narrow i).toInt = i ∧ i < t.length) ∧
  ∀ p q t, s.Child p q → s.heap.getTail p = .ok t → (narrow (t.length - 1)).toInt = t.length - 1 ∧ 0 < t.length

/-- No tail is so long that a position in it is lost. -/
def TailsFit (s : SearchT Node2T) : Prop :=
  (∀ p q t, s.Child p q → s.heap.getTail p = .ok t → t.length ≤ 128) ∧ ∀ p t, s.heap.getTail p = .ok t → t.length ≤ 129

/-- A `char` holds no position from 128 on. -/
theorem lt_of_toInt_narrow {i : ℤ} (h : (narrow i).toInt = i) : i < 128 := by
  have := (narrow i).toInt_lt
  omega

theorem PositionsKept.tailsFit (h : s.PositionsKept) : s.TailsFit := by
  obtain ⟨hlisted, hlast⟩ := h
  refine ⟨fun p q t hc ht => ?_, fun p t ht => ?_⟩
  · have := lt_of_toInt_narrow (hlast p q t hc ht).1
    omega
  · -- the last pair inside the tail
    by_contra hlen
    have h₁ : t.length - 2 < t.length := by omega
    have h₂ : t.length - 2 + 1 < t.length := by omega
    obtain ⟨es, -, hes, hpos⟩ := hlisted t[t.length - 2] t[t.length - 2 + 1]
    have hpair : s.PairAt t[t.length - 2] t[t.length - 2 + 1] p (t.length - 2) :=
      ⟨t, ht, List.getElem?_eq_getElem h₁, .inl (List.getElem?_eq_getElem h₂)⟩
    have := lt_of_toInt_narrow (hpos p _ t ((hes p _).mpr hpair) ht).1
    omega

theorem Indexed.positionsKept (h : s.Indexed T) (hf : s.TailsFit) : s.PositionsKept := by
  obtain ⟨hinner, hall⟩ := hf
  constructor
  · intro a b
    refine ⟨listed T (a, b), h.at_eq_listed _, fun p i => h.mem_listed_iff, fun p i t hm ht => ?_⟩
    obtain ⟨t', ht', hat, hnext⟩ := h.mem_listed_iff.mp hm
    obtain rfl : t = t' := Except.ok.inj (ht.symm.trans ht')
    have hi := (List.getElem?_eq_some_iff.mp hat).1
    refine ⟨toInt_narrow (by omega) ?_, hi⟩
    rcases hnext with hnext | ⟨hlast, q, hc, -⟩
    · have := (List.getElem?_eq_some_iff.mp hnext).1
      have := hall p t ht
      omega
    · have := hinner p q t hc ht
      omega
  · intro p q t hc ht
    have hlen := hinner p q t hc ht
    -- a node with children has a tail that is not empty
    have hpos : 0 < t.length := by
      obtain ⟨S, hS, rfl, hq⟩ := h.holds.site_of_child hc
      rw [h.holds.getTail hS, Except.ok.injEq] at ht
      rw [← ht, List.length_pos_iff]
      intro h0
      rw [Trie.children_of_tail_nil hS h0] at hq
      cases hq
    exact ⟨toInt_narrow (by omega) (by omega), hpos⟩

/-- What the loop of `read_input` leaves can be indexed if it has a head, and its nodes keep
their tails and children. -/
theorem indexed_of_readLines {file : List Byte} {s₀ : SearchT Node2T} {pos : ℕ}
    (hload : (lines newline file).foldlM readLine ({ fresh with pFile := some file }, 0) = .ok (s₀, pos))
    (hindex : s₀.indexHead = .ok s) :
    ∃ T : Trie, s₀.Holds T ∧ s.Indexed T := by
  obtain ⟨-, h₀, -, htpm, -⟩ := foldlM_readLine (ready_fresh.withFile (some file)) hload
  have h := h₀.holds_of_indexHead hindex
  exact ⟨_, h, h.indexed htpm hindex⟩

/-- The same trie has the same tails. -/
theorem tailsFit_congr {s₀ : SearchT Node2T} (h₀ : s₀.Holds T) (h : s.Holds T) : s.TailsFit ↔ s₀.TailsFit := by
  simp only [TailsFit, h.getTail_iff, h₀.getTail_iff, h.child_iff_site, h₀.child_iff_site]

/-- **When positions survive.** For a file that can be read, the positions that `find_path` and
`traverse_up` use are those in the tails if and only if, when the index is made, no tail has
more than 129 bytes, and no tail of a node with children more than 128. -/
theorem positionsKept_iff {file : List Byte} {s₀ : SearchT Node2T} {pos : ℕ}
    (hload : (lines newline file).foldlM readLine ({ fresh with pFile := some file }, 0) = .ok (s₀, pos))
    (hindex : s₀.indexHead = .ok s) : s.PositionsKept ↔ s₀.TailsFit := by
  obtain ⟨T, h₀, h⟩ := indexed_of_readLines hload hindex
  rw [← tailsFit_congr h₀ h.holds]
  exact ⟨PositionsKept.tailsFit, h.positionsKept⟩

theorem positionsKept_iff_ab : ∃ s₀ pos s,
    (lines newline (ascii "abc\nab\n")).foldlM readLine ({ fresh with pFile := some (ascii "abc\nab\n") }, 0) = .ok (s₀, pos) ∧
      s₀.indexHead = .ok s ∧ (s.PositionsKept ↔ s₀.TailsFit) := by
  have hok : ((lines newline (ascii "abc\nab\n")).foldlM readLine
      ({ fresh with pFile := some (ascii "abc\nab\n") }, 0) >>= fun r => r.1.indexHead).isOk = true := by decide +kernel
  obtain ⟨s, hs⟩ := exists_ok_of_isOk hok
  obtain ⟨⟨s₀, pos⟩, hload, hindex⟩ := bind_eq_ok.mp hs
  exact ⟨s₀, pos, s, hload, hindex, positionsKept_iff hload hindex⟩

/-- A first column of 130 bytes has a position that comes back as `-128`. -/
theorem not_positionsKept_130 : ∃ s, fresh.readInput (some (List.replicate 130 'a'.toUInt8)) = .ok s ∧ ¬ s.PositionsKept := by
  have htail : (fresh.readInput (some (List.replicate 130 'a'.toUInt8)) >>= fun s => s.heap.getTail 1) =
      .ok (List.replicate 130 'a'.toUInt8) := by decide +kernel
  obtain ⟨s, hs, ht⟩ := bind_eq_ok.mp htail
  refine ⟨s, hs, fun h => ?_⟩
  have := h.tailsFit.2 1 _ ht
  rw [List.length_replicate] at this
  omega

end SearchT

end InfixSearch
