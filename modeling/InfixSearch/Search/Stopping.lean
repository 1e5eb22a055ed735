import InfixSearch.Search.Infix

/-!
# When the search stops early

`find_path` goes through the entries of `tpm` for the first two characters of the key, and
stops after a call of `find_path_util` that leaves `exact_match` set. The flag is set where
the key ends with the tail of a leaf node, and reset when there is something before the
entry: it stays set if and only if the entry is the head or the start of a child of the
head, and reads the key to the end of the tail of a leaf node. The key, or the key without
a `*` before it, is then the word of that leaf node (`findPathUtil_exact_iff`).
-/

namespace InfixSearch

open Library

namespace SearchT

section Heap

variable {N : Type} [NodeT N] (s : SearchT N)

/-- From position `k` of the tail of `p` the tails spell the key, the last of them that of `l` to its end. -/
inductive ReadsTo : Ptr → ℕ → Str → Ptr → Prop where
  /-- The rest of the tail is the key. -/
  | here {p : Ptr} {k : ℕ} {t : Str} : s.heap.getTail p = .ok t → ReadsTo p k (t.drop k) p
  /-- The key goes on in a child. -/
  | down {p q l : Ptr} {k : ℕ} {t key : Str} : s.heap.getTail p = .ok t → s.Child p q → key ≠ [] → ReadsTo q 0 key l →
      ReadsTo p k (t.drop k ++ key) l

/-- The entry is the head, or the start of a child of the head. -/
def AtWordStart (e : TreePosValT) : Prop := s.head = some e.1 ∨ e.2 = 0 ∧ ∃ h, s.head = some h ∧ s.Child h e.1

/-- The loop of `find_path`, with the entries that it goes through. -/
def visitLoop (key : Str) : List TreePosValT → FoundT → Except Fault (List TreePosValT × FoundT)
  | [], found => pure ([], found)
  | tpv :: nl, found => do
    let found ← s.findPathUtil tpv key (key.length + 1) tpv.1 tpv.2.toInt key found
    if found.exactMatch then pure ([tpv], found)
    else do
      let (visits, found) ← visitLoop key nl found
      pure (tpv :: visits, found)

/-- It is the loop of `find_path`. -/
theorem snd_visitLoop (key : Str) (nl : List TreePosValT) (found : FoundT) :
    Prod.snd <$> s.visitLoop key nl found = s.findPathLoop key nl found := by
  induction nl generalizing found with
  | nil => rfl
  | cons tpv nl ih =>
    rw [visitLoop, findPathLoop, map_bind]
    refine bind_congr fun found => ?_
    split_ifs
    · rfl
    · rw [← ih found, map_bind]
      rfl

variable {s} {p l : Ptr} {k : ℕ} {key : Str}

/-- What is read from the start of a node is spelled behind what is before the node. -/
theorem ReadsTo.spells (h : s.ReadsTo p 0 key l) {y : Str} (hp : ∀ t, s.heap.getTail p = .ok t → s.Spells p (y ++ t)) :
    s.Spells l (y ++ key) := by
  generalize hk : 0 = k at h
  induction h generalizing y with
  | here ht =>
    subst hk
    exact hp _ ht
  | down ht hc _ _ ih =>
    subst hk
    rw [List.drop_zero, ← List.append_assoc]
    exact ih (fun t' ht' => .child (hp _ ht) hc ht') rfl

/-- The last tail is not empty. -/
theorem ReadsTo.exists_tail (h : s.ReadsTo p k key l) (hne : key ≠ []) : ∃ t, s.heap.getTail l = .ok t ∧ t ≠ [] := by
  induction h with
  | @here p k t ht =>
    refine ⟨t, ht, ?_⟩
    rintro rfl
    exact hne List.drop_nil
  | down _ _ hkey _ ih => exact ih hkey

end Heap

variable {s : SearchT Node2T} {T : Trie}

/-! ### Reading to the end of a leaf -/

/-- The key is read to the end of a leaf node's tail. -/
def ReadsLeaf (s : SearchT Node2T) (p : Ptr) (k : ℕ) (key : Str) : Prop :=
  ∃ l, s.ReadsTo p k key l ∧ s.heap.getIsLeaf l = .ok true

section Node

variable {id : Ptr} {t key : Str} {leaf : Bool} {par : Option Ptr} {cs : Forest Ptr Byte} {k : ℕ}

/-- What a node reads begins with its tail. -/
theorem ReadsTo.cases_node (hid : s.heap.At id ⟨t, leaf, par, cs.roots⟩) {l : Ptr} (h : s.ReadsTo id k key l) :
    (key = t.drop k ∧ l = id) ∨ ∃ q ∈ cs.roots, ∃ key', key = t.drop k ++ key' ∧ key' ≠ [] ∧ s.ReadsTo q 0 key' l := by
  cases h with
  | here ht =>
    obtain rfl := Except.ok.inj (hid.getTail.symm.trans ht)
    exact .inl ⟨rfl, rfl⟩
  | @down _ q _ _ _ key' ht hc hkey' hread =>
    obtain rfl := Except.ok.inj (hid.getTail.symm.trans ht)
    obtain ⟨ps, hps, hq⟩ := hc
    obtain rfl := Except.ok.inj (hid.getChildren.symm.trans hps)
    exact .inr ⟨q, hq, key', rfl, hkey', hread⟩

/-- Seeking from a node ends exactly if the node reads the key to the end of a leaf. -/
theorem exact_node_iff (hid : s.heap.At id ⟨t, leaf, par, cs.roots⟩) (hne : key ≠ []) (hd : t.drop k ≠ [])
    (hcs : ∀ key' ≠ [], (∃ hit, cs.seek key' = some hit ∧ hit.exact = true) ↔ ∃ q ∈ cs.roots, s.ReadsLeaf q 0 key') :
    (∃ hit, (Forest.node id (t.drop k) leaf cs .nil).seek key = some hit ∧ hit.exact = true) ↔ s.ReadsLeaf id k key := by
  constructor
  · rintro ⟨hit, hseek, hex⟩
    refine Forest.seek_cases (t.drop k) key (fun hh => ?_) (fun hh h => ?_) (fun hh h hlt => ?_) (fun hh h hlt => ?_)
    · rw [Forest.seek_skip hh] at hseek
      cases hseek
    · rw [Forest.seek_end hh h, Option.some.injEq] at hseek
      subst hseek
      simp only [Forest.Hit.exact, Bool.and_eq_true, List.isEmpty_iff, List.drop_eq_nil_iff] at hex
      have hkey : key = t.drop k := (agree_eq_length_right_iff.mp h).eq_of_length_le hex.2
      exact ⟨id, hkey ▸ .here hid.getTail, by rw [hid.getIsLeaf, hex.1]⟩
    · rw [Forest.seek_part hh h hlt] at hseek
      cases hseek
    · rw [Forest.seek_down hh h hlt] at hseek
      have hag : agree (t.drop k) key = (t.drop k).length := le_antisymm (agree_le_left _ _) (Nat.le_of_not_lt hlt)
      obtain ⟨key', rfl⟩ := agree_eq_length_left_iff.mp hag
      have hne' : key' ≠ [] := by
        rintro rfl
        exact h (by rw [hag, List.append_nil])
      rw [List.drop_left] at hseek
      obtain ⟨q, hq, l, hread, hl⟩ := (hcs key' hne').mp ⟨hit, hseek, hex⟩
      exact ⟨l, .down hid.getTail ⟨_, hid.getChildren, hq⟩ hne' hread, hl⟩
  · rintro ⟨l, hread, hl⟩
    rcases hread.cases_node hid with ⟨rfl, rfl⟩ | ⟨q, hq, key', rfl, hne', hread⟩
    · rw [hid.getIsLeaf, Except.ok.injEq] at hl
      have hl' : leaf = true := hl
      refine ⟨_, Forest.seek_end rfl (agree_self _), ?_⟩
      rw [Forest.Hit.exact, List.drop_length, hl']
      rfl
    · have hag : agree (t.drop k) (t.drop k ++ key') = (t.drop k).length := agree_eq_length_left_iff.mpr (List.prefix_append _ _)
      have hpos := List.length_pos_iff.mpr hne'
      rw [Forest.seek_down (by rw [List.head?_append_of_ne_nil _ hd]) (by rw [hag, List.length_append]; omega)
        (by rw [hag]; omega), List.drop_left]
      exact (hcs key' hne').mpr ⟨q, hq, l, hread, hl⟩

end Node

/-- So does seeking from the roots of a forest. -/
theorem exact_iff {F : Forest Ptr Byte} {par : Option Ptr} (hr : Rep s.heap par F) (hF : F.WF) {key : Str} (hne : key ≠ []) :
    (∃ hit, F.seek key = some hit ∧ hit.exact = true) ↔ ∃ q ∈ F.roots, s.ReadsLeaf q 0 key := by
  induction F generalizing par key with
  | nil => simp [Forest.seek, Forest.roots]
  | node id t leaf cs sib ihc ihs =>
    obtain ⟨ha, hc, hs⟩ := hr
    obtain ⟨h1, -, h3, h4, h5⟩ := hF
    simp only [Forest.roots, List.mem_cons, exists_eq_or_imp]
    by_cases hh : t.head? = key.head?
    · have ht : t ≠ [] := by
        rintro rfl
        exact hne (List.head?_eq_none_iff.mp hh.symm)
      have hseek : (Forest.node id t leaf cs sib).seek key = (Forest.node id (t.drop 0) leaf cs .nil).seek key := by
        simp [Forest.seek, hh]
      have hsib : ¬ ∃ q ∈ sib.roots, s.ReadsLeaf q 0 key := by
        rw [← ihs hs h5 hne, Forest.seek_eq_none_of_notMem (hh ▸ h3)]
        rintro ⟨hit, hhit, -⟩
        cases hhit
      rw [hseek, exact_node_iff ha hne (show t.drop 0 ≠ [] from ht) fun key' hne' => ihc hc h4 hne', or_iff_left hsib]
    · have hself : ¬ s.ReadsLeaf id 0 key := by
        rintro ⟨l, hread, -⟩
        rcases hread.cases_node ha with ⟨rfl, -⟩ | ⟨q, hq, key', rfl, -, -⟩
        · exact hh rfl
        · -- a node without a tail has no children
          rcases eq_or_ne t [] with rfl | ht
          · rw [(h1 rfl).2] at hq
            cases hq
          · exact hh (List.head?_append_of_ne_nil _ ht).symm
      rw [Forest.seek_skip hh, ihs hs h5 hne, or_iff_right hself]

/-! ### Entries -/

/-- There is nothing before an entry if and only if it is at the start of a word. -/
theorem Indexed.pre_eq_nil_iff (h : s.Indexed T) (ht : T.forest.TailsLe 128) {e : StartEntry} (he : e ∈ T.starts) :
    e.2.pre = [] ↔ s.AtWordStart (startVal e.2) := by
  have hloc := h.locates ht he
  have hidx : (startVal e.2).2.toInt = (e.2.idx : ℤ) := hloc.idx
  obtain ⟨hzero, hnodup⟩ := h.holds.owns.nodup_forest
  rcases Forest.mem_starts T.wf he with ⟨hst, -⟩ | ⟨S, hS, i, hi, hst, -⟩
  · rw [hst]
    exact ⟨fun _ => .inl h.holds.head, fun _ => rfl⟩
  · rw [hst] at hidx ⊢
    constructor
    · intro hpre
      obtain ⟨hp, hi0⟩ := List.append_eq_nil_iff.mp (hpre : S.pre ++ S.tail.take i = [])
      obtain rfl : i = 0 := by
        have := congrArg List.length hi0
        rw [List.length_take, List.length_nil] at this
        omega
      exact .inr ⟨rfl, 0, h.holds.head, (h.holds.child_iff (Trie.head_mem_sites _)).mpr (mem_roots_of_pre hS hp)⟩
    · rintro (hhead | ⟨hj, q, hq, hchild⟩)
      · rw [h.holds.head, Option.some.injEq] at hhead
        have hhead' : 0 = S.id := hhead
        exact absurd (hhead' ▸ Forest.Site.id_mem hS) hzero
      · rw [h.holds.head, Option.some.injEq] at hq
        subst hq
        rw [hj] at hidx
        obtain rfl : i = 0 := (Int.ofNat_inj.mp hidx).symm
        have hroot : S.id ∈ T.forest.roots := (h.holds.child_iff (Trie.head_mem_sites _)).mp hchild
        obtain ⟨S', hS', hid, hpre⟩ := Forest.exists_site_of_mem_roots (u := []) hroot
        obtain rfl := Forest.site_unique hnodup hS' hS hid
        simp [Forest.startAt, hpre]

/-- An entry's position is exact if and only if the entry is at the start of a word, and reads the key to the end of a leaf. -/
theorem Indexed.exact_start_iff (h : s.Indexed T) (ht : T.forest.TailsLe 128) {key : Str} (hne : key ≠ []) {e : StartEntry}
    (he : e ∈ T.starts) : e.2.exact key = true ↔
      s.AtWordStart (startVal e.2) ∧ s.ReadsLeaf (startVal e.2).1 (startVal e.2).2.toInt.toNat key := by
  have hloc := h.locates ht he
  obtain ⟨t, par, hid, hrest⟩ := hloc.node
  have hidx : (startVal e.2).2.toInt.toNat = e.2.idx := by
    have hi : (startVal e.2).2.toInt = (e.2.idx : ℤ) := hloc.idx
    rw [hi, Int.toNat_natCast]
  have hleaf : (∃ hit, e.2.tree.seek key = some hit ∧ hit.exact = true) ↔ s.ReadsLeaf e.2.id e.2.idx key := by
    have hnode := exact_node_iff hid hne (hrest ▸ hloc.rest) fun key' hne' => exact_iff hloc.children hloc.wf hne'
    rw [hrest] at hnode
    exact hnode
  rw [← h.pre_eq_nil_iff ht he, hidx]
  refine Iff.trans ?_ (and_congr_right' hleaf)
  rw [Forest.Start.exact]
  cases e.2.tree.seek key with
  | none => simp
  | some hit => simp [and_comm]

/-- An entry at the start of a word that reads the key to the end of a leaf shows the word of the leaf. -/
theorem Indexed.exists_stored (h : s.Indexed T) {key : Str} (hne : key ≠ []) {e : StartEntry} (he : e ∈ T.starts)
    (hstart : s.AtWordStart (startVal e.2)) (hread : s.ReadsLeaf (startVal e.2).1 (startVal e.2).2.toInt.toNat key) :
    ∃ l w t, s.StoredAt l w ∧ (w = key ∨ sentinel :: w = key) ∧ s.heap.getTail l = .ok t ∧ t ≠ [] := by
  obtain ⟨l, hread, hl⟩ := hread
  obtain ⟨t, ht, htne⟩ := hread.exists_tail hne
  have hheadTail : s.heap.getTail 0 = .ok [sentinel] := h.holds.getTail T.head_mem_sites
  rcases hstart with hhead | ⟨hj, q, hq, hchild⟩
  · rcases Forest.mem_starts T.wf he with ⟨hst, -⟩ | ⟨S, hS, i, -, hst, -⟩
    · rw [hst] at hread
      have hread' : s.ReadsTo 0 0 key l := hread
      have hspells := hread'.spells (y := []) fun t' ht' => .head h.holds.head ht'
      obtain ⟨L, hL, -, hword⟩ := h.holds.spells_iff.mp hspells
      obtain ⟨w, hw⟩ : ∃ w, key = sentinel :: w := by
        rcases Trie.mem_sites_tree.mp hL with rfl | ⟨L', -, rfl⟩
        · exact ⟨[], hword.symm⟩
        · exact ⟨L'.word, hword.symm⟩
      subst hw
      exact ⟨l, w, t, ⟨hspells, hl⟩, .inr rfl, ht, htne⟩
    · rw [hst, h.holds.head, Option.some.injEq] at hhead
      have hhead' : 0 = S.id := hhead
      exact absurd (hhead' ▸ Forest.Site.id_mem hS) h.holds.owns.nodup_forest.1
  · rw [h.holds.head, Option.some.injEq] at hq
    subst hq
    have hzero : (startVal e.2).2.toInt.toNat = 0 := by rw [hj]; rfl
    rw [hzero] at hread
    have hspells : s.Spells l ([sentinel] ++ key) := hread.spells fun t' ht' => .child (.head h.holds.head hheadTail) hchild ht'
    exact ⟨l, key, t, ⟨hspells, hl⟩, .inl rfl, ht, htne⟩

/-- The loop goes through all entries if none of them sets the flag. -/
theorem visitLoop_eq {key : Str} {P : TreePosValT → Prop} {nl : List TreePosValT} (hstep : ∀ v ∈ nl, ∀ found : FoundT,
      found.exactMatch = false → ∃ found', s.findPathUtil v key (key.length + 1) v.1 v.2.toInt key found = .ok found' ∧
        (found'.exactMatch = true ↔ P v)) (found : FoundT) (hexact : found.exactMatch = false) :
    ∃ visits found', s.visitLoop key nl found = .ok (visits, found') ∧ (visits = nl ∨ ∃ v ∈ nl, P v) := by
  induction nl generalizing found with
  | nil => exact ⟨[], found, rfl, .inl rfl⟩
  | cons v nl ih =>
    obtain ⟨found₁, e₁, hP⟩ := hstep v List.mem_cons_self found hexact
    cases hex : found₁.exactMatch with
    | true =>
      refine ⟨[v], found₁, ?_, .inr ⟨v, List.mem_cons_self, hP.mp hex⟩⟩
      simp only [visitLoop, e₁, ok_bind, hex, if_true, pure_ok]
    | false =>
      obtain ⟨visits, found', e', hall⟩ := ih (fun v' hv' => hstep v' (List.mem_cons_of_mem _ hv')) found₁ hex
      refine ⟨v :: visits, found', ?_, ?_⟩
      · simp only [visitLoop, e₁, ok_bind, hex, Bool.false_eq_true, if_false, e', pure_ok]
      · rcases hall with rfl | ⟨v', hv', hPv'⟩
        · exact .inl rfl
        · exact .inr ⟨v', List.mem_cons_of_mem _ hv', hPv'⟩

/-- **When the search stops early.** For a key of two bytes and more and each entry of `tpm` for its first
two bytes, `find_path_util` leaves `exact_match` set if and only if the entry is at the start of a word and
reads the key to the end of the tail of a leaf node. So `find_path` goes through all entries, unless the key, as
it is or without a `*` before it, is the word of a leaf node with a tail. -/
theorem findPathUtil_exact_iff {ws : List Str} (hws : ∀ w ∈ ws, NulFree w) (hs : load ws = .ok s)
    (hshort : ∀ w, s.Stored w → w.length ≤ 98) {a b : Byte} {key : Str} (hkey : NulFree (a :: b :: key)) :
    (∀ v ∈ s.tpm.at (a, b), ∀ found : FoundT, found.exactMatch = false → ∃ found',
      s.findPathUtil v (a :: b :: key) ((a :: b :: key).length + 1) v.1 v.2.toInt (a :: b :: key) found = .ok found' ∧
        (found'.exactMatch = true ↔ s.AtWordStart v ∧ s.ReadsLeaf v.1 v.2.toInt.toNat (a :: b :: key))) ∧
    ∀ foundKeys, ∃ visits found, s.visitLoop (a :: b :: key) (s.tpm.at (a, b)) ⟨foundKeys, false, 0⟩ = .ok (visits, found) ∧
      s.findPathFound (a :: b :: key) foundKeys = .ok found ∧ (visits = s.tpm.at (a, b) ∨
        ∃ l w t, s.StoredAt l w ∧ (w = a :: b :: key ∨ sentinel :: w = a :: b :: key) ∧ s.heap.getTail l = .ok t ∧ t ≠ []) := by
  have h := indexed_of_load hws hs
  have ht := h.holds.tailsLe hshort
  have hne : a :: b :: key ≠ [] := List.cons_ne_nil _ _
  have hb : some b ≠ some 0 := by
    intro h0
    rw [Option.some.inj h0, nulFree_cons, nulFree_cons] at hkey
    exact hkey.2.1 rfl
  have hwords : ∀ w ∈ (Trie.empty.adds ws).words, w.length ≤ 98 := fun w hw => hshort w (h.holds.stored_iff.mpr hw)
  have hat : s.tpm.at (a, b) = (Forest.selected a (some b) (Trie.empty.adds ws).starts).map startVal := h.at_eq hb
  have hentry : ∀ v ∈ s.tpm.at (a, b), ∃ e ∈ (Trie.empty.adds ws).starts, startVal e.2 = v := by
    intro v hv
    rw [hat, List.mem_map] at hv
    obtain ⟨st, hst, rfl⟩ := hv
    obtain ⟨e, he, rfl, -⟩ := Forest.exists_of_mem_selected hst
    exact ⟨e, he, rfl⟩
  have hstep : ∀ v ∈ s.tpm.at (a, b), ∀ found : FoundT, found.exactMatch = false → ∃ found',
      s.findPathUtil v (a :: b :: key) ((a :: b :: key).length + 1) v.1 v.2.toInt (a :: b :: key) found = .ok found' ∧
        (found'.exactMatch = true ↔ s.AtWordStart v ∧ s.ReadsLeaf v.1 v.2.toInt.toNat (a :: b :: key)) := by
    intro v hv found hexact
    obtain ⟨e, he, rfl⟩ := hentry v hv
    have hok := (findPathUtil_start (h.locates ht he) hne hkey found hexact).1 (h.fits ht hwords hne he)
    exact ⟨_, hok, h.exact_start_iff ht hne he⟩
  refine ⟨hstep, ?_⟩
  intro foundKeys
  obtain ⟨visits, found, e, hall⟩ := visitLoop_eq hstep ⟨foundKeys, false, 0⟩ rfl
  refine ⟨visits, found, e, ?_, ?_⟩
  · rw [← Scratch.result_findPath, Scratch.findPath_cons, Scratch.result_findPathLoop, ← snd_visitLoop]
    have e' : s.visitLoop (a :: b :: key) (s.tpm.at (a, keyByte (some b))) ⟨foundKeys, false, 0⟩ = .ok (visits, found) := e
    rw [List.head?_cons, e', map_ok]
  · refine hall.imp id ?_
    rintro ⟨v, hv, hstart, hread⟩
    obtain ⟨e, he, rfl⟩ := hentry v hv
    exact h.exists_stored hne he hstart hread

theorem findPathUtil_exact_iff_ab : ∃ s, load [ascii "ab", ascii "abc"] = .ok s ∧ ∀ v ∈ s.tpm.at ('a'.toUInt8, 'b'.toUInt8),
    ∃ found', s.findPathUtil v (ascii "ab") 3 v.1 v.2.toInt (ascii "ab") ⟨[], false, 0⟩ = .ok found' ∧
      (found'.exactMatch = true ↔ s.AtWordStart v ∧ s.ReadsLeaf v.1 v.2.toInt.toNat (ascii "ab")) := by
  have hok : (load [ascii "ab", ascii "abc"]).isOk = true := by decide +kernel
  obtain ⟨s, hs⟩ := exists_ok_of_isOk hok
  have h := indexed_of_load (by decide) hs
  have hshort : ∀ w ∈ (Trie.empty.adds [ascii "ab", ascii "abc"]).words, w.length ≤ 98 := by decide +kernel
  have hkey : NulFree ['a'.toUInt8, 'b'.toUInt8] := by decide
  refine ⟨s, hs, ?_⟩
  intro v hv
  exact (findPathUtil_exact_iff (by decide) hs (fun w hw => hshort w (h.holds.stored_iff.mp hw)) hkey).1 v hv _ rfl

/-- The key `*a` is the word of a leaf node, and the search stops there, though `a` is not stored. -/
theorem not_visits_all : ∃ s, load [ascii "*a", ascii "x*a"] = .ok s ∧ (∃ visits found,
      s.visitLoop (ascii "*a") (s.tpm.at (sentinel, 'a'.toUInt8)) ⟨[], false, 0⟩ = .ok (visits, found) ∧
        visits ≠ s.tpm.at (sentinel, 'a'.toUInt8)) ∧ ¬ ∃ l, s.StoredAt l (ascii "a") := by
  have hok : (load [ascii "*a", ascii "x*a"]).isOk = true := by decide +kernel
  obtain ⟨s, hs⟩ := exists_ok_of_isOk hok
  have h := indexed_of_load (by decide) hs
  have hrun : (do
      let s ← load [ascii "*a", ascii "x*a"]
      let (visits, _) ← s.visitLoop (ascii "*a") (s.tpm.at (sentinel, 'a'.toUInt8)) ⟨[], false, 0⟩
      pure (visits, s.tpm.at (sentinel, 'a'.toUInt8))) = .ok ([(1, 0)], [(1, 0), (2, 1)]) := by decide +kernel
  rw [hs, ok_bind, bind_eq_ok] at hrun
  obtain ⟨⟨visits, found⟩, e, hrun⟩ := hrun
  obtain ⟨hvisits, hall⟩ := Prod.mk.inj (Except.ok.inj hrun)
  refine ⟨s, hs, ⟨visits, found, e, ?_⟩, ?_⟩
  · rw [hvisits, hall]
    decide
  · rintro ⟨l, hl⟩
    have hno : ascii "a" ∉ (Trie.empty.adds [ascii "*a", ascii "x*a"]).words := by decide +kernel
    exact hno (h.holds.stored_iff.mp ⟨l, hl⟩)

end SearchT

end InfixSearch
