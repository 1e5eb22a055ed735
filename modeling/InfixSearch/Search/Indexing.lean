import InfixSearch.Search.Stored
import InfixSearch.Library.ForestIndex

/-!
# `index_trie` lists the start positions

On a heap that holds a trie, `index_trie(head, NULL)` appends to `tpm` an entry for
every start position of the trie, in order (`indexHead_eq`), and leaves what the
nodes show as it was. What `find_path` then looks up for a pair of characters are the
start positions with these characters (`lookup_pushStarts`).
-/

namespace InfixSearch

open Library

/-- A start position with the character that follows. -/
abbrev StartEntry := Option Byte × Forest.Start Ptr Byte

/-- The key that `index_trie` gives an entry. -/
def startKey (e : StartEntry) : TreePosKeyT := (keyByte e.2.rest.head?, keyByte e.1)

/-- The node and the position of a start, as `tpm` keeps them. -/
def startVal (st : Forest.Start Ptr Byte) : TreePosValT := (st.id, SearchT.narrow st.idx)

/-- `tpm` with one more entry. -/
def pushStart (tpm : TreePosMapT) (e : StartEntry) : TreePosMapT := SearchT.pushPos tpm (startKey e) (startVal e.2)

/-- `tpm` with more entries. -/
def pushStarts (tpm : TreePosMapT) (es : List StartEntry) : TreePosMapT := es.foldl pushStart tpm

/-- The entries that `tpm` lists under `k`. -/
def TreePosMapT.at (tpm : TreePosMapT) (k : TreePosKeyT) : List TreePosValT := (tpm.lookup k).getD []

theorem at_pushStart (tpm : TreePosMapT) (e : StartEntry) (k : TreePosKeyT) :
    (pushStart tpm e).at k = tpm.at k ++ if startKey e = k then [startVal e.2] else [] := by
  rw [pushStart, SearchT.pushPos, TreePosMapT.at]
  by_cases h : startKey e = k
  · subst h
    simp [TreePosMapT.at]
  · rw [AList.lookup_insert_ne (Ne.symm h), if_neg h, List.append_nil]
    rfl

/-- Entries are listed in the order in which they are appended. -/
theorem at_pushStarts (tpm : TreePosMapT) (es : List StartEntry) (k : TreePosKeyT) :
    (pushStarts tpm es).at k = tpm.at k ++ (es.filter fun e => startKey e = k).map fun e => startVal e.2 := by
  induction es generalizing tpm with
  | nil => simp [pushStarts]
  | cons e es ih =>
    rw [pushStarts, List.foldl_cons, ← pushStarts, ih, at_pushStart, List.filter_cons]
    by_cases h : startKey e = k <;> simp [h]

namespace Trie

/-- The position of the head. -/
def headStart (T : Trie) : Forest.Start Ptr Byte := ⟨[], 0, 0, [SearchT.sentinel], T.leaf, T.forest⟩

/-- The start positions, in the order of `index_trie`. -/
def starts (T : Trie) : List StartEntry := T.forest.starts [] T.headStart

end Trie

namespace SearchT

variable {s s' s'' : SearchT Node2T} {T : Trie}

/-- Only `tpm`, and nothing that the nodes show, has changed. -/
structure Indexes (s s' : SearchT Node2T) (es : List StartEntry) : Prop where
  /-- The nodes show what they showed. -/
  at_of_at : ∀ q v, s.heap.At q v → s'.heap.At q v
  /-- There are as many. -/
  length : s'.heap.length = s.heap.length
  /-- The entries are appended. -/
  tpm : s'.tpm = pushStarts s.tpm es
  /-- Nothing else has changed. -/
  same : s' = { s with heap := s'.heap, tpm := s'.tpm }

namespace Indexes

theorem refl (s : SearchT Node2T) : Indexes s s [] := ⟨fun _ _ h => h, rfl, rfl, rfl⟩

theorem trans {es es' : List StartEntry} (h : Indexes s s' es) (h' : Indexes s' s'' es') :
    Indexes s s'' (es ++ es') where
  at_of_at q v hq := h'.at_of_at q v (h.at_of_at q v hq)
  length := h'.length.trans h.length
  tpm := by rw [h'.tpm, h.tpm, pushStarts, pushStarts, pushStarts, List.foldl_append]
  same := by rw [h'.same, h.same]

theorem push (s : SearchT Node2T) (es : List StartEntry) : Indexes s { s with tpm := pushStarts s.tpm es } es :=
  ⟨fun _ _ h => h, rfl, rfl, rfl⟩

end Indexes

theorem setIsIndexed_eq {p : Ptr} {v : NodeView} (hp : s.heap.At p v) :
    ∃ s', s.setIsIndexed p true = .ok s' ∧ Indexes s s' [] := by
  obtain ⟨s', e, a, l, g⟩ := onNode_eq hp fun n hn => hn.setIsIndexed_eq
  refine ⟨s', e, fun q w hq => ?_, l, ?_, ?_⟩
  · by_cases hqp : q = p
    · subst hqp
      exact hp.unique hq ▸ a
    · exact hq.frame g.frame (by simpa using hqp)
  · rw [g.same]; rfl
  · have hcount : s'.nodeCount = s.nodeCount := by
      have := g.count
      omega
    rw [g.same]
    simp [hcount]

/-- The pairs inside a tail. -/
theorem indexTail_eq (tpm : TreePosMapT) (u : Str) (p : Ptr) (t : Str) (leaf : Bool) (cs : Forest Ptr Byte) :
    indexTail tpm p t =
      .ok (pushStarts tpm ((List.range (t.length - 1)).map fun i => (t[i + 1]?, Forest.startAt u p t leaf cs i))) := by
  rw [pushStarts, List.foldl_map, indexTail]
  refine foldlM_ok (fun tpm i hi => ?_) tpm
  rw [List.mem_range] at hi
  have h₁ : charAt t i = _ := charAt_eq (by omega)
  have h₂ : charAt t (i + 1) = _ := charAt_eq (by omega)
  rw [h₁, ok_bind, h₂, ok_bind, pure_ok, List.head?_drop (i := i + 1)]
  rfl

/-- The body of the loop of `index_trie` over the children of `current`. -/
def indexChild (fuel : ℕ) (current : Ptr) (tail : Str) (s : SearchT Node2T) (curr : Ptr) : Except Fault (SearchT Node2T) := do
  let last ← if tail.length = 0 then throw .outOfBounds else charAt tail (tail.length - 1)
  let key := (last, ← s.heap.getVal curr)
  let s := { s with tpm := pushPos s.tpm key (current, narrow (tail.length - 1)) }
  indexTrie fuel s curr (some current)

theorem indexTrie_succ (fuel : ℕ) (s : SearchT Node2T) (current : Ptr) (parent : Option Ptr) :
    indexTrie (fuel + 1) s current parent = (do
      let tail ← s.heap.getTail current
      let s ← if parent.isSome then do pure { s with tpm := ← indexTail s.tpm current tail } else pure s
      let nl ← s.heap.getChildren current
      let s ← nl.foldlM (indexChild fuel current tail) s
      s.setIsIndexed current true) := rfl

/-- The entry across the edge to a child, and then the child. -/
theorem indexChild_eq {fuel : ℕ} {p c : Ptr} {t : Str} {v : NodeView} {up : Forest.Start Ptr Byte}
    (hc : s.heap.At c v) (ht : t ≠ []) (hid : up.id = p) (hidx : up.idx = t.length - 1)
    (hrest : up.rest = t.drop up.idx) :
    indexChild fuel p t s c =
      indexTrie fuel { s with tpm := pushStarts s.tpm [(v.tail.head?, up)] } c (some p) := by
  have hpos := List.length_pos_iff.mpr ht
  have hch : charAt t (t.length - 1) = _ := charAt_eq (by omega)
  have hcast : (t.length : ℤ) - 1 = (t.length - 1 : ℕ) := by omega
  simp only [indexChild, if_neg (show t.length ≠ 0 by omega), hch, ok_bind, hc.getVal, headD_eq_keyByte, hcast]
  rw [← hidx, ← hid, ← hrest]
  rfl

/-- The children of a node are indexed one after the other, each with its tree. -/
theorem foldlM_indexChild {F : Forest Ptr Byte} {p : Ptr} {t : Str} (fuel : ℕ) (u : Str) (up : Forest.Start Ptr Byte)
    (hr : Rep s.heap (some p) F) (hF : F.WF) (ht : t = [] → F = .nil) (hd : F.depth ≤ fuel) (hid : up.id = p)
    (hidx : up.idx = t.length - 1) (hrest : up.rest = t.drop up.idx) :
    ∃ s', F.roots.foldlM (indexChild fuel p t) s = .ok s' ∧ Indexes s s' (F.starts u up) := by
  induction F generalizing s fuel p u t up with
  | nil => exact ⟨s, rfl, Indexes.refl s⟩
  | node id t' leaf cs sib ihc ihs =>
    obtain ⟨ha, hc, hs⟩ := hr
    obtain ⟨h1, -, -, h4, h5⟩ := hF
    have ht0 : t ≠ [] := fun h => nomatch ht h
    rw [Forest.depth] at hd
    obtain ⟨fuel, rfl⟩ := Nat.exists_eq_add_one_of_ne_zero (show fuel ≠ 0 by omega)
    -- the edge to the tree, the pairs in its tail, its children, and the mark on it
    have g₁ := Indexes.push s [(t'.head?, up)]
    have g₂ := g₁.trans (Indexes.push _ ((List.range (t'.length - 1)).map fun i => (t'[i + 1]?, Forest.startAt u id t' leaf cs i)))
    obtain ⟨s₃, e₃, g₃⟩ := ihc fuel (u ++ t') (Forest.startAt u id t' leaf cs (t'.length - 1))
      (hc.of_at g₂.at_of_at) h4 (fun h => (h1 h).2) (by omega) rfl rfl rfl
    have g₂₃ := g₂.trans g₃
    obtain ⟨s₄, e₄, g₄⟩ := setIsIndexed_eq (g₂₃.at_of_at _ _ ha)
    have g₂₄ := g₂₃.trans g₄
    obtain ⟨s', e', g'⟩ := ihs (fuel + 1) u up (hs.of_at g₂₄.at_of_at) h5
      (fun h => absurd h ht0) (by omega) hid hidx hrest
    refine ⟨s', ?_, ?_⟩
    · rw [Forest.roots, List.foldlM_cons, indexChild_eq ha ht0 hid hidx hrest, indexTrie_succ]
      simp only [ha.getTail, ok_bind, Option.isSome_some, if_true, indexTail_eq _ u id t' leaf cs, pure_ok,
        ha.getChildren, e₃, e₄, e']
    · have := g₂₄.trans g'
      simpa [Forest.starts] using this

/-- What `index_trie` leaves as it was. -/
theorem Holds.of_indexes (h : s.Holds T) {es : List StartEntry} (g : Indexes s s' es) : s'.Holds T where
  head := by rw [g.same]; exact h.head
  rep := h.rep.of_at g.at_of_at
  owns := by rw [g.length]; exact h.owns
  count := by rw [g.length, g.same]; exact h.count

/-- `index_trie(head, NULL)` appends the start positions of the trie. -/
theorem Holds.indexHead_eq (h : s.Holds T) : ∃ s', s.indexHead = .ok s' ∧ s'.Holds T ∧ Indexes s s' T.starts := by
  obtain ⟨ha, hc, -⟩ := h.rep
  have hdepth : T.forest.depth ≤ s.heap.length := by
    have h₁ := T.forest.depth_le_length_ids
    have h₂ := h.owns.size
    unfold Trie.size at h₂
    omega
  obtain ⟨s₁, e₁, g₁⟩ := foldlM_indexChild s.heap.length [] T.headStart hc T.wf
    (t := [sentinel]) (fun h => absurd h (List.cons_ne_nil _ _)) hdepth rfl rfl rfl
  obtain ⟨s', e', g'⟩ := setIsIndexed_eq (g₁.at_of_at _ _ ha)
  have g := g₁.trans g'
  rw [List.append_nil] at g
  refine ⟨s', ?_, h.of_indexes g, g⟩
  rw [indexHead, h.head]
  show indexTrie (s.heap.length + 1) s 0 none = _
  rw [indexTrie_succ]
  simp only [ha.getTail, ok_bind, Option.isSome_none, Bool.false_eq_true, if_false, pure_ok, ha.getChildren, e₁, e']

/-- Without a head the call dereferences a null pointer. -/
theorem indexHead_empty (h : s.head = none) : s.indexHead = .error .nullPointer := by rw [indexHead, h]; rfl

/-- What can be indexed has a head. -/
theorem Ready.holds_of_indexHead (h : s.Ready T) (hs : s.indexHead = .ok s') : s.Holds T := by
  rcases h with ⟨hhead, -⟩ | h
  · rw [indexHead_empty hhead] at hs
    cases hs
  · exact h

end SearchT

end InfixSearch
