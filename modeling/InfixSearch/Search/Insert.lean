import InfixSearch.Search.Represent

/-!
# The walk of `add`

What the loop of `add` relies on is the same for every node class: that the nodes show a
forest, that a step leaves the other nodes alone, and what splitting a tail and entering a
child do (`AddRules`). From that the loop inserts into the forest (`AddRules.addLoop_eq`),
however a node keeps its children.
-/

namespace InfixSearch

open Library

/-- What the walk of `add` relies on: how the nodes show a forest, and what the calls on them do. -/
structure AddRules {N : Type} [NodeT N] (Shows : Heap N → Ptr → Str → Bool → Option Ptr → Forest Ptr Byte → Prop)
    (Rep : Heap N → Option Ptr → Forest Ptr Byte → Prop) (Grows : List Ptr → SearchT N → SearchT N → Prop) (capacity : ℕ) :
    Prop where
  /-- No nodes are needed for no trees. -/
  rep_nil : ∀ {h : Heap N} {par : Option Ptr}, Rep h par .nil
  /-- The node of a tree shows its tail, its leaf flag, the parent and the children. -/
  rep_node : ∀ {h : Heap N} {p : Ptr} {t : Str} {leaf : Bool} {par : Option Ptr} {cs sib : Forest Ptr Byte},
    Rep h par (.node p t leaf cs sib) ↔ Shows h p t leaf par cs ∧ Rep h (some p) cs ∧ Rep h par sib
  /-- No step changes nothing. -/
  refl : ∀ {l : List Ptr} {s : SearchT N}, Grows l s s
  /-- One step after the other. -/
  trans : ∀ {l : List Ptr} {s s' s'' : SearchT N}, Grows l s s' → Grows l s' s'' → Grows l s s''
  /-- Nodes that were not there before need not be named. -/
  fresh : ∀ {l l' : List Ptr} {s s' : SearchT N}, Grows l s s' → (∀ q ∈ l, q < s.heap.length → q ∈ l') → Grows l' s s'
  /-- A node that is shown is there. -/
  lt : ∀ {h : Heap N} {p : Ptr} {t : Str} {leaf : Bool} {par : Option Ptr} {cs : Forest Ptr Byte},
    Shows h p t leaf par cs → p < h.length
  /-- A step leaves the other nodes alone. -/
  frame : ∀ {l : List Ptr} {s s' : SearchT N} {p : Ptr} {t : Str} {leaf : Bool} {par : Option Ptr} {cs : Forest Ptr Byte},
    Shows s.heap p t leaf par cs → Grows l s s' → p ∉ l → Shows s'.heap p t leaf par cs
  /-- Inserting below a child makes no new child. -/
  insert_of_mem : ∀ {h : Heap N} {p : Ptr} {t r : Str} {leaf : Bool} {par : Option Ptr} {cs : Forest Ptr Byte} {a b : Ptr},
    Shows h p t leaf par cs → r.head? ∈ cs.keys → Shows h p t leaf par (cs.insert a b r)
  /-- `get_tail`. -/
  getTail : ∀ {h : Heap N} {p : Ptr} {t : Str} {leaf : Bool} {par : Option Ptr} {cs : Forest Ptr Byte},
    Shows h p t leaf par cs → h.getTail p = .ok t
  /-- `get_child` finds the child with the key. -/
  getChild : ∀ {h : Heap N} {p : Ptr} {t r : Str} {leaf : Bool} {par : Option Ptr} {cs : Forest Ptr Byte},
    Shows h p t leaf par cs → Rep h (some p) cs → NulFree r → h.getChild p (keyByte r.head?) = .ok (cs.rootOf r.head?)
  /-- `set_is_leaf`. -/
  setIsLeaf : ∀ {s : SearchT N} {p : Ptr} {t : Str} {leaf : Bool} {par : Option Ptr} {cs : Forest Ptr Byte},
    Shows s.heap p t leaf par cs → ∃ s', s.setIsLeaf p true = .ok s' ∧ Shows s'.heap p t true par cs ∧
      s'.heap.length = s.heap.length ∧ Grows [p] s s'
  /-- `set_parent`. -/
  setParent : ∀ {s : SearchT N} {p : Ptr} {t : Str} {leaf : Bool} {par : Option Ptr} {cs : Forest Ptr Byte} (q : Ptr),
    Shows s.heap p t leaf par cs → ∃ s', s.setParent p q = .ok s' ∧ Shows s'.heap p t leaf (some q) cs ∧
      s'.heap.length = s.heap.length ∧ Grows [p] s s'
  /-- `set_parent` with the parent that the node has. -/
  setParent_same : ∀ {s : SearchT N} {p q : Ptr} {t : Str} {leaf : Bool} {cs : Forest Ptr Byte},
    Shows s.heap p t leaf (some q) cs → s.setParent p q = .ok s
  /-- "Forking two children": the lower half, with the leaf flag and the children, is a new node under the
  upper half. -/
  splitTail : ∀ {s : SearchT N} {p : Ptr} {t : Str} {leaf : Bool} {par : Option Ptr} {cs : Forest Ptr Byte} {k : ℕ},
    Shows s.heap p t leaf par cs → Rep s.heap (some p) cs → (p :: cs.ids).Nodup → cs.keys.Nodup → 0 < k → k < t.length →
    ∃ s', s.splitTail p t k = .ok s' ∧
      Rep s'.heap par (.node p (t.take k) false (.node s.heap.length (t.drop k) leaf cs .nil) .nil) ∧
      s'.heap.length = s.heap.length + 1 ∧ Grows (p :: cs.roots) s s'
  /-- "Create a new fork": with room for it, the new child comes after the others. -/
  newChild : ∀ {s : SearchT N} {p : Ptr} {t word : Str} {leaf : Bool} {par : Option Ptr} {cs : Forest Ptr Byte} {i : ℕ}
      (b : Ptr), Shows s.heap p t leaf par cs → Rep s.heap (some p) cs → NulFree word → i ≤ word.length →
    (word.drop i).head? ∉ cs.keys → cs.width < capacity →
    ∃ s', s.newChild word p i = .ok (s', s.heap.length) ∧
      Shows s'.heap p t leaf par (cs.insert s.heap.length b (word.drop i)) ∧
      Shows s'.heap s.heap.length (word.drop i) true none .nil ∧ s'.heap.length = s.heap.length + 1 ∧ Grows [p] s s'
  /-- There is room for the halves of a tail and a new child. -/
  capacity : 1 < capacity

namespace SearchT

variable {N : Type} [NodeT N] {s : SearchT N} {p : Ptr} {word t : Str} {i : ℕ}

/-- The word ends with the tail of the node. -/
theorem addLoop_self (fuel : ℕ) (hp : s.heap.getTail p = .ok (word.drop i)) : addLoop word (fuel + 1) s p i = .ok (s, p) := by
  rw [addLoop]
  split_ifs with hi
  · have hlen : (word.drop i).length ≠ 0 := by simp; omega
    have hend : i + (word.drop i).length = word.length ∧ True := ⟨by simp; omega, trivial⟩
    simp only [hp, ok_bind, agree_self]
    rw [if_pos hlen, if_pos hend, pure_ok]
  · rw [pure_ok]

/-- The loop takes a child to follow, or a new one, for `traverse`. -/
theorem addLoop_next (fuel : ℕ) {o : Option Ptr} (hp : s.heap.getTail p = .ok t) (hh : t.head? = (word.drop i).head?)
    (hne : word.drop i ≠ t)
    (hchild : s.heap.getChild p (keyByte (word.drop (i + agree t (word.drop i))).head?) = .ok o) :
    addLoop word (fuel + 1) s p i = (do
        let (s, child) ← match o with
          | some child => pure (s, child)
          | none => s.forkChild word p t (agree t (word.drop i)) (i + agree t (word.drop i))
        let s ← s.setParent child p
        addLoop word fuel s child (i + agree t (word.drop i))) := by
  obtain ⟨hpos, hle⟩ := agree_bounds hh hne
  have hlet := agree_le_left t (word.drop i)
  have hend : ¬ (i + agree t (word.drop i) = word.length ∧ agree t (word.drop i) = t.length) :=
    mt (agree_ends_iff (by omega)).mp hne
  cases o
  all_goals
    rw [addLoop, if_pos (by omega)]
    simp only [hp, ok_bind]
    rw [if_pos (by omega), if_neg hend, charAt_eq hle, ok_bind, hchild, ok_bind]

/-- Inside the tail the new child is entered after the split. -/
theorem forkChild_of_splitTail {s₁ : SearchT N} {k : ℕ} (hlt : k < t.length) (e : s.splitTail p t k = .ok s₁) :
    s.forkChild word p t k i = s₁.newChild word p i := by
  rw [forkChild, if_pos hlt, e, ok_bind]

/-- At the end of the tail there is no split. -/
theorem forkChild_of_end {k : ℕ} (h : ¬ k < t.length) : s.forkChild word p t k i = s.newChild word p i := by
  rw [forkChild, if_neg h, pure_ok, ok_bind]

end SearchT

namespace AddRules

open SearchT

variable {N : Type} [NodeT N] {Shows : Heap N → Ptr → Str → Bool → Option Ptr → Forest Ptr Byte → Prop}
  {Rep : Heap N → Option Ptr → Forest Ptr Byte → Prop} {Grows : List Ptr → SearchT N → SearchT N → Prop} {capacity : ℕ}
  (R : AddRules Shows Rep Grows capacity)

include R

section Forests

variable {h : Heap N} {s s' : SearchT N} {par : Option Ptr} {F : Forest Ptr Byte}

theorem mono {l l' : List Ptr} (g : Grows l s s') (hl : l ⊆ l') : Grows l' s s' := R.fresh g fun _ hq _ => hl hq

/-- What does not touch the nodes of a forest leaves it as it is. -/
theorem rep_frame {l : List Ptr} (hr : Rep s.heap par F) (g : Grows l s s') (hl : ∀ q ∈ F.ids, q ∉ l) : Rep s'.heap par F := by
  induction F generalizing par with
  | nil => exact R.rep_nil
  | node id t leaf cs sib ihc ihs =>
    obtain ⟨ha, hc, hs⟩ := R.rep_node.mp hr
    simp only [Forest.ids, List.mem_cons, List.mem_append, forall_eq_or_imp] at hl
    exact R.rep_node.mpr ⟨R.frame ha g hl.1, ihc hc fun q hq => hl.2 q (.inl hq), ihs hs fun q hq => hl.2 q (.inr hq)⟩

/-- A word whose key is not there yet is inserted as a new root. -/
theorem rep_insert_of_notMem {a b : Ptr} {r : Str} (hr : Rep h par F) (hk : r.head? ∉ F.keys) (ha : Shows h a r true par .nil) :
    Rep h par (F.insert a b r) := by
  induction F with
  | nil => exact R.rep_node.mpr ⟨ha, R.rep_nil, R.rep_nil⟩
  | node id t leaf cs sib _ ihs =>
    obtain ⟨hid, hc, hs⟩ := R.rep_node.mp hr
    rw [Forest.keys, List.mem_cons, not_or] at hk
    rw [Forest.insert_skip _ _ _ _ _ _ _ _ (Ne.symm hk.1)]
    exact R.rep_node.mpr ⟨hid, hc, ihs hs hk.2⟩

/-- The root with a given key. -/
theorem shows_of_rootOf {k : Option Byte} {c : Ptr} (hr : Rep h par F) (hc : F.rootOf k = some c) :
    ∃ t leaf cs, Shows h c t leaf par cs := by
  induction F with
  | nil => simp [Forest.rootOf] at hc
  | node id t leaf cs sib _ ihs =>
    obtain ⟨ha, -, hs⟩ := R.rep_node.mp hr
    rw [Forest.rootOf] at hc
    split_ifs at hc with hk
    · obtain rfl := Option.some.inj hc
      exact ⟨t, leaf, cs, ha⟩
    · exact ihs hs hc

/-- What changes nodes of the first tree only leaves the trees after it alone. -/
theorem rep_of_first {id : Ptr} {l : List Ptr} {t : Str} {leaf : Bool} {cs cs' sib : Forest Ptr Byte} (hsib : Rep s.heap par sib)
    (hn : (id :: (cs.ids ++ sib.ids)).Nodup) (g : Grows l s s') (hl : l ⊆ id :: cs.ids)
    (hr : Rep s'.heap par (.node id t leaf cs' .nil)) :
    Rep s'.heap par (.node id t leaf cs' sib) ∧ Grows (id :: (cs.ids ++ sib.ids)) s s' := by
  simp only [List.nodup_cons, List.mem_append, not_or, List.nodup_append] at hn
  obtain ⟨⟨-, his⟩, -, -, hdis⟩ := hn
  obtain ⟨ha, hc, -⟩ := R.rep_node.mp hr
  refine ⟨R.rep_node.mpr ⟨ha, hc, R.rep_frame hsib g ?_⟩, R.mono g ?_⟩
  · intro q hq hm
    rcases List.mem_cons.mp (hl hm) with rfl | hm
    · exact his hq
    · exact hdis q hm q hq rfl
  · intro q hq
    exact List.cons_subset_cons _ (List.subset_append_left _ _) (hl hq)

end Forests

section Loop

variable {s : SearchT N} {p : Ptr} {word t : Str} {leaf : Bool} {par : Option Ptr} {cs : Forest Ptr Byte} {i : ℕ}

/-- With a child to follow the loop goes on to it, and nothing changes: the child has the node
for its parent already. -/
theorem addLoop_follow (fuel : ℕ) (hp : Shows s.heap p t leaf par cs) (hc : Rep s.heap (some p) cs) (hw : NulFree word)
    (hh : t.head? = (word.drop i).head?) (hne : word.drop i ≠ t) {c : Ptr}
    (hroot : cs.rootOf (word.drop (i + agree t (word.drop i))).head? = some c) :
    addLoop word (fuel + 1) s p i = addLoop word fuel s c (i + agree t (word.drop i)) := by
  obtain ⟨t', leaf', cs', hat⟩ := R.shows_of_rootOf hc hroot
  rw [addLoop_next fuel (R.getTail hp) hh hne (R.getChild hp hc (hw.drop _)), hroot]
  simp only [pure_ok, ok_bind, R.setParent_same hat]

/-- With no child to follow the loop makes one. -/
theorem addLoop_fork (fuel : ℕ) (hp : Shows s.heap p t leaf par cs) (hc : Rep s.heap (some p) cs) (hw : NulFree word)
    (hh : t.head? = (word.drop i).head?) (hne : word.drop i ≠ t)
    (hroot : (word.drop (i + agree t (word.drop i))).head? ∉ cs.keys) :
    addLoop word (fuel + 1) s p i = (do
        let (s, child) ← s.forkChild word p t (agree t (word.drop i)) (i + agree t (word.drop i))
        let s ← s.setParent child p
        addLoop word fuel s child (i + agree t (word.drop i))) := by
  rw [addLoop_next fuel (R.getTail hp) hh hne (R.getChild hp hc (hw.drop _)), Forest.rootOf_eq_none_iff.mpr hroot]

/-- The new child is a leaf with the rest of the word, after the other children that the node has once its tail
is split or not. -/
theorem addLoop_newChild {s₀ : SearchT N} {t₀ : Str} {leaf₀ : Bool} {cs₀ : Forest Ptr Byte} (fuel : ℕ) (b : Ptr)
    (hp : Shows s.heap p t leaf par cs) (hc : Rep s.heap (some p) cs) (hw : NulFree word) (hh : t.head? = (word.drop i).head?)
    (hne : word.drop i ≠ t) (hroot : (word.drop (i + agree t (word.drop i))).head? ∉ cs.keys)
    (hfork : s.forkChild word p t (agree t (word.drop i)) (i + agree t (word.drop i)) =
      s₀.newChild word p (i + agree t (word.drop i)))
    (hr : Rep s₀.heap par (.node p t₀ leaf₀ cs₀ .nil)) (hpc : p ∉ cs₀.ids)
    (hkey : (word.drop (i + agree t (word.drop i))).head? ∉ cs₀.keys) (hwidth : cs₀.width < capacity) :
    ∃ s₁ s', addLoop word (fuel + 2) s p i = .ok (s₁, s₀.heap.length) ∧ s₁.setIsLeaf s₀.heap.length true = .ok s' ∧
      Rep s'.heap par (.node p t₀ leaf₀ (cs₀.insert s₀.heap.length b (word.drop (i + agree t (word.drop i)))) .nil) ∧
      s'.heap.length = s₀.heap.length + 1 ∧ Grows [p] s₀ s' := by
  obtain ⟨-, hi⟩ := agree_bounds hh hne
  obtain ⟨hp₀, hc₀, -⟩ := R.rep_node.mp hr
  obtain ⟨s₁, e₁, a₁, b₁, l₁, g₁⟩ := R.newChild b hp₀ hc₀ hw hi hkey hwidth
  obtain ⟨s₂, e₂, b₂, l₂, g₂⟩ := R.setParent p b₁
  obtain ⟨s₃, e₃, b₃, l₃, g₃⟩ := R.setIsLeaf b₂
  -- the new leaf is none of the nodes that were there before
  have g₁₃ : Grows [s₀.heap.length] s₁ s₃ := R.trans g₂ g₃
  have g : Grows [p] s₀ s₃ := by
    have g₀₃ : Grows [s₀.heap.length, p] s₀ s₃ := R.trans (R.mono g₁ (List.subset_cons_self _ _)) (R.mono g₁₃ (by simp))
    refine R.fresh g₀₃ ?_
    intro q hq hlt
    exact (List.mem_cons.mp hq).resolve_left fun e => Nat.lt_irrefl _ (e ▸ hlt)
  refine ⟨s₂, s₃, ?_, e₃, R.rep_node.mpr ⟨R.frame a₁ g₁₃ ?_, ?_, R.rep_nil⟩, by omega, g⟩
  · rw [R.addLoop_fork _ hp hc hw hh hne hroot]
    simp only [hfork, e₁, ok_bind, e₂]
    exact addLoop_self fuel (R.getTail b₂)
  · intro hm
    exact Nat.ne_of_lt (R.lt hp₀) (List.mem_singleton.mp hm)
  · refine R.rep_insert_of_notMem (R.rep_frame hc₀ g ?_) hkey b₃
    intro q hq hm
    exact hpc (List.mem_singleton.mp hm ▸ hq)

/-- Inside its tail the node is split, and the new leaf comes after the lower half. -/
theorem addLoop_split (fuel : ℕ) (hp : Shows s.heap p t leaf par cs) (hc : Rep s.heap (some p) cs) (hn : (p :: cs.ids).Nodup)
    (hk : cs.keys.Nodup) (hw : NulFree word) (hh : t.head? = (word.drop i).head?) (hne : word.drop i ≠ t)
    (hfk : Forest.Forks t (word.drop i) cs) :
    ∃ s₁ q s', addLoop word (fuel + 2) s p i = .ok (s₁, q) ∧ s₁.setIsLeaf q true = .ok s' ∧
      Rep s'.heap par (.node p (t.take (agree t (word.drop i))) false
        (.node s.heap.length (t.drop (agree t (word.drop i))) leaf cs
          (.node (s.heap.length + 1) (word.drop (i + agree t (word.drop i))) true .nil .nil)) .nil) ∧
      s'.heap.length = s.heap.length + 2 ∧ Grows (p :: cs.ids) s s' := by
  obtain ⟨hpos, -⟩ := agree_bounds hh hne
  obtain ⟨hlt, hroot⟩ := hfk
  have hhead := head?_drop_agree_ne (Ne.symm hne)
  rw [List.drop_drop] at hroot hhead
  have hplt : p < s.heap.length := R.lt hp
  have hpc : p ∉ cs.ids := (List.nodup_cons.mp hn).1
  obtain ⟨s₀, e₀, r₀, l₀, g₀⟩ := R.splitTail hp hc hn hk hpos hlt
  obtain ⟨s₁, s', e₁, e', r', l', g'⟩ := R.addLoop_newChild fuel p hp hc hw hh hne hroot
    (forkChild_of_splitTail hlt e₀) r₀
    (by simpa [Forest.ids, hpc] using Nat.ne_of_lt hplt) (by simpa [Forest.keys] using Ne.symm hhead)
    (by simpa [Forest.width] using R.capacity)
  rw [Forest.insert_skip _ _ _ _ _ _ _ _ hhead, Forest.insert, l₀] at r'
  refine ⟨s₁, _, s', e₁, e', r', by omega, R.trans (R.mono g₀ ?_) (R.mono g' (by simp))⟩
  exact List.cons_subset_cons _ (Forest.roots_subset_ids _)

/-- At the end of its tail the node gets the new leaf, after its other children. -/
theorem addLoop_append (fuel : ℕ) (hp : Shows s.heap p t leaf par cs) (hc : Rep s.heap (some p) cs) (hpc : p ∉ cs.ids)
    (hw : NulFree word) (hh : t.head? = (word.drop i).head?) (hne : word.drop i ≠ t)
    (hlen : ¬ agree t (word.drop i) < t.length) (hroot : (word.drop (i + agree t (word.drop i))).head? ∉ cs.keys)
    (hwidth : cs.width < capacity) :
    ∃ s₁ q s', addLoop word (fuel + 2) s p i = .ok (s₁, q) ∧ s₁.setIsLeaf q true = .ok s' ∧
      Rep s'.heap par (.node p t leaf
        (cs.insert s.heap.length (s.heap.length + 1) (word.drop (i + agree t (word.drop i)))) .nil) ∧
      s'.heap.length = s.heap.length + 1 ∧ Grows [p] s s' := by
  obtain ⟨s₁, s', h⟩ := R.addLoop_newChild fuel (s.heap.length + 1) hp hc hw hh hne hroot (forkChild_of_end hlen)
    (R.rep_node.mpr ⟨hp, hc, R.rep_nil⟩) hpc hroot hwidth
  exact ⟨s₁, _, s', h⟩

end Loop

/-- The end of `add`, from the root that the rest of the word leads to, inserts it; new nodes get the next
pointers. -/
theorem addLoop_eq {s : SearchT N} {p : Ptr} {word : Str} {i fuel : ℕ} {F : Forest Ptr Byte} {par : Option Ptr}
    (hw : NulFree word) (hr : Rep s.heap par F) (hk : F.Keyed) (hn : F.ids.Nodup) (hp : F.rootOf (word.drop i).head? = some p)
    (hf : (word.drop i).length < fuel) (hroom : F.Room capacity (word.drop i)) :
    ∃ s₁ q s', addLoop word fuel s p i = .ok (s₁, q) ∧ s₁.setIsLeaf q true = .ok s' ∧
      Rep s'.heap par (F.insert s.heap.length (s.heap.length + 1) (word.drop i)) ∧
      s'.heap.length = s.heap.length + F.grown (word.drop i) ∧ Grows F.ids s s' := by
  induction F generalizing s p i fuel par with
  | nil => simp [Forest.rootOf] at hp
  | node id t leaf cs sib ihc ihs =>
    obtain ⟨hid, hcs, hsib⟩ := R.rep_node.mp hr
    obtain ⟨hk1, hk2, hk3⟩ := hk
    rw [Forest.ids] at hn
    have hn' := hn
    simp only [List.nodup_cons, List.mem_append, not_or, List.nodup_append] at hn'
    obtain ⟨⟨hic, his⟩, hnc, hns, hdis⟩ := hn'
    rw [Forest.rootOf] at hp
    rw [Forest.Room] at hroom
    refine Forest.insert_cases t (word.drop i) cs (fun hh => ?_) (fun hrt => ?_) (fun hh hne hfk => ?_)
      (fun hh hne hfk => ?_)
    · -- past this tree
      rw [if_neg hh] at hp hroom
      obtain ⟨s₁, q, s', e₁, e', r', l', g'⟩ := ihs hsib hk3 hns hp hf hroom
      rw [Forest.insert_skip _ _ _ _ _ _ _ _ hh, Forest.grown, if_neg hh]
      refine ⟨s₁, q, s', e₁, e', R.rep_node.mpr ⟨R.frame hid g' his, R.rep_frame hcs g' ?_, r'⟩, l',
        R.mono g' fun q hq => List.mem_cons_of_mem _ (List.mem_append_right _ hq)⟩
      intro q hq hm
      exact hdis q hq q hm rfl
    · -- the word ends here
      rw [if_pos (by rw [hrt]), Option.some.injEq] at hp
      subst hp
      subst hrt
      obtain ⟨fuel, rfl⟩ := Nat.exists_eq_add_one_of_ne_zero (show fuel ≠ 0 by omega)
      obtain ⟨s', e', a', l', g'⟩ := R.setIsLeaf hid
      have hcs' := R.rep_frame hcs g' fun q hq hm => hic (List.mem_singleton.mp hm ▸ hq)
      obtain ⟨r', g⟩ := R.rep_of_first hsib hn g' (by simp) (R.rep_node.mpr ⟨a', hcs', R.rep_nil⟩)
      rw [Forest.insert_self, Forest.grown, if_pos rfl, if_pos rfl]
      exact ⟨s, id, s', addLoop_self fuel (R.getTail hid), e', r', l', g⟩
    · -- the tail is split
      rw [if_pos hh, Option.some.injEq] at hp
      subst hp
      obtain ⟨hpos, hi⟩ := agree_bounds hh hne
      obtain ⟨fuel, rfl⟩ := Nat.exists_eq_add_of_le' (show 2 ≤ fuel by rw [List.length_drop] at hf; omega)
      obtain ⟨s₁, q, s', e₁, e', r', l', g'⟩ :=
        R.addLoop_split fuel hid hcs (List.nodup_cons.mpr ⟨hic, hnc⟩) hk2.nodup_keys hw hh hne hfk
      obtain ⟨r', g⟩ := R.rep_of_first hsib hn g' (List.Subset.refl _) r'
      rw [Forest.insert_fork _ _ _ _ _ _ _ _ hh hne hfk, Forest.grown, if_pos hh, if_neg hne, if_pos hfk, List.drop_drop]
      exact ⟨s₁, q, s', e₁, e', r', l', g⟩
    · -- below the node
      rw [if_pos hh] at hp hroom
      rw [Option.some.injEq] at hp
      subst hp
      obtain ⟨hpos, hi⟩ := agree_bounds hh hne
      obtain ⟨hwidth, hroom⟩ := (hroom.resolve_left hne).resolve_left hfk
      rw [Forest.insert_down _ _ _ _ _ _ _ _ hh hne hfk, Forest.grown, if_pos hh, if_neg hne, if_neg hfk]
      rw [Forest.Forks] at hfk
      rw [List.drop_drop] at hfk hroom hwidth ⊢
      cases hroot : cs.rootOf (word.drop (i + agree t (word.drop i))).head? with
      | some c =>
        obtain ⟨fuel, rfl⟩ := Nat.exists_eq_add_one_of_ne_zero (show fuel ≠ 0 by omega)
        have hfuel : (word.drop (i + agree t (word.drop i))).length < fuel := by
          simp only [List.length_drop] at hf ⊢
          omega
        obtain ⟨s₁, q, s', e₁, e', r', l', g'⟩ := ihc hcs hk2 hnc hroot hfuel hroom
        have hid' := R.insert_of_mem (a := s.heap.length) (b := s.heap.length + 1) (R.frame hid g' hic)
          (Forest.mem_keys_of_rootOf hroot)
        obtain ⟨r', g⟩ := R.rep_of_first hsib hn g' (List.subset_cons_self _ _) (R.rep_node.mpr ⟨hid', r', R.rep_nil⟩)
        exact ⟨s₁, q, s', (R.addLoop_follow fuel hid hcs hw hh hne hroot).trans e₁, e', r', l', g⟩
      | none =>
        rw [Forest.rootOf_eq_none_iff] at hroot
        obtain ⟨fuel, rfl⟩ := Nat.exists_eq_add_of_le' (show 2 ≤ fuel by rw [List.length_drop] at hf; omega)
        obtain ⟨s₁, q, s', e₁, e', r', l', g'⟩ :=
          R.addLoop_append fuel hid hcs hic hw hh hne (fun hlt => hfk ⟨hlt, hroot⟩) hroot (hwidth hroot)
        obtain ⟨r', g⟩ := R.rep_of_first hsib hn g' (by simp) r'
        refine ⟨s₁, q, s', e₁, e', r', ?_, g⟩
        rw [l', (Forest.insert_of_notMem (a := s.heap.length) (b := s.heap.length + 1) hroot).2.2.1]

end AddRules

end InfixSearch
