import InfixSearch.Search.Calls

/-!
# `add` inserts into the forest

`add` on a heap of packed nodes that represents a forest is `Forest.insert` on the forest:
they obey the rules of the calls and so those of the walk (`callRules`, `addRules`), a new node
gets the next pointer, and a node with 126 children takes no other: then, and only then, the
call exits (`addFrom_eq`, `addFrom_exit`).
-/

namespace InfixSearch

open Library

/-- The state `s'` comes from `s` by constructing nodes and by changing nodes in
`touched`. -/
structure Grows (touched : List Ptr) (s s' : SearchT Node2T) : Prop where
  /-- The other nodes are the same. -/
  frame : Frame touched s.heap s'.heap
  /-- Every node constructed is counted. -/
  count : s'.nodeCount + s.heap.length = s.nodeCount + s'.heap.length
  /-- Nothing else has changed. -/
  same : s' = { s with heap := s'.heap, nodeCount := s'.nodeCount }

namespace Grows

theorem refl (l : List Ptr) (s : SearchT Node2T) : Grows l s s := ⟨Frame.refl _ _, rfl, rfl⟩

theorem trans {l : List Ptr} {s s' s'' : SearchT Node2T} (g : Grows l s s') (g' : Grows l s' s'') : Grows l s s'' where
  frame := g.frame.trans g'.frame
  count := by have := g.count; have := g'.count; omega
  same := by rw [g'.same, g.same]

theorem mono {l l' : List Ptr} {s s' : SearchT Node2T} (g : Grows l s s') (hl : l ⊆ l') : Grows l' s s' :=
  ⟨g.frame.mono hl, g.count, g.same⟩

/-- Nodes that were not there before need not be named. -/
theorem of_fresh {l l' : List Ptr} {s s' : SearchT Node2T} (g : Grows l s s')
    (hl : ∀ q ∈ l, q < s.heap.length → q ∈ l') : Grows l' s s' :=
  ⟨⟨g.frame.1, fun q hq hn => g.frame.2 q hq fun hm => hn (hl q hm hq)⟩, g.count, g.same⟩

end Grows

namespace SearchT

variable {s : SearchT Node2T} {p : Ptr} {v : NodeView}

/-! ### Calls on one node -/

theorem onNode_eq {f : Node2T → Except Fault Node2T} {v' : NodeView} (hp : s.heap.At p v)
    (hf : ∀ n : Node2T, n.Shows v → ∃ n', f n = .ok n' ∧ n'.Shows v') :
    ∃ s', s.onNode p f = .ok s' ∧ s'.heap.At p v' ∧ s'.heap.length = s.heap.length ∧ Grows [p] s s' := by
  obtain ⟨h', he, ha, hlen, hfr⟩ := hp.update hf
  exact ⟨{ s with heap := h' }, by rw [onNode, he]; rfl, ha, hlen, hfr, by simp [hlen], rfl⟩

/-- A call that changes nothing. -/
theorem onNode_same {f : Node2T → Except Fault Node2T} (hp : s.heap.At p v) (hf : ∀ n : Node2T, n.Shows v → f n = .ok n) :
    s.onNode p f = .ok s := by
  rw [onNode, hp.update_same hf, ok_bind, pure_ok]

theorem setIsLeaf_same (hp : s.heap.At p v) (hl : v.leaf = true) : s.setIsLeaf p true = .ok s :=
  onNode_same hp fun _ hn => hn.setIsLeaf_same hl

theorem setParent_same (hp : s.heap.At p v) {q : Ptr} (hq : v.parent = some q) : s.setParent p q = .ok s :=
  onNode_same hp fun _ hn => hq ▸ hn.setParent_same

section Calls

variable {t : Str} {leaf : Bool} {par : Option Ptr} {l : List Ptr}

theorem setTail_eq (hp : s.heap.At p ⟨t, leaf, par, l⟩) {t' : Str} (ht : NulFree t') :
    ∃ s', s.setTail p t' = .ok s' ∧ s'.heap.At p ⟨t', leaf, par, l⟩ ∧ s'.heap.length = s.heap.length ∧ Grows [p] s s' :=
  onNode_eq hp fun _ hn => hn.setTailNat_eq ht

theorem setVal_eq (hp : s.heap.At p v) (b : Byte) :
    ∃ s', s.setVal p b = .ok s' ∧ s'.heap.At p v ∧ s'.heap.length = s.heap.length ∧ Grows [p] s s' :=
  onNode_eq hp fun _ hn => hn.setVal_eq b

theorem setIsLeaf_eq (hp : s.heap.At p ⟨t, leaf, par, l⟩) (b : Bool) :
    ∃ s', s.setIsLeaf p b = .ok s' ∧ s'.heap.At p ⟨t, b, par, l⟩ ∧ s'.heap.length = s.heap.length ∧ Grows [p] s s' :=
  onNode_eq hp fun _ hn => hn.setIsLeaf_eq b

theorem setParent_eq (hp : s.heap.At p ⟨t, leaf, par, l⟩) (q : Ptr) :
    ∃ s', s.setParent p q = .ok s' ∧ s'.heap.At p ⟨t, leaf, some q, l⟩ ∧
      s'.heap.length = s.heap.length ∧ Grows [p] s s' :=
  onNode_eq hp fun _ hn => hn.setParent_eq (some q)

theorem killChildren_eq (hp : s.heap.At p ⟨t, leaf, par, l⟩) :
    ∃ s', s.killChildren p = .ok s' ∧ s'.heap.At p ⟨t, leaf, par, []⟩ ∧
      s'.heap.length = s.heap.length ∧ Grows [p] s s' :=
  onNode_eq hp fun _ hn => hn.killChildren_eq

theorem setChild_eq (val : Byte) (hp : s.heap.At p ⟨t, leaf, par, l⟩)
    (hv : ∀ d ∈ l, ∃ w, s.heap.At d w ∧ keyByte w.tail.head? ≠ val) (hroom : l.length < Node2T.capacity) (c : Ptr) :
    ∃ s', s.setChild p val c = .ok s' ∧ s'.heap.At p ⟨t, leaf, par, l ++ [c]⟩ ∧
      s'.heap.length = s.heap.length ∧ Grows [p] s s' := by
  obtain ⟨h', he, ha, hlen, hfr⟩ := hp.setChild (c := c) hv hroom
  exact ⟨{ s with heap := h' }, by rw [setChild, he]; rfl, ha, hlen, hfr, by simp [hlen], rfl⟩

theorem setChild_exit (val : Byte) (hp : s.heap.At p ⟨t, leaf, par, l⟩)
    (hv : ∀ d ∈ l, ∃ w, s.heap.At d w ∧ keyByte w.tail.head? ≠ val) (hfull : l.length = Node2T.capacity) (c : Ptr) :
    s.setChild p val c = .error .exit := by
  rw [setChild, hp.setChild_exit hv hfull, error_bind]

end Calls

theorem makeNode_eq (s : SearchT Node2T) :
    ∃ s', s.makeNode = .ok (s', s.heap.length) ∧ s'.heap.At s.heap.length ⟨[], false, none, []⟩ ∧
      s'.heap.length = s.heap.length + 1 ∧ Grows [] s s' := by
  obtain ⟨n, hn, hs⟩ := Node2T.construct_eq
  refine ⟨{ s with heap := s.heap ++ [n], nodeCount := s.nodeCount + 1 }, ?_, Heap.at_append hs, by simp,
    Frame.append _ _, by simp; omega, rfl⟩
  rw [makeNode, show (NodeT.construct : Except Fault Node2T) = .ok n from hn]
  rfl

/-- What the calls do to packed nodes. -/
theorem callRules : CallRules Heap.At Rep Grows Node2T.capacity where
  rep_nil := trivial
  rep_node := Iff.rfl
  rep_lt := Rep.lt
  rep_roots := Rep.at_ne_of_mem_roots
  rep_frame hr g hl := hr.frame g.frame hl
  refl := Grows.refl _ _
  trans := Grows.trans
  fresh := Grows.of_fresh
  lt := Heap.At.lt
  frame hp g hl := hp.frame g.frame hl
  nulFree := Heap.At.nulFree
  room := Heap.At.room
  getTail := Heap.At.getTail
  getVal := Heap.At.getVal
  getIsLeaf := Heap.At.getIsLeaf
  getChildren := Heap.At.getChildren
  getChild := Rep.getChild
  makeNode := makeNode_eq
  setTail hp ht := setTail_eq hp ht
  setVal b hp := setVal_eq hp b
  setIsLeaf b hp := setIsLeaf_eq hp b
  setParent q hp := setParent_eq hp q
  setParent_same hp hq := setParent_same hp hq
  killChildren := killChildren_eq
  setChild val c hp hv hroom := setChild_eq val hp hv hroom c
  capacity := by decide

/-- On a full node the program exits. -/
theorem newChild_exit {t word : Str} {leaf : Bool} {par : Option Ptr} {l : List Ptr} {i : ℕ} (hp : s.heap.At p ⟨t, leaf, par, l⟩)
    (hw : NulFree word) (hi : i ≤ word.length) (hv : ∀ d ∈ l, ∃ w, s.heap.At d w ∧ w.tail.head? ≠ (word.drop i).head?)
    (hfull : l.length = Node2T.capacity) : s.newChild word p i = .error .exit := by
  obtain ⟨s₁, e₁, b₁, l₁, g₁⟩ := callRules.newChild_eq_setChild s hw hi p
  rw [e₁, setChild_exit _ (hp.frame g₁.frame (by simp)) _ hfull, error_bind]
  intro d hd
  obtain ⟨w, hd, hne⟩ := hv d hd
  exact ⟨w, hd.frame g₁.frame (by simp), fun h => hne ((keyByte_inj hd.nulFree (hw.drop i)).mp h)⟩

/-! ### The insertion -/

/-- A heap of packed nodes shows the children of a node in their order. -/
theorem addRules : AddRules (fun h p t leaf par cs => h.At p ⟨t, leaf, par, cs.roots⟩) Rep Grows Node2T.capacity :=
  callRules.addRules

/-- The end of `add`: the loop, and the mark on the node it ends at. -/
def addFrom (word : Str) (fuel : ℕ) (s : SearchT Node2T) (p : Ptr) (i : ℕ) : Except Fault (SearchT Node2T) := do
  let (s, traverse) ← addLoop word fuel s p i
  s.setIsLeaf traverse true

section Loop

variable {word t : Str} {leaf : Bool} {par : Option Ptr} {cs : Forest Ptr Byte} {l : List Ptr} {i : ℕ}

/-- The word ends with the tail of the node. -/
theorem addFrom_self (fuel : ℕ) (hp : s.heap.At p ⟨word.drop i, leaf, par, l⟩) :
    addFrom word (fuel + 1) s p i = s.setIsLeaf p true := by
  rw [addFrom, addLoop_self fuel hp.getTail, ok_bind]

/-- With a child to follow the loop goes on to it, and nothing changes. -/
theorem addFrom_follow (fuel : ℕ) (hp : s.heap.At p ⟨t, leaf, par, cs.roots⟩) (hc : Rep s.heap (some p) cs) (hw : NulFree word)
    (hh : t.head? = (word.drop i).head?) (hne : word.drop i ≠ t) {c : Ptr}
    (hroot : cs.rootOf (word.drop (i + agree t (word.drop i))).head? = some c) :
    addFrom word (fuel + 1) s p i = addFrom word fuel s c (i + agree t (word.drop i)) := by
  rw [addFrom, addRules.addLoop_follow fuel hp hc hw hh hne hroot, addFrom]

end Loop

/-- The end of `add`, from the root that the rest of the word leads to, inserts it; new
nodes get the next pointers. -/
theorem addFrom_eq {word : Str} {i fuel : ℕ} {F : Forest Ptr Byte} {par : Option Ptr} (hw : NulFree word)
    (hr : Rep s.heap par F) (hk : F.Keyed) (hn : F.ids.Nodup) (hp : F.rootOf (word.drop i).head? = some p)
    (hf : (word.drop i).length < fuel) (hroom : F.Room Node2T.capacity (word.drop i)) :
    ∃ s', addFrom word fuel s p i = .ok s' ∧
      Rep s'.heap par (F.insert s.heap.length (s.heap.length + 1) (word.drop i)) ∧
      s'.heap.length = s.heap.length + F.grown (word.drop i) ∧ Grows F.ids s s' := by
  obtain ⟨s₁, q, s', e₁, e', h⟩ := addRules.addLoop_eq hw hr hk hn hp hf hroom
  refine ⟨s', ?_, h⟩
  rw [addFrom, e₁, ok_bind]
  exact e'

/-- Where a node on the way is full the program exits. -/
theorem addFrom_exit {word : Str} {i fuel : ℕ} {F : Forest Ptr Byte} {par : Option Ptr} (hw : NulFree word)
    (hr : Rep s.heap par F) (hp : F.rootOf (word.drop i).head? = some p) (hf : (word.drop i).length < fuel)
    (hroom : ¬ F.Room Node2T.capacity (word.drop i)) : addFrom word fuel s p i = .error .exit := by
  induction F generalizing s p i fuel par with
  | nil => simp [Forest.rootOf] at hp
  | node id t leaf cs sib ihc ihs =>
    obtain ⟨hid, hcs, hsib⟩ := hr
    rw [Forest.rootOf] at hp
    rw [Forest.Room] at hroom
    by_cases hh : t.head? = (word.drop i).head?
    · rw [if_pos hh, Option.some.injEq] at hp
      subst hp
      rw [if_pos hh, not_or, not_or] at hroom
      obtain ⟨hne, hfk, hroom⟩ := hroom
      have hdrop : (word.drop i).drop (agree t (word.drop i)) = word.drop (i + agree t (word.drop i)) := by
        rw [List.drop_drop]
      rw [hdrop] at hroom
      obtain ⟨fuel, rfl⟩ := Nat.exists_eq_add_one_of_ne_zero (show fuel ≠ 0 by omega)
      obtain ⟨hpos, hi⟩ := agree_bounds hh hne
      cases hroot : cs.rootOf (word.drop (i + agree t (word.drop i))).head? with
      | some c =>
        rw [addFrom_follow fuel hid hcs hw hh hne hroot]
        refine ihc hcs hroot (by simp only [List.length_drop] at hf ⊢; omega) ?_
        intro hc
        exact hroom ⟨fun hkey => absurd (Forest.mem_keys_of_rootOf hroot) hkey, hc⟩
      | none =>
        have hkey := Forest.rootOf_eq_none_iff.mp hroot
        have hlen : ¬ agree t (word.drop i) < t.length := fun hlt' => hfk ⟨hlt', by rwa [hdrop]⟩
        have hfull : cs.roots.length = Node2T.capacity := by
          have hle : cs.roots.length ≤ Node2T.capacity := hid.room
          refine le_antisymm hle (not_lt.mp fun hlt => hroom ⟨fun _ => by simpa using hlt, Forest.room_of_notMem hkey⟩)
        have hexit := newChild_exit hid hw hi (hcs.at_ne_of_mem_roots hkey) hfull
        rw [addFrom, addRules.addLoop_fork fuel hid hcs hw hh hne hkey, forkChild_of_end hlen]
        simp only [hexit, error_bind]
    · rw [if_neg hh] at hp hroom
      exact ihs hsib hp hf hroom

end SearchT

end InfixSearch
