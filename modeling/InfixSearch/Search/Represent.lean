import InfixSearch.Node.Shows
import InfixSearch.Search.Model
import InfixSearch.Library.ForestInsert

/-!
# The heap represents a forest

`Rep h par F`: the nodes of the heap `h` that the forest `F` names show what `F`
says of them, and the roots of `F` have the parent `par`. A forest names each
node once, so what changes the nodes named by one part of it leaves the others
alone (`Rep.frame`).

The rules of `Node2T.Shows` are lifted here to the calls through pointers.
-/

namespace InfixSearch

open Library

/-- The node `p` shows `v`. -/
def Heap.At (h : Heap Node2T) (p : Ptr) (v : NodeView) : Prop := ∃ n, h[p]? = some n ∧ n.Shows v

/-- The heap represents the forest, under the parent `par`. -/
def Rep (h : Heap Node2T) : Option Ptr → Forest Ptr Byte → Prop
  | _, .nil => True
  | par, .node id t leaf cs sib => h.At id ⟨t, leaf, par, cs.roots⟩ ∧ Rep h (some id) cs ∧ Rep h par sib

/-- The nodes of `h` other than those in `touched` are the same in `h'`. -/
def Frame (touched : List Ptr) (h h' : Heap Node2T) : Prop :=
  h.length ≤ h'.length ∧ ∀ q < h.length, q ∉ touched → h'[q]? = h[q]?

namespace Frame

theorem refl (l : List Ptr) (h : Heap Node2T) : Frame l h h := ⟨le_rfl, fun _ _ _ => rfl⟩

theorem trans {l : List Ptr} {h h' h'' : Heap Node2T} (f : Frame l h h') (f' : Frame l h' h'') : Frame l h h'' :=
  ⟨f.1.trans f'.1, fun q hq hl => (f'.2 q (Nat.lt_of_lt_of_le hq f.1) hl).trans (f.2 q hq hl)⟩

theorem mono {l l' : List Ptr} {h h' : Heap Node2T} (f : Frame l h h') (hl : l ⊆ l') : Frame l' h h' :=
  ⟨f.1, fun q hq hn => f.2 q hq fun hm => hn (hl hm)⟩

theorem append (h : Heap Node2T) (n : Node2T) : Frame [] h (h ++ [n]) :=
  ⟨by simp, fun q hq _ => by rw [List.getElem?_append_left hq]⟩

end Frame

/-! ### Reading through a pointer -/

namespace Heap.At

variable {h h' : Heap Node2T} {p : Ptr} {v : NodeView}

theorem lt (hp : h.At p v) : p < h.length := by
  obtain ⟨n, hn, -⟩ := hp
  exact (List.getElem?_eq_some_iff.mp hn).1

theorem deref (hp : h.At p v) : ∃ n, h.deref p = .ok n ∧ n.Shows v := by
  obtain ⟨n, hn, hs⟩ := hp
  exact ⟨n, by simp [Heap.deref, hn], hs⟩

theorem getTail (hp : h.At p v) : h.getTail p = .ok v.tail := by
  obtain ⟨n, hn, hs⟩ := hp.deref
  rw [Heap.getTail, hn]; exact hs.getTail_eq

theorem getVal (hp : h.At p v) : h.getVal p = .ok (v.tail.headD 0) := by
  obtain ⟨n, hn, hs⟩ := hp.deref
  rw [Heap.getVal, hn]; exact hs.getVal_eq

theorem getIsLeaf (hp : h.At p v) : h.getIsLeaf p = .ok v.leaf := by
  obtain ⟨n, hn, hs⟩ := hp.deref
  rw [Heap.getIsLeaf, hn]; exact hs.getIsLeaf_eq

theorem getParent (hp : h.At p v) : h.getParent p = .ok v.parent := by
  obtain ⟨n, hn, hs⟩ := hp.deref
  rw [Heap.getParent, hn]; exact hs.getParent_eq

theorem getChildren (hp : h.At p v) : h.getChildren p = .ok v.children := by
  obtain ⟨n, hn, hs⟩ := hp.deref
  rw [Heap.getChildren, hn]; exact hs.getChildren_eq

theorem nulFree (hp : h.At p v) : NulFree v.tail := by
  obtain ⟨n, -, hs⟩ := hp
  exact hs.nulFree

theorem room (hp : h.At p v) : v.children.length ≤ Node2T.capacity := by
  obtain ⟨n, -, hs⟩ := hp
  exact hs.room

theorem frame {l : List Ptr} (hp : h.At p v) (f : Frame l h h') (hl : p ∉ l) : h'.At p v := by
  obtain ⟨n, hn, hs⟩ := id hp
  exact ⟨n, by rw [f.2 p hp.lt hl, hn], hs⟩

/-- A node shows one thing. -/
theorem unique {w : NodeView} (hp : h.At p v) (hp' : h.At p w) : v = w := by
  have h1 := hp.getTail.symm.trans hp'.getTail
  have h2 := hp.getIsLeaf.symm.trans hp'.getIsLeaf
  have h3 := hp.getParent.symm.trans hp'.getParent
  have h4 := hp.getChildren.symm.trans hp'.getChildren
  rw [Except.ok.injEq] at h1 h2 h3 h4
  exact NodeView.ext h1 h2 h3 h4

/-! ### Writing through a pointer -/

/-- A call that changes what a node shows from `v` to `v'`. -/
theorem update {f : Node2T → Except Fault Node2T} {v' : NodeView} (hp : h.At p v)
    (hf : ∀ n : Node2T, n.Shows v → ∃ n', f n = .ok n' ∧ n'.Shows v') :
    ∃ h', h.update p f = .ok h' ∧ h'.At p v' ∧ h'.length = h.length ∧ Frame [p] h h' := by
  obtain ⟨n, hn, hs⟩ := id hp
  obtain ⟨n', hn', hs'⟩ := hf n hs
  have hd : h.deref p = .ok n := by simp [Heap.deref, hn]
  refine ⟨h.set p n', by simp [Heap.update, hd, hn'], ⟨n', ?_, hs'⟩, by simp, by simp, ?_⟩
  · simp [hp.lt]
  · intro q _ hq
    rw [List.getElem?_set_ne fun he => hq (by simp [he])]

/-- A call that changes nothing. -/
theorem update_same {f : Node2T → Except Fault Node2T} (hp : h.At p v) (hf : ∀ n : Node2T, n.Shows v → f n = .ok n) :
    h.update p f = .ok h := by
  obtain ⟨n, hn, hs⟩ := hp
  have hd : h.deref p = .ok n := by simp [Heap.deref, hn]
  obtain ⟨hlt, rfl⟩ := List.getElem?_eq_some_iff.mp hn
  rw [Heap.update, hd, ok_bind, hf _ hs, ok_bind, List.set_getElem_self, pure_ok]

end Heap.At

/-- A new node at the end of the heap. -/
theorem Heap.at_append {h : Heap Node2T} {n : Node2T} {v : NodeView} (hn : n.Shows v) : Heap.At (h ++ [n]) h.length v :=
  ⟨n, by simp, hn⟩

namespace Rep

variable {h h' : Heap Node2T} {par : Option Ptr} {F : Forest Ptr Byte}

theorem lt (hr : Rep h par F) : ∀ q ∈ F.ids, q < h.length := by
  induction F generalizing par with
  | nil => simp [Forest.ids]
  | node id t leaf cs sib ihc ihs =>
    obtain ⟨ha, hc, hs⟩ := hr
    intro q hq
    simp only [Forest.ids, List.mem_cons, List.mem_append] at hq
    rcases hq with rfl | hq | hq
    · exact ha.lt
    · exact ihc hc q hq
    · exact ihs hs q hq

/-- What does not touch the nodes of a forest leaves it as it is. -/
theorem frame {l : List Ptr} (hr : Rep h par F) (f : Frame l h h') (hl : ∀ q ∈ F.ids, q ∉ l) : Rep h' par F := by
  induction F generalizing par with
  | nil => trivial
  | node id t leaf cs sib ihc ihs =>
    obtain ⟨ha, hc, hs⟩ := hr
    simp only [Forest.ids, List.mem_cons, List.mem_append, forall_eq_or_imp] at hl
    exact ⟨ha.frame f hl.1, ihc hc fun q hq => hl.2 q (.inl hq), ihs hs fun q hq => hl.2 q (.inr hq)⟩

/-- A heap that shows the same represents the same. -/
theorem of_at (hr : Rep h par F) (hv : ∀ q v, h.At q v → h'.At q v) : Rep h' par F := by
  induction F generalizing par with
  | nil => trivial
  | node id t leaf cs sib ihc ihs =>
    obtain ⟨ha, hc, hs⟩ := hr
    exact ⟨hv _ _ ha, ihc hc, ihs hs⟩

/-- A word whose key is not there yet is inserted as a new root. -/
theorem insert_of_notMem {a b : Ptr} {r : Str} (hr : Rep h par F) (hk : r.head? ∉ F.keys)
    (ha : h.At a ⟨r, true, par, []⟩) : Rep h par (F.insert a b r) := by
  induction F with
  | nil => exact ⟨ha, trivial, trivial⟩
  | node id t leaf cs sib _ ihs =>
    obtain ⟨hid, hc, hs⟩ := hr
    rw [Forest.keys, List.mem_cons, not_or] at hk
    rw [Forest.insert_skip _ _ _ _ _ _ _ _ (Ne.symm hk.1)]
    exact ⟨hid, hc, ihs hs hk.2⟩

/-- Where a site of the forest is in the heap. -/
theorem site {u : Str} {S : Forest.Site Ptr Byte} (hr : Rep h par F) (hS : S ∈ F.sites u) :
    ∃ q, h.At S.id ⟨S.tail, S.leaf, q, S.children.roots⟩ ∧ Rep h (some S.id) S.children := by
  induction F generalizing par u with
  | nil => simp [Forest.sites] at hS
  | node id t leaf cs sib ihc ihs =>
    obtain ⟨ha, hc, hs⟩ := hr
    rw [Forest.mem_sites_node] at hS
    rcases hS with rfl | hS | hS
    · exact ⟨par, ha, hc⟩
    · exact ihc hc hS
    · exact ihs hs hS

/-- The root with a given key. -/
theorem at_of_rootOf {k : Option Byte} {c : Ptr} (hr : Rep h par F) (hc : F.rootOf k = some c) :
    ∃ v, h.At c v ∧ v.tail.head? = k ∧ v.parent = par := by
  induction F with
  | nil => simp [Forest.rootOf] at hc
  | node id t leaf cs sib _ ihs =>
    obtain ⟨ha, -, hs⟩ := hr
    simp only [Forest.rootOf] at hc
    split_ifs at hc with hk
    · rw [Option.some.injEq] at hc
      subst hc
      exact ⟨_, ha, hk, rfl⟩
    · exact ihs hs hc

/-- The roots show the keys. -/
theorem at_of_mem_roots {c : Ptr} (hr : Rep h par F) (hc : c ∈ F.roots) :
    ∃ v, h.At c v ∧ v.tail.head? ∈ F.keys ∧ v.parent = par := by
  induction F with
  | nil => simp [Forest.roots] at hc
  | node id t leaf cs sib _ ihs =>
    obtain ⟨ha, -, hs⟩ := hr
    rw [Forest.roots, List.mem_cons] at hc
    rcases hc with rfl | hc
    · exact ⟨_, ha, List.mem_cons_self, rfl⟩
    · obtain ⟨v, hv, hk, hp⟩ := ihs hs hc
      exact ⟨v, hv, List.mem_cons_of_mem _ hk, hp⟩

/-- The roots do not show a key that there is not. -/
theorem at_ne_of_mem_roots {k : Option Byte} (hr : Rep h par F) (hk : k ∉ F.keys) :
    ∀ c ∈ F.roots, ∃ v, h.At c v ∧ v.tail.head? ≠ k := by
  intro c hc
  obtain ⟨v, hv, hkey, -⟩ := hr.at_of_mem_roots hc
  exact ⟨v, hv, fun he => hk (he ▸ hkey)⟩

end Rep

/-! ### Keys and bytes -/

/-- The byte a key is looked up by: NUL for the end of the word. -/
def keyByte (k : Option Byte) : Byte := k.getD 0

theorem headD_eq_keyByte (s : Str) : s.headD 0 = keyByte s.head? := by cases s <;> rfl

/-- NUL-free words have the same key when they have the same byte. -/
theorem keyByte_inj {s t : Str} (hs : NulFree s) (ht : NulFree t) : keyByte s.head? = keyByte t.head? ↔ s.head? = t.head? := by
  refine ⟨fun h => ?_, fun h => by rw [h]⟩
  cases s with
  | nil =>
    cases t with
    | nil => rfl
    | cons d t => rw [nulFree_cons] at ht; exact absurd h.symm ht.1
  | cons c s =>
    rw [nulFree_cons] at hs
    cases t with
    | nil => exact absurd h hs.1
    | cons d t => simpa [keyByte] using h

theorem charAt_eq {w : Str} {i : ℕ} (h : i ≤ w.length) : charAt w i = .ok (keyByte (w.drop i).head?) := by
  unfold charAt
  split_ifs with hlt heq
  · rw [List.drop_eq_getElem_cons hlt]; rfl
  · rw [List.drop_eq_nil_of_le (by omega)]; rfl
  · omega

/-- Characters with the same byte, neither of them NUL, are the same. -/
theorem keyByte_inj_of_ne {j k : Option Byte} (hj : j ≠ some 0) (hk : k ≠ some 0) : keyByte j = keyByte k ↔ j = k := by
  cases j <;> cases k <;> simp_all [keyByte, eq_comm]

/-- No key of a forest in the heap is NUL. -/
theorem Rep.key_ne {h : Heap Node2T} {par : Option Ptr} {F : Forest Ptr Byte} (hr : Rep h par F) {k : Option Byte}
    (hk : k ∈ F.keys) : k ≠ some 0 := by
  induction F with
  | nil => simp [Forest.keys] at hk
  | node id t leaf cs sib _ ihs =>
    obtain ⟨hid, -, hs⟩ := hr
    rw [Forest.keys, List.mem_cons] at hk
    rcases hk with rfl | hk
    · intro h0
      exact hid.nulFree (List.mem_of_mem_head? h0)
    · exact ihs hs hk

/-- The value a pointer shows, for pointers that show one. -/
def Heap.valD (h : Heap Node2T) (c : Ptr) : Byte := (h.getVal c).toOption.getD 0

theorem Heap.At.valD {h : Heap Node2T} {c : Ptr} {v : NodeView} (hc : h.At c v) :
    h.getVal c = .ok (h.valD c) ∧ h.valD c = keyByte v.tail.head? := by
  simp [Heap.valD, hc.getVal, Except.toOption, keyByte]

/-- `get_child` finds the root with the key. -/
theorem Rep.getChild {h : Heap Node2T} {p : Ptr} {t : Str} {leaf : Bool} {par : Option Ptr} {cs : Forest Ptr Byte}
    {r : Str} (hp : h.At p ⟨t, leaf, par, cs.roots⟩) (hc : Rep h (some p) cs) (hr : NulFree r) :
    h.getChild p (keyByte r.head?) = .ok (cs.rootOf r.head?) := by
  obtain ⟨n, hn, hs⟩ := hp.deref
  have hv : ∀ c ∈ cs.roots, h.getVal c = .ok (h.valD c) := by
    intro c hm
    obtain ⟨v, hv, -⟩ := hc.at_of_mem_roots hm
    exact hv.valD.1
  rw [Heap.getChild, hn, ok_bind]
  show Node2T.getChild h.getVal n (keyByte r.head?) = _
  rw [hs.getChild_eq _ hv]
  congr 1
  clear hv hs hp
  induction cs with
  | nil => rfl
  | node id t' leaf' cs' sib' _ ihs =>
    obtain ⟨ha, -, hsib⟩ := hc
    simp only [Forest.roots, Forest.rootOf, List.find?_cons, ha.valD.2, keyByte_inj ha.nulFree hr]
    by_cases hk : t'.head? = r.head?
    · simp [hk]
    · simpa [hk] using ihs hsib

/-- Children that show other keys have other values. -/
theorem Heap.valD_ne {h : Heap Node2T} {l : List Ptr} {val : Byte} (hv : ∀ d ∈ l, ∃ w, h.At d w ∧ keyByte w.tail.head? ≠ val) :
    ∀ d ∈ l, h.getVal d = .ok (h.valD d) ∧ h.valD d ≠ val := by
  intro d hd
  obtain ⟨w, hw, hne⟩ := hv d hd
  exact ⟨hw.valD.1, hw.valD.2 ▸ hne⟩

/-- `set_child` with a value no child has. -/
theorem Heap.At.setChild {h : Heap Node2T} {p c : Ptr} {v : NodeView} {val : Byte} (hp : h.At p v)
    (hv : ∀ d ∈ v.children, ∃ w, h.At d w ∧ keyByte w.tail.head? ≠ val) (hroom : v.children.length < Node2T.capacity) :
    ∃ h', h.setChild p val c = .ok h' ∧ h'.At p { v with children := v.children ++ [c] } ∧
      h'.length = h.length ∧ Frame [p] h h' := by
  have hvals := Heap.valD_ne hv
  exact hp.update fun n hn => hn.setChild_eq (fun d hd => (hvals d hd).1) (fun d hd => (hvals d hd).2) hroom c

/-- `set_child` on a full node. -/
theorem Heap.At.setChild_exit {h : Heap Node2T} {p c : Ptr} {v : NodeView} {val : Byte} (hp : h.At p v)
    (hv : ∀ d ∈ v.children, ∃ w, h.At d w ∧ keyByte w.tail.head? ≠ val) (hfull : v.children.length = Node2T.capacity) :
    h.setChild p val c = .error .exit := by
  obtain ⟨n, hn, hs⟩ := hp.deref
  have hvals := Heap.valD_ne hv
  have := hs.setChild_exit (fun d hd => (hvals d hd).1) (fun d hd => (hvals d hd).2) hfull c
  rw [Heap.setChild, Heap.update, hn, ok_bind]
  exact congrArg (· >>= fun n => Except.ok (h.set p n)) this

end InfixSearch
