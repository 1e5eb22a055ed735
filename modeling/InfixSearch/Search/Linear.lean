import InfixSearch.Search.Stored

/-!
# The nodes that `add` makes

`set_child` ignores a child with a value that another child has: a node that was made for it
would be lost. That is never so in a run of calls of `add`. `Node2T.withDuplicate` is the class
`node2_t` with anything else done there, were it to end the program, and the run is the same
(`adds_withDuplicate`). So every node made is at the head or below it, and as a call makes at most two,
there are at most two for each word, besides the head (`nodes_of_adds`).
-/

namespace InfixSearch

open Library

namespace Node2T

/-- `set_child`, with `duplicate` where it says that it ignores the request. -/
def setChildElse (duplicate : Node2T → Except Fault Node2T) (valOf : Ptr → Except Fault Byte) (n : Node2T) (val : Byte)
    (node : Ptr) : Except Fault Node2T := do
  let total ← n.data.read totalNeighborsIndex
  match ← findSlot valOf n.neighbors val (childSlots total) with
  | .free i => pure { n with neighbors := ← n.neighbors.write i (some node) }
  | .duplicate => duplicate n
  | .full =>
    let data ← n.data.write totalNeighborsIndex (total + 1)
    let neighbors ← reallocNeighbors n.neighbors (total + 1)
    let neighbors ← neighbors.write ((charToInt (total + 1)).toNat - 1) (some node)
    pure ⟨data, neighbors⟩

/-- `node2_t` with that `set_child`. -/
@[reducible] def withDuplicate (duplicate : Node2T → Except Fault Node2T) : NodeT Node2T :=
  { instNodeT with setChild := setChildElse duplicate }

/-- `node2_t` leaves the node as it is. -/
example : withDuplicate pure = instNodeT := rfl

variable {n : Node2T} {v : NodeView} {valOf : Ptr → Except Fault Byte} {vals : Ptr → Byte} {val : Byte}
  {duplicate : Node2T → Except Fault Node2T}

/-- With a value no child has. -/
theorem Shows.setChildElse_eq (h : n.Shows v) (hv : ∀ c ∈ v.children, valOf c = .ok (vals c))
    (hne : ∀ c ∈ v.children, vals c ≠ val) (c : Ptr) : setChildElse duplicate valOf n val c = setChild valOf n val c := by
  rw [setChildElse, setChild, h.read_total, ok_bind, ok_bind, h.findSlot_of_ne hv hne, ok_bind, ok_bind]
  split_ifs
  · rfl
  · rfl

/-- What ends there is below whatever else is done. -/
theorem setChildElse_below (e : Fault) (valOf : Ptr → Except Fault Byte) (n : Node2T) (val : Byte) (c : Ptr) :
    Below (setChildElse (fun _ => .error e) valOf n val c) (setChildElse duplicate valOf n val c) := by
  refine .bind (.refl _) fun total => .bind (.refl _) fun slot => ?_
  cases slot with
  | free i => exact .refl _
  | duplicate => exact .error _ _
  | full => exact .refl _

end Node2T

namespace SearchT

open Node2T

variable {s s' : SearchT Node2T} {T : Trie} {duplicate : Node2T → Except Fault Node2T}

/-! ### No child is ignored -/

theorem setChild_withDuplicate {p c : Ptr} {v : NodeView} {val : Byte} (hp : s.heap.At p v)
    (hv : ∀ d ∈ v.children, ∃ w, s.heap.At d w ∧ keyByte w.tail.head? ≠ val) :
    @setChild Node2T (withDuplicate duplicate) s p val c = s.setChild p val c := by
  obtain ⟨n, hn, hs⟩ := hp.deref
  have hvals := Heap.valD_ne hv
  have hn' : setChildElse duplicate s.heap.getVal n val c = Node2T.setChild s.heap.getVal n val c :=
    hs.setChildElse_eq (fun d hd => (hvals d hd).1) (fun d hd => (hvals d hd).2) c
  have hupdate : s.heap.update p (fun n => setChildElse duplicate s.heap.getVal n val c) =
      s.heap.update p fun n => Node2T.setChild s.heap.getVal n val c := by
    simp only [Heap.update, hn, ok_bind, hn']
  exact congrArg (· >>= fun h => Except.ok { s with heap := h }) hupdate

theorem setChild_withDuplicate_eq {p : Ptr} {t : Str} {leaf : Bool} {par : Option Ptr} {l : List Ptr} (val : Byte) (c : Ptr)
    (hp : s.heap.At p ⟨t, leaf, par, l⟩) (hv : ∀ d ∈ l, ∃ w, s.heap.At d w ∧ keyByte w.tail.head? ≠ val)
    (hroom : l.length < capacity) :
    ∃ s', @setChild Node2T (withDuplicate duplicate) s p val c = .ok s' ∧ s'.heap.At p ⟨t, leaf, par, l ++ [c]⟩ ∧
      s'.heap.length = s.heap.length ∧ Grows [p] s s' := by
  rw [setChild_withDuplicate hp hv]
  exact setChild_eq val hp hv hroom c

/-- The calls do the same to nodes that do something else with a duplicate child. -/
theorem callRules_withDuplicate (duplicate : Node2T → Except Fault Node2T) :
    @CallRules Node2T (withDuplicate duplicate) Heap.At Rep Grows capacity :=
  letI := withDuplicate duplicate
  { callRules with setChild := setChild_withDuplicate_eq }

section Below

variable (e : Fault)

theorem setChild_below (s : SearchT Node2T) (p : Ptr) (val : Byte) (c : Ptr) :
    Below (@setChild Node2T (withDuplicate fun _ => .error e) s p val c)
      (@setChild Node2T (withDuplicate duplicate) s p val c) :=
  .bind (.bind (.refl _) fun n => .bind (setChildElse_below e _ n val c) fun _ => .refl _) fun _ => .refl _

theorem moveChildren_below (old : Ptr) (nl : List Ptr) (s : SearchT Node2T) :
    Below (@moveChildren Node2T (withDuplicate fun _ => .error e) old nl s)
      (@moveChildren Node2T (withDuplicate duplicate) old nl s) := by
  induction nl generalizing s with
  | nil => exact .refl _
  | cons g nl ih =>
    exact .bind (.refl _) fun val => .bind (setChild_below e s old val g) fun s₁ => .bind (.refl _) fun s₂ => ih s₂

theorem splitTail_below (s : SearchT Node2T) (p : Ptr) (t : Str) (k : ℕ) :
    Below (@splitTail Node2T (withDuplicate fun _ => .error e) s p t k)
      (@splitTail Node2T (withDuplicate duplicate) s p t k) := by
  refine .bind (.refl _) fun s₁ => .bind (.refl _) ?_
  rintro ⟨s₂, old⟩
  refine .bind (.refl _) fun leaf => .bind (.refl _) fun s₃ => ?_
  refine .bind (.refl _) fun c => .bind (.refl _) fun s₄ => .bind (.refl _) fun s₅ => .bind (.refl _) fun s₆ => ?_
  refine .bind (.refl _) fun nl => ?_
  have hend : ∀ s₇, Below (@setIsLeaf Node2T (withDuplicate fun _ => .error e) s₇ p false >>= fun s₈ =>
      charAt t k >>= fun c => @setChild Node2T (withDuplicate fun _ => .error e) s₈ p c old)
      (@setIsLeaf Node2T (withDuplicate duplicate) s₇ p false >>= fun s₈ =>
        charAt t k >>= fun c => @setChild Node2T (withDuplicate duplicate) s₈ p c old) :=
    fun s₇ => .bind (.refl _) fun s₈ => .bind (.refl _) fun c => setChild_below e s₈ p c old
  dsimp only
  split_ifs
  · exact .bind (moveChildren_below e old nl s₆) fun s₇ => .bind (.refl _) fun s₇ => hend s₇
  · exact .bind (.refl _) fun s₇ => hend s₇

theorem newChild_below (s : SearchT Node2T) (word : Str) (p : Ptr) (i : ℕ) :
    Below (@newChild Node2T (withDuplicate fun _ => .error e) s word p i)
      (@newChild Node2T (withDuplicate duplicate) s word p i) := by
  refine .bind (.refl _) ?_
  rintro ⟨s₁, child⟩
  refine .bind (.refl _) fun c => .bind (.refl _) fun s₂ => .bind (.refl _) fun s₃ => ?_
  exact .bind (.refl _) fun s₄ => .bind (.refl _) fun c' => .bind (setChild_below e s₄ p c' child) fun s₅ => .refl _

theorem forkChild_below (s : SearchT Node2T) (word : Str) (p : Ptr) (t : Str) (k i : ℕ) :
    Below (@forkChild Node2T (withDuplicate fun _ => .error e) s word p t k i)
      (@forkChild Node2T (withDuplicate duplicate) s word p t k i) := by
  unfold forkChild
  dsimp only
  split_ifs
  · exact .bind (splitTail_below e s p t k) fun s₁ => newChild_below e s₁ word p i
  · exact .bind (.refl _) fun s₁ => newChild_below e s₁ word p i

theorem addLoop_below (word : Str) (fuel : ℕ) (s : SearchT Node2T) (p : Ptr) (i : ℕ) :
    Below (@addLoop Node2T (withDuplicate fun _ => .error e) word fuel s p i)
      (@addLoop Node2T (withDuplicate duplicate) word fuel s p i) := by
  induction fuel generalizing s p i with
  | zero => exact .refl _
  | succ fuel ih =>
    unfold addLoop
    split_ifs
    · refine .bind (.refl _) fun t => ?_
      dsimp only
      split_ifs
      · exact .refl _
      · refine .bind (.refl _) fun c => .bind (.refl _) fun o => ?_
        cases o with
        | some child =>
          refine .bind (.refl _) ?_
          rintro ⟨s₁, child⟩
          exact .bind (.refl _) fun s₂ => ih s₂ child _
        | none =>
          refine .bind (forkChild_below e s word p t _ _) ?_
          rintro ⟨s₁, child⟩
          exact .bind (.refl _) fun s₂ => ih s₂ child _
      · exact .refl _
    · exact .refl _

/-- A call that succeeds where a duplicate child ends it is the same whatever is done there. -/
theorem add_below (s : SearchT Node2T) (w : Str) :
    Below (@add Node2T (withDuplicate fun _ => .error e) s w) (@add Node2T (withDuplicate duplicate) s w) := by
  refine .bind (.refl _) ?_
  rintro ⟨s₁, head⟩
  refine .bind (addLoop_below e _ _ s₁ head 0) ?_
  rintro ⟨s₂, p⟩
  exact .refl _

end Below

/-- The loop of `add` runs to its end. -/
theorem addLoop_withDuplicate (duplicate : Node2T → Except Fault Node2T) (h : s.Holds T) {w : Str} (hw : NulFree w)
    (hroom : T.Room w) :
    ∃ s₁ q s₂, @addLoop Node2T (withDuplicate duplicate) (sentinel :: w) ((sentinel :: w).length + 1) s 0 0 = .ok (s₁, q) ∧
      s₁.setIsLeaf q true = .ok s₂ := by
  let node := withDuplicate duplicate
  have hw' : NulFree (sentinel :: w) := nulFree_cons.mpr ⟨by decide, hw⟩
  obtain ⟨s₁, q, s₂, e₁, e₂, -⟩ := (callRules_withDuplicate duplicate).addRules.addLoop_eq (i := 0) (p := 0) hw' h.rep
    T.tree_keyed h.owns.nodup rfl (show ((sentinel :: w).drop 0).length < (sentinel :: w).length + 1 by simp) hroom
  exact ⟨s₁, q, s₂, e₁, e₂⟩

/-- A call does the same whatever is done with a duplicate child: there is none. -/
theorem add_withDuplicate (h : s.Ready T) {w : Str} (hw : NulFree w) (hs : s.add w = .ok s') :
    @add Node2T (withDuplicate duplicate) s w = .ok s' := by
  have hroom : T.Room w := by
    by_contra hroom
    rw [add_exit h hw hroom] at hs
    cases hs
  obtain ⟨s₀, e₀, h₀, -⟩ := h.makeHead
  obtain ⟨s₁, q, s₂, e₁, e₂⟩ := addLoop_withDuplicate (fun _ => .error .exit) h₀ hw hroom
  -- the call runs to its end even where a duplicate child would end the program
  have hstrict : @add Node2T (withDuplicate fun _ => .error .exit) s w = .ok s₂ :=
    bind_eq_ok.mpr ⟨(s₀, 0), e₀, bind_eq_ok.mpr ⟨(s₁, q), e₁, e₂⟩⟩
  have hplain : s.add w = .ok s₂ := @add_below pure .exit s w s₂ hstrict
  rw [hplain, Except.ok.injEq] at hs
  exact hs ▸ add_below .exit s w s₂ hstrict

theorem adds_withDuplicate (h : s.Ready T) {ws : List Str} (hw : ∀ w ∈ ws, NulFree w) (hs : s.adds ws = .ok s') :
    @adds Node2T (withDuplicate duplicate) s ws = .ok s' := by
  induction ws generalizing s T with
  | nil => exact hs
  | cons w ws ih =>
    rw [adds, bind_eq_ok] at hs
    obtain ⟨s₁, e₁, e₂⟩ := hs
    have h₁ := h.holds_of_add (hw w List.mem_cons_self) e₁
    exact bind_eq_ok.mpr ⟨s₁, add_withDuplicate h (hw w List.mem_cons_self) e₁,
      ih (.inr h₁) (fun x hx => hw x (List.mem_cons_of_mem _ hx)) e₂⟩

/-! ### No node is lost -/

/-- The node `p` is the head or below it. -/
def Reaches {N : Type} [NodeT N] (s : SearchT N) (p : Ptr) : Prop :=
  ∃ head, s.head = some head ∧ Relation.ReflTransGen s.Child head p

/-- Every node made is reached. -/
theorem Holds.reaches_iff (h : s.Holds T) {p : Ptr} : s.Reaches p ↔ p < s.heap.length := by
  have hbelow : s.Reaches p ↔ p ∈ T.tree.ids := by
    have htree : T.tree.ids = 0 :: T.forest.ids := by simp [Trie.tree, Forest.ids]
    rw [htree, List.mem_cons, ← h.transGen_child_iff T.head_mem_sites, ← Relation.reflTransGen_iff_eq_or_transGen]
    simp [Reaches, h.head]
  rw [hbelow, h.owns.mem_iff, List.mem_range]

/-- `node_count` counts what is reached. -/
theorem Ready.encard_reaches (h : s.Ready T) : {p | s.Reaches p}.encard = s.nodeCount := by
  rcases h with ⟨hhead, -, hcount, -⟩ | h
  · have hempty : {p | s.Reaches p} = ∅ := by
      ext p
      simp [Reaches, hhead]
    rw [hempty, hcount, Set.encard_empty, Nat.cast_zero]
  · have hrange : {p | s.Reaches p} = (Finset.range s.heap.length : Set Ptr) := by
      ext p
      simp [h.reaches_iff]
    rw [hrange, Set.encard_coe_eq_coe_finsetCard, Finset.card_range, h.count]

theorem Ready.size_eq (h : s.Ready T) : T.size = max s.nodeCount 1 := by
  rcases h with ⟨-, -, hcount, rfl⟩ | h
  · rw [hcount]
    rfl
  · have hsize := h.owns.size
    have hpos : 0 < T.size := by simp [Trie.size]
    have := h.count
    omega

/-- **No node is lost, and there are at most two for each word.** After calls of `add` that do not
exit, `node_count` is the number of nodes that are reached from the head; whatever `set_child` did
with a duplicate child, the run would be the same; a call makes at most two nodes beyond the head. -/
theorem nodes_of_adds {ws : List Str} (hw : ∀ w ∈ ws, NulFree w) (hexit : fresh.adds ws ≠ .error .exit) :
    ∃ s, fresh.adds ws = .ok s ∧ {p | s.Reaches p}.encard = s.nodeCount ∧
      (∀ duplicate, @adds Node2T (withDuplicate duplicate) fresh ws = .ok s) ∧
      (∀ us w, us ++ [w] <+: ws → ∃ s₁ s₂, fresh.adds us = .ok s₁ ∧ s₁.add w = .ok s₂ ∧
        s₂.nodeCount ≤ max s₁.nodeCount 1 + 2) ∧
      s.nodeCount ≤ 2 * ws.length + 1 := by
  obtain ⟨s, hs, hready, -⟩ := adds_of_not_exit ready_fresh hw hexit
  refine ⟨s, hs, hready.encard_reaches, fun duplicate => adds_withDuplicate ready_fresh hw hs, ?_, ?_⟩
  · rintro us w ⟨vs, rfl⟩
    rw [adds_append, adds_concat, bind_eq_ok] at hs
    obtain ⟨s₂, e, -⟩ := hs
    obtain ⟨s₁, e₁, e₂⟩ := bind_eq_ok.mp e
    have h₁ := ready_of_adds (fun x hx => hw x (by simp [hx])) e₁
    have h₂ := h₁.holds_of_add (hw w (by simp)) e₂
    refine ⟨s₁, s₂, e₁, e₂, ?_⟩
    have hadd := (Trie.empty.adds us).size_add_le w
    rw [h₁.size_eq, h₂.owns.size, ← h₂.count] at hadd
    exact hadd
  · have hsize := Trie.empty.size_adds_le ws
    rw [hready.size_eq, show Trie.empty.size = 1 from rfl] at hsize
    omega

theorem nodes_of_adds_ab_ac : ∃ s, fresh.adds [ascii "ab", ascii "ac"] = .ok s ∧ {p | s.Reaches p}.encard = s.nodeCount ∧
    s.nodeCount ≤ 5 := by
  obtain ⟨s', hs', -⟩ := adds_of_isOk [ascii "ab", ascii "ac"] (by decide) (by decide +kernel)
  obtain ⟨s, hs, hreaches, -, -, hcount⟩ := nodes_of_adds (show ∀ w ∈ [ascii "ab", ascii "ac"], NulFree w by decide)
    (by rw [hs']; exact fun h => nomatch h)
  exact ⟨s, hs, hreaches, hcount⟩

end SearchT

end InfixSearch
