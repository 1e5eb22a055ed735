import InfixSearch.Node.Plain
import InfixSearch.Search.Trie

/-!
# The trie of plain nodes

With plain nodes `add` builds the same trie as with packed ones: a heap of plain nodes
represents a forest (`RepPlain`) as a heap of packed nodes does (`Rep`), and `add` inserts
into it (`Plain.add_eq`). Where the node classes differ `add` does not let them: it enters no
child under a character that has one already, it sets the value of a node to the first
byte of the tail that it sets next, and it clears the leaf flag of a node before the node is
indexed. So the two tries are isomorphic (`isomorphism_of_adds`).
-/

namespace InfixSearch

open Library

/-! ### Keys -/

/-- The key that a byte looks up: the end of the word for NUL. -/
def byteKey (b : Byte) : Option Byte := if b = 0 then none else some b

theorem byteKey_keyByte {k : Option Byte} (h : k ≠ some 0) : byteKey (keyByte k) = k := by
  cases k with
  | none => rfl
  | some b => exact if_neg fun hb => h (congrArg some hb)

theorem keyByte_byteKey (b : Byte) : keyByte (byteKey b) = b := by
  rw [byteKey]
  split_ifs with h
  · exact h.symm
  · rfl

theorem Library.NulFree.head?_ne {t : Str} (h : NulFree t) : t.head? ≠ some 0 := by
  intro h0
  exact h (List.mem_of_head? h0)

/-! ### Representation -/

/-- The node for a tree. -/
def plainNode (t : Str) (leaf : Bool) (par : Option Ptr) (cs : Forest Ptr Byte) : Node1T :=
  ⟨keyByte t.head?, leaf, false, par, t, fun b => cs.rootOf (byteKey b)⟩

theorem plainNode_congr {t : Str} {leaf : Bool} {par : Option Ptr} {F G : Forest Ptr Byte}
    (h : ∀ k, F.rootOf k = G.rootOf k) : plainNode t leaf par F = plainNode t leaf par G := by
  simp only [plainNode, h]

/-- The heap represents the forest, under the parent given. -/
def RepPlain (h : Heap Node1T) : Option Ptr → Forest Ptr Byte → Prop
  | _, .nil => True
  | par, .node id t leaf cs sib =>
    (h[id]? = some (plainNode t leaf par cs) ∧ NulFree t) ∧ RepPlain h (some id) cs ∧ RepPlain h par sib

namespace RepPlain

variable {h h' : Heap Node1T} {par : Option Ptr} {F : Forest Ptr Byte}

theorem lt (hr : RepPlain h par F) : ∀ q ∈ F.ids, q < h.length := by
  induction F generalizing par with
  | nil => simp [Forest.ids]
  | node id t leaf cs sib ihc ihs =>
    obtain ⟨ha, hc, hs⟩ := hr
    intro q hq
    simp only [Forest.ids, List.mem_cons, List.mem_append] at hq
    rcases hq with rfl | hq | hq
    · exact (List.getElem?_eq_some_iff.mp ha.1).1
    · exact ihc hc q hq
    · exact ihs hs q hq

/-- What leaves the nodes of a forest leaves the forest. -/
theorem keep (hr : RepPlain h par F) (hkeep : ∀ q ∈ F.ids, h'[q]? = h[q]?) : RepPlain h' par F := by
  induction F generalizing par with
  | nil => trivial
  | node id t leaf cs sib ihc ihs =>
    obtain ⟨⟨ha, ht⟩, hc, hs⟩ := hr
    simp only [Forest.ids, List.mem_cons, List.mem_append, forall_eq_or_imp] at hkeep
    exact ⟨⟨hkeep.1.trans ha, ht⟩, ihc hc fun q hq => hkeep.2 q (.inl hq), ihs hs fun q hq => hkeep.2 q (.inr hq)⟩

/-- The roots get another parent. -/
theorem reparent {par' : Option Ptr} (hr : RepPlain h par F) (hn : F.ids.Nodup)
    (hroots : ∀ c ∈ F.roots, ∀ n, h[c]? = some n → h'[c]? = some { n with parent := par' })
    (hkeep : ∀ q ∈ F.ids, q ∉ F.roots → h'[q]? = h[q]?) : RepPlain h' par' F := by
  induction F with
  | nil => trivial
  | node id t leaf cs sib _ ihs =>
    obtain ⟨⟨ha, ht⟩, hc, hs⟩ := hr
    simp only [Forest.ids, List.nodup_cons, List.mem_append, not_or, List.nodup_append] at hn
    obtain ⟨⟨hic, his⟩, -, hns, hdis⟩ := hn
    simp only [Forest.ids, Forest.roots, List.mem_cons, List.mem_append, not_or] at hroots hkeep
    refine ⟨⟨hroots id (.inl rfl) _ ha, ht⟩, hc.keep ?_, ihs hs hns (fun c hm => hroots c (.inr hm)) ?_⟩
    · intro q hq
      refine hkeep q (.inr (.inl hq)) ⟨fun e => hic (e ▸ hq), ?_⟩
      intro hm
      exact hdis q hq q (Forest.roots_subset_ids _ hm) rfl
    · intro q hq hm
      exact hkeep q (.inr (.inr hq)) ⟨fun e => his (e ▸ hq), hm⟩

/-- The root with a given key. -/
theorem of_rootOf {k : Option Byte} {c : Ptr} (hr : RepPlain h par F) (hc : F.rootOf k = some c) :
    ∃ n, h[c]? = some n ∧ n.val = keyByte k ∧ n.parent = par ∧ n.tail.head? = k ∧ NulFree n.tail := by
  induction F with
  | nil => simp [Forest.rootOf] at hc
  | node id t leaf cs sib _ ihs =>
    obtain ⟨⟨ha, ht⟩, -, hs⟩ := hr
    rw [Forest.rootOf] at hc
    split_ifs at hc with hk
    · obtain rfl := Option.some.inj hc
      subst hk
      exact ⟨_, ha, rfl, rfl, rfl, ht⟩
    · exact ihs hs hc

end RepPlain

namespace SearchT

namespace Plain

/-- What a step leaves alone: the nodes not listed, and the head. -/
structure Grows (touched : List Ptr) (s s' : SearchT Node1T) : Prop where
  /-- No node is taken away. -/
  length : s.heap.length ≤ s'.heap.length
  /-- The other nodes. -/
  keep : ∀ q, q ∉ touched → q < s.heap.length → s'.heap[q]? = s.heap[q]?
  /-- The head. -/
  head : s'.head = s.head

namespace Grows

theorem refl (l : List Ptr) (s : SearchT Node1T) : Grows l s s := ⟨le_rfl, fun _ _ _ => rfl, rfl⟩

theorem trans {l : List Ptr} {s s' s'' : SearchT Node1T} (g : Grows l s s') (g' : Grows l s' s'') : Grows l s s'' where
  length := g.length.trans g'.length
  keep q hq hlt := (g'.keep q hq (hlt.trans_le g.length)).trans (g.keep q hq hlt)
  head := g'.head.trans g.head

theorem mono {l l' : List Ptr} {s s' : SearchT Node1T} (g : Grows l s s') (hl : ∀ q ∈ l, q < s.heap.length → q ∈ l') :
    Grows l' s s' :=
  ⟨g.length, fun q hq hlt => g.keep q (fun hm => hq (hl q hm hlt)) hlt, g.head⟩

end Grows

variable {s : SearchT Node1T} {p : Ptr} {n n' : Node1T}

theorem deref_eq {h : Heap Node1T} (hp : h[p]? = some n) : h.deref p = .ok n := by rw [Heap.deref, hp]

/-- A call that changes a node. -/
theorem onNode_eq {f : Node1T → Except Fault Node1T} (hp : s.heap[p]? = some n) (hf : f n = .ok n') :
    s.onNode p f = .ok { s with heap := s.heap.set p n' } := by
  rw [onNode, Heap.update, deref_eq hp, ok_bind, hf]
  rfl

/-- A call that changes nothing. -/
theorem onNode_same {f : Node1T → Except Fault Node1T} (hp : s.heap[p]? = some n) (hf : f n = .ok n) : s.onNode p f = .ok s := by
  obtain ⟨hlt, rfl⟩ := List.getElem?_eq_some_iff.mp hp
  rw [onNode_eq hp hf, List.set_getElem_self]

/-- A call that changes the node made last. -/
theorem onNode_last {f : Node1T → Except Fault Node1T} (s : SearchT Node1T) (h : Heap Node1T) (hf : f n = .ok n') :
    SearchT.onNode { s with heap := h ++ [n] } h.length f = .ok { s with heap := h ++ [n'] } := by
  rw [onNode_eq (List.getElem?_concat_length) hf]
  simp

theorem getElem?_set {h : Heap Node1T} (hp : h[p]? = some n) : (h.set p n')[p]? = some n' :=
  List.getElem?_set_self (List.getElem?_eq_some_iff.mp hp).1

theorem grows_set (s : SearchT Node1T) (p : Ptr) (n' : Node1T) : Grows [p] s { s with heap := s.heap.set p n' } :=
  ⟨by simp, fun q hq _ => List.getElem?_set_ne fun e => hq (List.mem_singleton.mpr e.symm), rfl⟩

theorem setChild_eq (hp : s.heap[p]? = some n) (val : Byte) (c : Ptr) :
    s.setChild p val c = .ok { s with heap := s.heap.set p (n.setChild val c) } := by
  rw [setChild, Heap.setChild, Heap.update, deref_eq hp]
  rfl

theorem getVal_eq {h : Heap Node1T} (hp : h[p]? = some n) : h.getVal p = .ok n.val := by
  rw [Heap.getVal, deref_eq hp]
  rfl

theorem getIsLeaf_eq {h : Heap Node1T} (hp : h[p]? = some n) : h.getIsLeaf p = .ok n.isLeaf := by
  rw [Heap.getIsLeaf, deref_eq hp]
  rfl

theorem getTail_eq {h : Heap Node1T} (hp : h[p]? = some n) : h.getTail p = .ok n.tail := by
  rw [Heap.getTail, deref_eq hp]
  rfl

theorem getParent_eq {h : Heap Node1T} (hp : h[p]? = some n) : h.getParent p = .ok n.parent := by
  rw [Heap.getParent, deref_eq hp]
  rfl

theorem getChildren_eq {h : Heap Node1T} (hp : h[p]? = some n) : h.getChildren p = .ok n.getChildren := by
  rw [Heap.getChildren, deref_eq hp]
  rfl

theorem getChild_eq {h : Heap Node1T} (hp : h[p]? = some n) (val : Byte) : h.getChild p val = .ok (n.childMap val) := by
  rw [Heap.getChild, deref_eq hp]
  exact congrArg Except.ok (n.getChild_eq val)

/-- The nodes are entered one after the other, each under its value. -/
def enter (vals : Ptr → Byte) (l : List Ptr) (m : NodeMapT) : NodeMapT :=
  l.foldl (fun m c => Function.update m (vals c) (some c)) m

theorem enter_of_notMem {vals : Ptr → Byte} {l : List Ptr} {m : NodeMapT} {b : Byte} (h : ∀ c ∈ l, vals c ≠ b) :
    enter vals l m b = m b := by
  induction l generalizing m with
  | nil => rfl
  | cons c l ih =>
    rw [List.forall_mem_cons] at h
    rw [enter, List.foldl_cons, ← enter, ih h.2, Function.update_of_ne (Ne.symm h.1)]

theorem enter_of_mem {vals : Ptr → Byte} {l : List Ptr} {m : NodeMapT} {c : Ptr} (hc : c ∈ l)
    (huniq : ∀ d ∈ l, vals d = vals c → d = c) : enter vals l m (vals c) = some c := by
  induction l generalizing m with
  | nil => cases hc
  | cons d l ih =>
    rw [enter, List.foldl_cons, ← enter]
    rw [List.forall_mem_cons] at huniq
    by_cases hm : c ∈ l
    · exact ih hm huniq.2
    · obtain rfl := (List.mem_cons.mp hc).resolve_right hm
      rw [enter_of_notMem fun d hd he => hm (huniq.2 d hd he ▸ hd), Function.update_self]

/-- All children of a map are entered into an empty one. -/
theorem enter_children {vals : Ptr → Byte} {m : NodeMapT} (h : ∀ b c, m b = some c → vals c = b) :
    enter vals (chars.filterMap m) (fun _ => none) = m := by
  funext b
  cases hb : m b with
  | none =>
    refine enter_of_notMem ?_
    intro c hc he
    obtain ⟨b', -, hb'⟩ := List.mem_filterMap.mp hc
    obtain rfl := (h b' c hb').symm.trans he
    rw [hb] at hb'
    cases hb'
  | some c =>
    have hval := h b c hb
    subst hval
    refine enter_of_mem (List.mem_filterMap.mpr ⟨_, mem_chars _, hb⟩) ?_
    intro d hd he
    obtain ⟨b', -, hb'⟩ := List.mem_filterMap.mp hd
    obtain rfl := (h b' d hb').symm.trans he
    exact Option.some.inj (hb'.symm.trans hb)

/-- The children of a split node are moved under the lower half. -/
theorem moveChildren_eq {old : Ptr} {o : Node1T} (vals : Ptr → Byte) {l : List Ptr} (hold : s.heap[old]? = some o)
    (hl : ∀ c ∈ l, c ≠ old ∧ ∃ n, s.heap[c]? = some n ∧ n.val = vals c) :
    ∃ s', moveChildren old l s = .ok s' ∧ s'.heap[old]? = some { o with childMap := enter vals l o.childMap } ∧
      (∀ c ∈ l, ∀ n, s.heap[c]? = some n → s'.heap[c]? = some { n with parent := some old }) ∧
      s'.heap.length = s.heap.length ∧ Grows (old :: l) s s' := by
  induction l generalizing s o with
  | nil => exact ⟨s, rfl, hold, fun _ h => absurd h List.not_mem_nil, rfl, Grows.refl _ _⟩
  | cons c l ih =>
    rw [List.forall_mem_cons] at hl
    obtain ⟨⟨hne, n, hn, hval⟩, hl⟩ := hl
    let s₁ : SearchT Node1T := { s with heap := s.heap.set old (o.setChild n.val c) }
    have hn₁ : s₁.heap[c]? = some n := (List.getElem?_set_ne (Ne.symm hne)).trans hn
    let s₂ : SearchT Node1T := { s₁ with heap := s₁.heap.set c { n with parent := some old } }
    have g₂ : Grows [old, c] s s₂ :=
      ((grows_set s old _).mono (by simp)).trans ((grows_set s₁ c _).mono (by simp))
    have hold₂ : s₂.heap[old]? = some (o.setChild n.val c) := (List.getElem?_set_ne hne).trans (getElem?_set hold)
    have hc₂ : s₂.heap[c]? = some { n with parent := some old } := getElem?_set hn₁
    obtain ⟨s', e', hold', hmoved, hlen, g'⟩ := ih hold₂ fun d hd => by
      obtain ⟨hd', m, hm, hv⟩ := hl d hd
      refine ⟨hd', ?_⟩
      by_cases hdc : d = c
      · subst hdc
        exact ⟨_, hc₂, hval⟩
      · exact ⟨m, (g₂.keep d (by simp [hd', hdc]) (List.getElem?_eq_some_iff.mp hm).1).trans hm, hv⟩
    refine ⟨s', ?_, ?_, ?_, hlen.trans (by simp [s₂, s₁]), ?_⟩
    · rw [moveChildren, getVal_eq hn, ok_bind, setChild_eq hold, ok_bind,
        show SearchT.setParent s₁ c old = .ok s₂ from onNode_eq hn₁ rfl, ok_bind, e']
    · rw [hold', hval]
      rfl
    · intro d hd m hm
      by_cases hdl : d ∈ l
      · by_cases hdc : d = c
        · subst hdc
          obtain rfl := Option.some.inj (hn.symm.trans hm)
          have := hmoved d hdl _ hc₂
          exact this
        · have hd' := (hl d hdl).1
          exact hmoved d hdl m ((g₂.keep d (by simp [hd', hdc]) (List.getElem?_eq_some_iff.mp hm).1).trans hm)
      · obtain rfl := (List.mem_cons.mp hd).resolve_right hdl
        obtain rfl := Option.some.inj (hn.symm.trans hm)
        rw [g'.keep d (by simp [hne, hdl]) (List.getElem?_eq_some_iff.mp hc₂).1, hc₂]
    · exact (g₂.mono (by simp)).trans (g'.mono (by grind))

/-- The children of `p`, if it has any, become those of `q`. -/
theorem passChildren_eq {q : Ptr} {o : Node1T} (hp : s.heap[p]? = some n) (hq : s.heap[q]? = some o) (hne : p ≠ q)
    (ho : o.childMap = fun _ => none)
    (hc : ∀ b c, n.childMap b = some c → c ≠ p ∧ c ≠ q ∧ ∃ m, s.heap[c]? = some m ∧ m.val = b) :
    ∃ s', (if n.getChildren.length ≠ 0 then do (← moveChildren q n.getChildren s).killChildren p else pure s) = .ok s' ∧
      s'.heap[p]? = some n.killChildren ∧ s'.heap[q]? = some { o with childMap := n.childMap } ∧
      (∀ c ∈ n.getChildren, ∀ m, s.heap[c]? = some m → s'.heap[c]? = some { m with parent := some q }) ∧
      s'.heap.length = s.heap.length ∧ Grows (q :: p :: n.getChildren) s s' := by
  have hmem : ∀ c ∈ n.getChildren, ∃ b, n.childMap b = some c := fun c hc => by
    obtain ⟨b, -, hb⟩ := List.mem_filterMap.mp hc
    exact ⟨b, hb⟩
  by_cases h0 : n.getChildren = []
  · have hnone : n.childMap = fun _ => none := by
      funext b
      exact List.filterMap_eq_nil_iff.mp h0 b (mem_chars b)
    refine ⟨s, by rw [if_neg (not_not.mpr (List.length_eq_zero_iff.mpr h0))]; rfl, ?_, ?_, ?_, rfl, Grows.refl _ _⟩
    · rw [hp, Node1T.killChildren, ← hnone]
    · rw [hq, hnone, ← ho]
    · rw [h0]
      exact fun _ h => absurd h List.not_mem_nil
  · let vals : Ptr → Byte := fun c => ((s.heap[c]?).map Node1T.val).getD 0
    have hvals : ∀ {c : Ptr} {m : Node1T}, s.heap[c]? = some m → vals c = m.val := fun hm => by simp [vals, hm]
    obtain ⟨s₁, e₁, hq₁, hmoved, hlen, g₁⟩ := moveChildren_eq vals hq (l := n.getChildren) fun c hm => by
      obtain ⟨b, hb⟩ := hmem c hm
      obtain ⟨-, hcq, m, hm, hval⟩ := hc b c hb
      exact ⟨hcq, m, hm, (hvals hm).symm⟩
    have hpl : p ∉ n.getChildren := fun hm => by
      obtain ⟨b, hb⟩ := hmem p hm
      exact (hc b p hb).1 rfl
    have hp₁ : s₁.heap[p]? = some n :=
      (g₁.keep p (by simp [hne, hpl]) (List.getElem?_eq_some_iff.mp hp).1).trans hp
    rw [ho, Node1T.getChildren, enter_children fun b c hb => ?_] at hq₁
    · refine ⟨{ s₁ with heap := s₁.heap.set p n.killChildren }, ?_, getElem?_set hp₁, (List.getElem?_set_ne hne).trans hq₁,
        ?_, by simp [hlen], ?_⟩
      · rw [if_pos (mt List.length_eq_zero_iff.mp h0), e₁, ok_bind]
        exact onNode_eq hp₁ rfl
      · intro c hm m hcm
        exact (List.getElem?_set_ne fun e => hpl (by rwa [e])).trans (hmoved c hm m hcm)
      · exact (g₁.mono (by grind)).trans ((grows_set s₁ p _).mono (by simp))
    · obtain ⟨-, -, m, hm, hval⟩ := hc b c hb
      rw [hvals hm, hval]

theorem update_rootOf {F G : Forest Ptr Byte} {t : Str} {c : Ptr} (ht : NulFree t)
    (hG : ∀ k, G.rootOf k = if t.head? = k then some c else F.rootOf k) :
    Function.update (fun b => F.rootOf (byteKey b)) (keyByte t.head?) (some c) = fun b => G.rootOf (byteKey b) := by
  funext b
  rw [hG]
  by_cases hb : b = keyByte t.head?
  · rw [hb, Function.update_self, byteKey_keyByte ht.head?_ne, if_pos rfl]
  · rw [Function.update_of_ne hb, if_neg fun e => hb (by rw [e, keyByte_byteKey])]

theorem mem_getChildren {F : Forest Ptr Byte} {t : Str} {leaf : Bool} {par : Option Ptr} {c : Ptr} :
    c ∈ (plainNode t leaf par F).getChildren ↔ ∃ b, F.rootOf (byteKey b) = some c := by
  rw [Node1T.getChildren, List.mem_filterMap]
  exact ⟨fun ⟨b, _, hb⟩ => ⟨b, hb⟩, fun ⟨b, hb⟩ => ⟨b, mem_chars b, hb⟩⟩

/-- The map holds the roots. -/
theorem mem_getChildren_iff {h : Heap Node1T} {F : Forest Ptr Byte} {t : Str} {leaf : Bool} {par par' : Option Ptr} {c : Ptr}
    (hr : RepPlain h par' F) (hk : F.keys.Nodup) : c ∈ (plainNode t leaf par F).getChildren ↔ c ∈ F.roots := by
  rw [mem_getChildren]
  constructor
  · rintro ⟨b, hb⟩
    exact Forest.rootOf_mem_roots hb
  · intro hc
    obtain ⟨k, hroot⟩ := Forest.exists_key_of_mem_roots hk hc
    obtain ⟨n, -, -, -, hkey, hn⟩ := hr.of_rootOf hroot
    exact ⟨keyByte k, by rw [byteKey_keyByte (hkey ▸ hn.head?_ne), hroot]⟩

/-- A node `p` that is split, and its lower half, before it gets the children. -/
def halves (s : SearchT Node1T) (p : Ptr) (upper lower : Node1T) : SearchT Node1T :=
  { s with heap := s.heap.set p upper ++ [lower], nodeCount := s.nodeCount + 1 }

section Halves

variable {upper lower lower' : Node1T}

theorem halves_upper (hp : s.heap[p]? = some n) : (halves s p upper lower).heap[p]? = some upper := by
  have hlt : p < s.heap.length := (List.getElem?_eq_some_iff.mp hp).1
  rw [halves, List.getElem?_append_left (by simpa using hlt), getElem?_set hp]

theorem halves_lower : (halves s p upper lower).heap[s.heap.length]? = some lower := by
  rw [halves, List.getElem?_append_right (by simp)]
  simp

theorem halves_keep {q : Ptr} (hq : q ≠ p) (hlt : q < s.heap.length) :
    (halves s p upper lower).heap[q]? = s.heap[q]? := by
  rw [halves, List.getElem?_append_left (by simpa using hlt), List.getElem?_set_ne (Ne.symm hq)]

theorem length_halves : (halves s p upper lower).heap.length = s.heap.length + 1 := by simp [halves]

theorem halves_onNode {f : Node1T → Except Fault Node1T} (hf : f lower = .ok lower') :
    (halves s p upper lower).onNode s.heap.length f = .ok (halves s p upper lower') := by
  rw [show s.heap.length = (s.heap.set p upper).length by simp]
  exact onNode_last { s with nodeCount := s.nodeCount + 1 } _ hf

end Halves

/-- The tail of a node is split, up to the passing of the children. -/
theorem splitTail_eq_halves {t : Str} {k : ℕ} {s₁ : SearchT Node1T} (upper : Node1T) (hp : s.heap[p]? = some n)
    (hlt : k < t.length) (hupper : upper = { n with tail := t.take k })
    (hs₁ : s₁ = halves s p upper ⟨keyByte (t.drop k).head?, n.isLeaf, false, some p, t.drop k, fun _ => none⟩) :
    s.splitTail p t k =
      ((if upper.getChildren.length ≠ 0 then do (← moveChildren s.heap.length upper.getChildren s₁).killChildren p else pure s₁) >>=
        fun s' => s'.setIsLeaf p false >>= fun s' => s'.setChild p (keyByte (t.drop k).head?) s.heap.length) := by
  subst hs₁
  have hch : charAt t k = .ok (keyByte (t.drop k).head?) := charAt_eq hlt.le
  let o₁ : Node1T := { Node1T.construct with isLeaf := n.isLeaf }
  let o₂ : Node1T := { o₁ with val := keyByte (t.drop k).head? }
  let o₃ : Node1T := { o₂ with tail := t.drop k }
  let o₄ : Node1T := { o₃ with parent := some p }
  have h₀ : s.setTail p (t.take k) = .ok { s with heap := s.heap.set p upper } := hupper ▸ onNode_eq hp rfl
  have hmake : ({ s with heap := s.heap.set p upper } : SearchT Node1T).makeNode =
      .ok (halves s p upper .construct, s.heap.length) := by
    rw [show s.heap.length = (s.heap.set p upper).length by simp]
    rfl
  have hleaf : (halves s p upper .construct).heap.getIsLeaf p = .ok n.isLeaf := by
    rw [getIsLeaf_eq (halves_upper hp), hupper]
  have h₁ : (halves s p upper .construct).setIsLeaf s.heap.length n.isLeaf = .ok (halves s p upper o₁) := halves_onNode rfl
  have h₂ : (halves s p upper o₁).setVal s.heap.length (keyByte (t.drop k).head?) = .ok (halves s p upper o₂) :=
    halves_onNode rfl
  have h₃ : (halves s p upper o₂).setTail s.heap.length (t.drop k) = .ok (halves s p upper o₃) := halves_onNode rfl
  have h₄ : (halves s p upper o₃).setParent s.heap.length p = .ok (halves s p upper o₄) := halves_onNode rfl
  have hkids : (halves s p upper o₄).heap.getChildren p = .ok upper.getChildren := getChildren_eq (halves_upper hp)
  simp only [splitTail, h₀, ok_bind, hmake, hleaf, h₁, hch, h₂, h₃, h₄, hkids]
  split_ifs with h0
  · simp only [bind_assoc]
    rfl
  · rfl

/-- The tail of a node is split: the lower half, with the leaf flag and the children, is a new
node under the upper half. -/
theorem splitTail_eq {t : Str} {leaf : Bool} {par : Option Ptr} {cs : Forest Ptr Byte} {k : ℕ}
    (hp : s.heap[p]? = some (plainNode t leaf par cs)) (ht : NulFree t) (hc : RepPlain s.heap (some p) cs)
    (hn : (p :: cs.ids).Nodup) (hk : cs.keys.Nodup) (hpos : 0 < k) (hlt : k < t.length) :
    ∃ s', s.splitTail p t k = .ok s' ∧
      s'.heap[p]? = some (plainNode (t.take k) false par (.node s.heap.length (t.drop k) leaf cs .nil)) ∧
      s'.heap[s.heap.length]? = some (plainNode (t.drop k) leaf (some p) cs) ∧ RepPlain s'.heap (some s.heap.length) cs ∧
      s'.heap.length = s.heap.length + 1 ∧ Grows (p :: cs.roots) s s' := by
  obtain ⟨hpc, hnc⟩ := List.nodup_cons.mp hn
  have hplt : p < s.heap.length := (List.getElem?_eq_some_iff.mp hp).1
  have hclt := hc.lt
  -- the upper half keeps everything but its tail; the lower half has all but the children
  let n₁ : Node1T := { plainNode t leaf par cs with tail := t.take k }
  let s₁ : SearchT Node1T := halves s p n₁ (plainNode (t.drop k) leaf (some p) .nil)
  have hsplit := splitTail_eq_halves n₁ hp hlt rfl (show s₁ = _ from rfl)
  obtain ⟨s₂, e₂, hp₂, hold₂, hmoved, hlen₂, g₂⟩ :=
    passChildren_eq (s := s₁) (halves_upper hp) halves_lower (Nat.ne_of_lt hplt) rfl fun b c hb => by
      obtain ⟨m, hm, hval, -⟩ := hc.of_rootOf hb
      have hcid := Forest.roots_subset_ids _ (Forest.rootOf_mem_roots hb)
      have hcp : c ≠ p := fun e => hpc (e ▸ hcid)
      exact ⟨hcp, Nat.ne_of_lt (hclt c hcid), m, (halves_keep hcp (hclt c hcid)).trans hm, by rw [hval, keyByte_byteKey]⟩
  let n₃ : Node1T := { n₁.killChildren with isLeaf := false }
  let s₃ : SearchT Node1T := { s₂ with heap := s₂.heap.set p n₃ }
  have hp₃ : s₃.heap[p]? = some n₃ := getElem?_set hp₂
  let s₄ : SearchT Node1T := { s₃ with heap := s₃.heap.set p (n₃.setChild (keyByte (t.drop k).head?) s.heap.length) }
  have e₃ : s₂.setIsLeaf p false = .ok s₃ := onNode_eq hp₂ rfl
  have e₄ : s₃.setChild p (keyByte (t.drop k).head?) s.heap.length = .ok s₄ := setChild_eq hp₃ _ _
  have g₂₄ : Grows [p] s₂ s₄ := (grows_set s₂ p _).trans (grows_set s₃ p _)
  have g₁₄ : Grows (s.heap.length :: p :: n₁.getChildren) s₁ s₄ := g₂.trans (g₂₄.mono (by simp))
  have hlen₄ : s₄.heap.length = s.heap.length + 1 := by simp [s₄, s₃, hlen₂, s₁, length_halves]
  have hkids : ∀ {c : Ptr}, c ∈ (plainNode t leaf par cs).getChildren ↔ c ∈ cs.roots := mem_getChildren_iff hc hk
  have hkeep : ∀ q, q < s.heap.length → q ≠ p → q ∉ cs.roots → s₄.heap[q]? = s.heap[q]? := fun q hlt hqp hqr => by
    rw [g₁₄.keep q ?_ (by rw [length_halves]; exact hlt.trans (Nat.lt_succ_self _)), halves_keep hqp hlt]
    simp only [List.mem_cons, not_or]
    exact ⟨Nat.ne_of_lt hlt, hqp, fun h => hqr (hkids.mp h)⟩
  refine ⟨s₄, ?_, ?_, ?_, ?_, hlen₄, hlen₄ ▸ Nat.le_succ _, ?_, g₁₄.head⟩
  · rw [hsplit, e₂, ok_bind, e₃, ok_bind, e₄]
  · have hval : keyByte t.head? = keyByte (t.take k).head? := by rw [List.head?_take, if_neg (Nat.ne_of_gt hpos)]
    have hmap := update_rootOf (F := .nil) (G := .node s.heap.length (t.drop k) leaf cs .nil) (c := s.heap.length) (ht.drop k)
      fun _ => rfl
    rw [getElem?_set hp₃, plainNode, ← hmap, ← hval]
    rfl
  · rw [g₂₄.keep s.heap.length (fun hm => absurd (List.mem_singleton.mp hm) (Nat.ne_of_gt hplt))
      (List.getElem?_eq_some_iff.mp hold₂).1, hold₂]
    rfl
  · refine hc.reparent hnc ?_ fun q hq hqr => hkeep q (hclt q hq) (fun e => hpc (e ▸ hq)) hqr
    intro c hcr m hm
    have hcid := Forest.roots_subset_ids _ hcr
    have hcp : c ≠ p := fun e => hpc (e ▸ hcid)
    have hm₂ := hmoved c (hkids.mpr hcr) m ((halves_keep hcp (hclt c hcid)).trans hm)
    exact (g₂₄.keep c (by simpa using hcp) (List.getElem?_eq_some_iff.mp hm₂).1).trans hm₂
  · intro q hq hlt
    simp only [List.mem_cons, not_or] at hq
    exact hkeep q hlt hq.1 hq.2

/-- The new child is made and entered. -/
theorem newChild_eq {word : Str} {i : ℕ} (hp : s.heap[p]? = some n) (hi : i ≤ word.length) :
    ∃ s', s.newChild word p i = .ok (s', s.heap.length) ∧
      s'.heap[p]? = some (n.setChild (keyByte (word.drop i).head?) s.heap.length) ∧
      s'.heap[s.heap.length]? = some (plainNode (word.drop i) true none .nil) ∧ s'.heap.length = s.heap.length + 1 ∧
      Grows [p] s s' := by
  have hplt : p < s.heap.length := (List.getElem?_eq_some_iff.mp hp).1
  have hch : charAt word i = .ok (keyByte (word.drop i).head?) := charAt_eq hi
  let withNew (m : Node1T) : SearchT Node1T := { s with heap := s.heap ++ [m], nodeCount := s.nodeCount + 1 }
  let c₁ : Node1T := { Node1T.construct with val := keyByte (word.drop i).head? }
  let c₂ : Node1T := { c₁ with tail := word.drop i }
  let s₃ : SearchT Node1T := withNew (plainNode (word.drop i) true none .nil)
  have h₀ : s.makeNode = .ok (withNew .construct, s.heap.length) := rfl
  have hlast : ∀ {m m' : Node1T} {f : Node1T → Except Fault Node1T}, f m = .ok m' →
      (withNew m).onNode s.heap.length f = .ok (withNew m') := fun hf => onNode_last { s with nodeCount := s.nodeCount + 1 } _ hf
  have h₁ : (withNew .construct).setVal s.heap.length (keyByte (word.drop i).head?) = .ok (withNew c₁) := hlast rfl
  have h₂ : (withNew c₁).setTail s.heap.length (word.drop i) = .ok (withNew c₂) := hlast rfl
  have h₃ : (withNew c₂).setIsLeaf s.heap.length true = .ok s₃ := hlast rfl
  have hp₃ : s₃.heap[p]? = some n := (List.getElem?_append_left hplt).trans hp
  refine ⟨{ s₃ with heap := s₃.heap.set p (n.setChild (keyByte (word.drop i).head?) s.heap.length) }, ?_, getElem?_set hp₃, ?_, ?_,
    ?_⟩
  · simp only [newChild, h₀, ok_bind, hch, h₁, h₂, h₃, setChild_eq hp₃]
    rfl
  · rw [List.getElem?_set_ne (Nat.ne_of_lt hplt)]
    exact List.getElem?_concat_length
  · simp [s₃, withNew]
  · refine ⟨by simp [s₃, withNew], ?_, rfl⟩
    intro q hq hlt
    rw [List.getElem?_set_ne fun e => hq (List.mem_singleton.mpr e.symm)]
    exact List.getElem?_append_left hlt

/-- A child under a new key. -/
theorem setChild_plainNode {F G : Forest Ptr Byte} {t r : Str} {leaf : Bool} {par : Option Ptr} {c : Ptr} (hr : NulFree r)
    (hG : ∀ k, G.rootOf k = if r.head? = k then some c else F.rootOf k) :
    (plainNode t leaf par F).setChild (keyByte r.head?) c = plainNode t leaf par G := by
  rw [Node1T.setChild, plainNode, plainNode, ← update_rootOf hr hG]

/-- A heap of plain nodes shows the children of a node in its map, which has room for all. -/
theorem addRules {cap : ℕ} (hcap : 1 < cap) :
    AddRules (fun h p t leaf par cs => h[p]? = some (plainNode t leaf par cs) ∧ NulFree t) RepPlain Grows cap where
  rep_nil := trivial
  rep_node := Iff.rfl
  refl := Grows.refl _ _
  trans := Grows.trans
  fresh := Grows.mono
  lt hp := (List.getElem?_eq_some_iff.mp hp.1).1
  frame hp g hl := ⟨(g.keep _ hl (List.getElem?_eq_some_iff.mp hp.1).1).trans hp.1, hp.2⟩
  insert_of_mem hp hk := ⟨by rw [hp.1, plainNode_congr (Forest.rootOf_insert_of_mem hk)], hp.2⟩
  getTail hp := getTail_eq hp.1
  getChild hp _ hr := by
    rw [getChild_eq hp.1]
    exact congrArg (fun k => Except.ok (Forest.rootOf k _)) (byteKey_keyByte hr.head?_ne)
  setIsLeaf hp := ⟨_, onNode_eq hp.1 rfl, ⟨getElem?_set hp.1, hp.2⟩, by simp, grows_set _ _ _⟩
  setParent q hp := ⟨_, onNode_eq hp.1 rfl, ⟨getElem?_set hp.1, hp.2⟩, by simp, grows_set _ _ _⟩
  setParent_same hp := onNode_same hp.1 rfl
  splitTail hp hc hn hk hpos hlt := by
    obtain ⟨s', e', hp', hold', hc', hlen', g'⟩ := splitTail_eq hp.1 hp.2 hc hn hk hpos hlt
    exact ⟨s', e', ⟨⟨hp', hp.2.take _⟩, ⟨⟨hold', hp.2.drop _⟩, hc', trivial⟩, trivial⟩, hlen', g'⟩
  newChild b hp _ hw hi hk _ := by
    obtain ⟨s', e', hp', hnew', hlen', g'⟩ := newChild_eq hp.1 hi
    rw [setChild_plainNode (hw.drop _) (Forest.rootOf_insert_of_notMem (b := b) hk)] at hp'
    exact ⟨s', e', ⟨hp', hp.2⟩, ⟨hnew', hw.drop _⟩, hlen', g'⟩
  capacity := hcap

/-! ### Runs -/

/-- The heap of `s` is the trie. -/
structure Holds (s : SearchT Node1T) (T : Trie) : Prop where
  /-- The head is the first node made. -/
  head : s.head = some 0
  /-- The nodes are as in the trie. -/
  rep : RepPlain s.heap none T.tree
  /-- There are no others. -/
  owns : T.Owns s.heap.length

/-- The heap of `s` is the trie, or there is no head yet and the trie is empty. -/
def Ready (s : SearchT Node1T) (T : Trie) : Prop := (s.head = none ∧ s.heap = [] ∧ T = Trie.empty) ∨ Holds s T

variable {T : Trie}

theorem Ready.makeHead (h : Ready s T) : ∃ s', s.makeHead = .ok (s', 0) ∧ Holds s' T := by
  rcases h with ⟨hhead, hheap, rfl⟩ | h
  · let s₁ : SearchT Node1T := { s with heap := [Node1T.construct], nodeCount := s.nodeCount + 1 }
    let s₂ : SearchT Node1T := { s₁ with heap := [plainNode [sentinel] false none .nil], head := some 0 }
    have h₁ : s.makeNode = .ok (s₁, 0) := by
      rw [makeNode, hheap]
      rfl
    have h₂ : ({ s₁ with head := some 0 } : SearchT Node1T).setVal 0 sentinel = .ok { s₁ with head := some 0 } := rfl
    have h₃ : ({ s₁ with head := some 0 } : SearchT Node1T).setTail 0 [sentinel] = .ok s₂ := rfl
    refine ⟨s₂, ?_, rfl, ⟨⟨rfl, by decide⟩, trivial, trivial⟩, List.Perm.refl _⟩
    rw [SearchT.makeHead, hhead]
    simp only [h₁, ok_bind, h₂, h₃, pure_ok]
  · exact ⟨s, by rw [SearchT.makeHead, h.head]; rfl, h⟩

/-- `add` inserts the word, whatever room there is. -/
theorem add_eq (h : Ready s T) {w : Str} (hw : NulFree w) : ∃ s', s.add w = .ok s' ∧ Holds s' (T.add w) := by
  obtain ⟨s₀, e₀, hs⟩ := h.makeHead
  have hw' : NulFree (sentinel :: w) := nulFree_cons.mpr ⟨by decide, hw⟩
  have hrules := addRules (show 1 < T.tree.ids.length + 2 by omega)
  obtain ⟨s₁, q, s', e₁, e', r', l', g'⟩ := hrules.addLoop_eq (i := 0) (p := 0) hw' hs.rep T.tree_keyed hs.owns.nodup rfl
    (show ((sentinel :: w).drop 0).length < (sentinel :: w).length + 1 by simp) (Forest.room_of_le (Nat.le_add_right _ _) _)
  rw [List.drop_zero, ← hs.owns.size, T.insert_tree] at r'
  refine ⟨s', ?_, g'.head.trans hs.head, r', ?_⟩
  · simp only [add, e₀, ok_bind, e₁]
    exact e'
  · rw [l']
    exact hs.owns.add w

theorem Holds.adds (h : Holds s T) {ws : List Str} (hws : ∀ w ∈ ws, NulFree w) :
    ∃ s', s.adds ws = .ok s' ∧ Holds s' (T.adds ws) := by
  induction ws generalizing s T with
  | nil => exact ⟨s, rfl, h⟩
  | cons w ws ih =>
    rw [List.forall_mem_cons] at hws
    obtain ⟨s₁, e₁, h₁⟩ := add_eq (.inr h) hws.1
    obtain ⟨s', e', h'⟩ := ih h₁ hws.2
    exact ⟨s', by rw [SearchT.adds, e₁, ok_bind, e'], h'⟩

/-! ### Isomorphism -/

/-- The children in the map are the roots. -/
theorem getChildren_perm {h : Heap Node1T} {F : Forest Ptr Byte} {t : Str} {leaf : Bool} {par par' : Option Ptr}
    (hr : RepPlain h par' F) (hk : F.keys.Nodup) (hn : F.ids.Nodup) : (plainNode t leaf par F).getChildren.Perm F.roots := by
  have hinj : ∀ b b' c, c ∈ F.rootOf (byteKey b) → c ∈ F.rootOf (byteKey b') → b = b' := by
    intro b b' c hb hb'
    obtain ⟨n, hn, hval, -⟩ := hr.of_rootOf hb
    obtain ⟨n', hn', hval', -⟩ := hr.of_rootOf hb'
    obtain rfl := Option.some.inj (hn.symm.trans hn')
    rw [← keyByte_byteKey b, ← hval, hval', keyByte_byteKey]
  have hnodup : (plainNode t leaf par F).getChildren.Nodup := nodup_chars.filterMap hinj
  rw [List.perm_ext_iff_of_nodup hnodup (Forest.nodup_roots hn)]
  exact fun c => mem_getChildren_iff hr hk

/-- A node of the forest, in both heaps. -/
theorem both {h₁ : Heap Node1T} {h₂ : Heap Node2T} {F : Forest Ptr Byte} {par : Option Ptr} (hr₁ : RepPlain h₁ par F)
    (hr₂ : Rep h₂ par F) (hk : F.Keyed) (hn : F.ids.Nodup) {p : Ptr} (hp : p ∈ F.ids) :
    ∃ (t : Str) (leaf : Bool) (q : Option Ptr) (cs : Forest Ptr Byte), h₁[p]? = some (plainNode t leaf q cs) ∧
      h₂.At p ⟨t, leaf, q, cs.roots⟩ ∧ (plainNode t leaf q cs).getChildren.Perm cs.roots := by
  induction F generalizing par with
  | nil => cases hp
  | node id t leaf cs sib ihc ihs =>
    obtain ⟨⟨hid₁, -⟩, hc₁, hs₁⟩ := hr₁
    obtain ⟨hid₂, hc₂, hs₂⟩ := hr₂
    simp only [Forest.ids, List.nodup_cons, List.nodup_append] at hn
    obtain ⟨-, hkc, hks⟩ := hk
    rw [Forest.ids, List.mem_cons, List.mem_append] at hp
    rcases hp with rfl | hp | hp
    · exact ⟨t, leaf, par, cs, hid₁, hid₂, getChildren_perm hc₁ hkc.nodup_keys hn.2.1⟩
    · exact ihc hc₁ hc₂ hkc hn.2.1 hp
    · exact ihs hs₁ hs₂ hks hn.2.2.1 hp

end Plain

/-- The nodes of one search are those of another: the pointers correspond one to one, head to head, and
nodes that correspond have the same tail, value and leaf flag, and corresponding parents and children. -/
structure Isomorphism {N₁ N₂ : Type} [NodeT N₁] [NodeT N₂] (s₁ : SearchT N₁) (s₂ : SearchT N₂) (f : Ptr → Ptr) : Prop where
  /-- One to one. -/
  bijOn : Set.BijOn f (Set.Iio s₁.heap.length) (Set.Iio s₂.heap.length)
  /-- The head. -/
  head : s₂.head = s₁.head.map f
  /-- The tail. -/
  getTail : ∀ p < s₁.heap.length, ∃ t, s₁.heap.getTail p = .ok t ∧ s₂.heap.getTail (f p) = .ok t
  /-- The value. -/
  getVal : ∀ p < s₁.heap.length, ∃ b, s₁.heap.getVal p = .ok b ∧ s₂.heap.getVal (f p) = .ok b
  /-- The leaf flag. -/
  getIsLeaf : ∀ p < s₁.heap.length, ∃ b, s₁.heap.getIsLeaf p = .ok b ∧ s₂.heap.getIsLeaf (f p) = .ok b
  /-- The parent. -/
  getParent : ∀ p < s₁.heap.length, ∃ q, s₁.heap.getParent p = .ok q ∧ s₂.heap.getParent (f p) = .ok (q.map f)
  /-- The children, in any order. -/
  getChildren : ∀ p < s₁.heap.length, ∃ l₁ l₂, s₁.heap.getChildren p = .ok l₁ ∧ s₂.heap.getChildren (f p) = .ok l₂ ∧
    (l₁.map f).Perm l₂

/-- Searches that hold the same trie. -/
theorem isomorphism_of_holds {s₁ : SearchT Node1T} {s₂ : SearchT Node2T} {T : Trie} (h₁ : Plain.Holds s₁ T) (h₂ : s₂.Holds T) :
    Isomorphism s₁ s₂ id := by
  have hlen : s₁.heap.length = s₂.heap.length := h₁.owns.size.symm.trans h₂.owns.size
  have hboth : ∀ p < s₁.heap.length, _ := fun p hp =>
    Plain.both h₁.rep h₂.rep T.tree_keyed h₁.owns.nodup (h₁.owns.mem_iff.mpr (List.mem_range.mpr hp))
  refine ⟨hlen ▸ Set.bijOn_id _, by rw [h₁.head, h₂.head]; rfl, fun p hp => ?_, fun p hp => ?_, fun p hp => ?_, fun p hp => ?_,
    fun p hp => ?_⟩
  all_goals obtain ⟨t, leaf, q, cs, hp₁, hp₂, hperm⟩ := hboth p hp
  · exact ⟨t, Plain.getTail_eq hp₁, hp₂.getTail⟩
  · exact ⟨keyByte t.head?, Plain.getVal_eq hp₁, hp₂.getVal.trans (congrArg Except.ok (headD_eq_keyByte t))⟩
  · exact ⟨leaf, Plain.getIsLeaf_eq hp₁, hp₂.getIsLeaf⟩
  · exact ⟨q, Plain.getParent_eq hp₁, by rw [Option.map_id]; exact hp₂.getParent⟩
  · exact ⟨_, _, Plain.getChildren_eq hp₁, hp₂.getChildren, by rwa [List.map_id]⟩

/-- **The packed node agrees with the plain node.** After every prefix of words that packed nodes have room for, the
trie of plain nodes is there too, and the two are isomorphic. -/
theorem isomorphism_of_adds {ws us : List Str} (hws : ∀ w ∈ ws, NulFree w) (hexit : fresh.adds ws ≠ .error .exit)
    (hus : us <+: ws) : ∃ (s₁ : SearchT Node1T) (s₂ : SearchT Node2T), construct.adds us = .ok s₁ ∧ fresh.adds us = .ok s₂ ∧
      ∃ f, Isomorphism s₁ s₂ f := by
  have hus' : ∀ w ∈ us, NulFree w := fun w hw => hws w (hus.subset hw)
  obtain ⟨s₂, e₂, h₂⟩ := adds_of_not_exit ready_fresh hus' (adds_ne_exit hus hexit)
  cases us with
  | nil =>
    obtain rfl := Except.ok.inj e₂
    exact ⟨construct, fresh, rfl, rfl, id, Set.bijOn_id _, rfl, fun _ hp => absurd hp (Nat.not_lt_zero _),
      fun _ hp => absurd hp (Nat.not_lt_zero _), fun _ hp => absurd hp (Nat.not_lt_zero _),
      fun _ hp => absurd hp (Nat.not_lt_zero _), fun _ hp => absurd hp (Nat.not_lt_zero _)⟩
  | cons w us =>
    rw [List.forall_mem_cons] at hus'
    obtain ⟨s, e, h⟩ := Plain.add_eq (s := construct) (.inl ⟨rfl, rfl, rfl⟩) hus'.1
    obtain ⟨s₁, e₁, h₁⟩ := h.adds hus'.2
    exact ⟨s₁, s₂, by rw [adds, e, ok_bind, e₁], e₂, id, isomorphism_of_holds h₁
      (ready_fresh.holds_of_adds (List.cons_ne_nil _ _) (List.forall_mem_cons.mpr hus') e₂)⟩

theorem isomorphism_of_adds_abx : ∃ (s₁ : SearchT Node1T) (s₂ : SearchT Node2T),
    construct.adds [ascii "ab", ascii "abx"] = .ok s₁ ∧ fresh.adds [ascii "ab", ascii "abx"] = .ok s₂ ∧
      ∃ f, Isomorphism s₁ s₂ f := by
  obtain ⟨s, e, -⟩ := adds_of_isOk [ascii "ab", ascii "abx", ascii "aby"] (by decide) (by decide +kernel)
  have hexit : fresh.adds [ascii "ab", ascii "abx", ascii "aby"] ≠ .error .exit := by
    rw [e]
    exact fun h => nomatch h
  exact isomorphism_of_adds (by decide) hexit ⟨[ascii "aby"], rfl⟩

end SearchT

end InfixSearch
