import InfixSearch.Search.Insert

/-!
# Splitting and entering

What splitting a tail and entering a child rely on is what the calls on a node do to what it
shows (`CallRules`), however it does it. From that the children move to the lower half of a
split node (`CallRules.splitTail_eq`), and a new child comes after the others
(`CallRules.newChild_eq`).
-/

namespace InfixSearch

open Library

/-- What splitting and entering rely on: what the calls do to what the nodes show. -/
structure CallRules {N : Type} [NodeT N] (At : Heap N → Ptr → NodeView → Prop)
    (Rep : Heap N → Option Ptr → Forest Ptr Byte → Prop) (Grows : List Ptr → SearchT N → SearchT N → Prop) (capacity : ℕ) :
    Prop where
  /-- No nodes are needed for no trees. -/
  rep_nil : ∀ {h : Heap N} {par : Option Ptr}, Rep h par .nil
  /-- The node of a tree shows its tail, its leaf flag, the parent and the children. -/
  rep_node : ∀ {h : Heap N} {p : Ptr} {t : Str} {leaf : Bool} {par : Option Ptr} {cs sib : Forest Ptr Byte},
    Rep h par (.node p t leaf cs sib) ↔ At h p ⟨t, leaf, par, cs.roots⟩ ∧ Rep h (some p) cs ∧ Rep h par sib
  /-- The nodes of a forest are there. -/
  rep_lt : ∀ {h : Heap N} {par : Option Ptr} {F : Forest Ptr Byte}, Rep h par F → ∀ q ∈ F.ids, q < h.length
  /-- The roots do not show a key that there is not. -/
  rep_roots : ∀ {h : Heap N} {par : Option Ptr} {F : Forest Ptr Byte} {k : Option Byte}, Rep h par F → k ∉ F.keys →
    ∀ c ∈ F.roots, ∃ w, At h c w ∧ w.tail.head? ≠ k
  /-- A step leaves the other forests alone. -/
  rep_frame : ∀ {l : List Ptr} {s s' : SearchT N} {par : Option Ptr} {F : Forest Ptr Byte},
    Rep s.heap par F → Grows l s s' → (∀ q ∈ F.ids, q ∉ l) → Rep s'.heap par F
  /-- No step changes nothing. -/
  refl : ∀ {l : List Ptr} {s : SearchT N}, Grows l s s
  /-- One step after the other. -/
  trans : ∀ {l : List Ptr} {s s' s'' : SearchT N}, Grows l s s' → Grows l s' s'' → Grows l s s''
  /-- Nodes that were not there before need not be named. -/
  fresh : ∀ {l l' : List Ptr} {s s' : SearchT N}, Grows l s s' → (∀ q ∈ l, q < s.heap.length → q ∈ l') → Grows l' s s'
  /-- A node that is shown is there. -/
  lt : ∀ {h : Heap N} {p : Ptr} {v : NodeView}, At h p v → p < h.length
  /-- A step leaves the other nodes alone. -/
  frame : ∀ {l : List Ptr} {s s' : SearchT N} {p : Ptr} {v : NodeView},
    At s.heap p v → Grows l s s' → p ∉ l → At s'.heap p v
  /-- A tail can be kept as a C string. -/
  nulFree : ∀ {h : Heap N} {p : Ptr} {v : NodeView}, At h p v → NulFree v.tail
  /-- There was room for the children. -/
  room : ∀ {h : Heap N} {p : Ptr} {v : NodeView}, At h p v → v.children.length ≤ capacity
  /-- `get_tail`. -/
  getTail : ∀ {h : Heap N} {p : Ptr} {v : NodeView}, At h p v → h.getTail p = .ok v.tail
  /-- `get_val`. -/
  getVal : ∀ {h : Heap N} {p : Ptr} {v : NodeView}, At h p v → h.getVal p = .ok (v.tail.headD 0)
  /-- `get_is_leaf`. -/
  getIsLeaf : ∀ {h : Heap N} {p : Ptr} {v : NodeView}, At h p v → h.getIsLeaf p = .ok v.leaf
  /-- `get_children`. -/
  getChildren : ∀ {h : Heap N} {p : Ptr} {v : NodeView}, At h p v → h.getChildren p = .ok v.children
  /-- `get_child` finds the child with the key. -/
  getChild : ∀ {h : Heap N} {p : Ptr} {t r : Str} {leaf : Bool} {par : Option Ptr} {cs : Forest Ptr Byte},
    At h p ⟨t, leaf, par, cs.roots⟩ → Rep h (some p) cs → NulFree r → h.getChild p (keyByte r.head?) = .ok (cs.rootOf r.head?)
  /-- `make_node`. -/
  makeNode : ∀ s : SearchT N, ∃ s', s.makeNode = .ok (s', s.heap.length) ∧
    At s'.heap s.heap.length ⟨[], false, none, []⟩ ∧ s'.heap.length = s.heap.length + 1 ∧ Grows [] s s'
  /-- `set_tail`. -/
  setTail : ∀ {s : SearchT N} {p : Ptr} {t t' : Str} {leaf : Bool} {par : Option Ptr} {l : List Ptr},
    At s.heap p ⟨t, leaf, par, l⟩ → NulFree t' → ∃ s', s.setTail p t' = .ok s' ∧ At s'.heap p ⟨t', leaf, par, l⟩ ∧
      s'.heap.length = s.heap.length ∧ Grows [p] s s'
  /-- `set_val`. -/
  setVal : ∀ {s : SearchT N} {p : Ptr} {v : NodeView} (b : Byte), At s.heap p v → ∃ s', s.setVal p b = .ok s' ∧
    At s'.heap p v ∧ s'.heap.length = s.heap.length ∧ Grows [p] s s'
  /-- `set_is_leaf`. -/
  setIsLeaf : ∀ {s : SearchT N} {p : Ptr} {t : Str} {leaf : Bool} {par : Option Ptr} {l : List Ptr} (b : Bool),
    At s.heap p ⟨t, leaf, par, l⟩ → ∃ s', s.setIsLeaf p b = .ok s' ∧ At s'.heap p ⟨t, b, par, l⟩ ∧
      s'.heap.length = s.heap.length ∧ Grows [p] s s'
  /-- `set_parent`. -/
  setParent : ∀ {s : SearchT N} {p : Ptr} {t : Str} {leaf : Bool} {par : Option Ptr} {l : List Ptr} (q : Ptr),
    At s.heap p ⟨t, leaf, par, l⟩ → ∃ s', s.setParent p q = .ok s' ∧ At s'.heap p ⟨t, leaf, some q, l⟩ ∧
      s'.heap.length = s.heap.length ∧ Grows [p] s s'
  /-- `set_parent` with the parent that the node has. -/
  setParent_same : ∀ {s : SearchT N} {p q : Ptr} {v : NodeView}, At s.heap p v → v.parent = some q → s.setParent p q = .ok s
  /-- `kill_children`. -/
  killChildren : ∀ {s : SearchT N} {p : Ptr} {t : Str} {leaf : Bool} {par : Option Ptr} {l : List Ptr},
    At s.heap p ⟨t, leaf, par, l⟩ → ∃ s', s.killChildren p = .ok s' ∧ At s'.heap p ⟨t, leaf, par, []⟩ ∧
      s'.heap.length = s.heap.length ∧ Grows [p] s s'
  /-- `set_child`, with a value that no child has and room for one more. -/
  setChild : ∀ {s : SearchT N} {p : Ptr} {t : Str} {leaf : Bool} {par : Option Ptr} {l : List Ptr} (val : Byte) (c : Ptr),
    At s.heap p ⟨t, leaf, par, l⟩ → (∀ d ∈ l, ∃ w, At s.heap d w ∧ keyByte w.tail.head? ≠ val) → l.length < capacity →
    ∃ s', s.setChild p val c = .ok s' ∧ At s'.heap p ⟨t, leaf, par, l ++ [c]⟩ ∧ s'.heap.length = s.heap.length ∧
      Grows [p] s s'
  /-- There is room for the halves of a tail and a new child. -/
  capacity : 1 < capacity

namespace CallRules

open SearchT

variable {N : Type} [NodeT N] {At : Heap N → Ptr → NodeView → Prop} {Rep : Heap N → Option Ptr → Forest Ptr Byte → Prop}
  {Grows : List Ptr → SearchT N → SearchT N → Prop} {capacity : ℕ} {s s' : SearchT N} {p : Ptr}
  (R : CallRules At Rep Grows capacity)

include R

theorem mono {l l' : List Ptr} (g : Grows l s s') (hl : l ⊆ l') : Grows l' s s' := R.fresh g fun _ hq _ => hl hq

/-- The children of a split node are moved under the lower half. -/
theorem moveChildren_eq {old : Ptr} {par par' : Option Ptr} {F : Forest Ptr Byte} {t : Str} {leaf : Bool} {l : List Ptr}
    (hold : At s.heap old ⟨t, leaf, par', l⟩) (hr : Rep s.heap par F) (hn : (old :: F.ids).Nodup) (hk : F.keys.Nodup)
    (hpre : ∀ c ∈ l, c ∉ old :: F.ids ∧ ∃ w, At s.heap c w ∧ w.tail.head? ∉ F.keys)
    (hroom : l.length + F.width ≤ capacity) :
    ∃ s', moveChildren old F.roots s = .ok s' ∧ At s'.heap old ⟨t, leaf, par', l ++ F.roots⟩ ∧
      Rep s'.heap (some old) F ∧ s'.heap.length = s.heap.length ∧ Grows (old :: F.roots) s s' := by
  induction F generalizing s l with
  | nil => exact ⟨s, rfl, by simpa [Forest.roots] using hold, R.rep_nil, rfl, R.refl⟩
  | node id tail _ cs sib _ ihs =>
    obtain ⟨hid, hcs, hsib⟩ := R.rep_node.mp hr
    simp only [Forest.ids, List.nodup_cons, List.mem_cons, List.mem_append, not_or, List.nodup_append] at hn
    obtain ⟨⟨hoi, hoc, hos⟩, ⟨hic, his⟩, -, hns, hdis⟩ := hn
    simp only [Forest.keys, List.nodup_cons] at hk
    simp only [Forest.width] at hroom
    simp only [Forest.ids, Forest.keys, List.mem_cons, List.mem_append, not_or] at hpre
    -- the grandchild is put last among the children of `old`
    obtain ⟨s₁, e₁, a₁, l₁, g₁⟩ := R.setChild (keyByte tail.head?) id hold
      (fun d hd => by
        obtain ⟨-, w, hw, hne, -⟩ := hpre d hd
        exact ⟨w, hw, fun he => hne ((keyByte_inj (R.nulFree hw) (R.nulFree hid)).mp he)⟩)
      (by omega)
    -- and gets `old` for its parent
    obtain ⟨s₂, e₂, a₂, l₂, g₂⟩ := R.setParent old (R.frame hid g₁ (by simpa using Ne.symm hoi))
    have g₁₂ : Grows [old, id] s s₂ := R.trans (R.mono g₁ (by simp)) (R.mono g₂ (by simp))
    have hkeep : ∀ {q : Ptr} {w : NodeView}, At s.heap q w → q ≠ old → q ≠ id → At s₂.heap q w :=
      fun hq h1 h2 => R.frame hq g₁₂ (by simp [h1, h2])
    obtain ⟨s', e', a', r', l', g'⟩ := ihs (s := s₂) (l := l ++ [id])
      (R.frame a₁ g₂ (by simpa using hoi))
      (R.rep_frame hsib g₁₂ fun q hq => by
        simp only [List.mem_cons, List.not_mem_nil, or_false, not_or]
        exact ⟨fun h => hos (h ▸ hq), fun h => his (h ▸ hq)⟩)
      (List.nodup_cons.mpr ⟨hos, hns⟩) hk.2
      (fun c hc => by
        rw [List.mem_append, List.mem_singleton] at hc
        rcases hc with hc | rfl
        · obtain ⟨⟨h1, h2, -, h3⟩, w, hw, -, hwk⟩ := hpre c hc
          exact ⟨by simp [h1, h3], w, hkeep hw h1 h2, hwk⟩
        · exact ⟨by simp [Ne.symm hoi, his], _, a₂, hk.1⟩)
      (by simp; omega)
    refine ⟨s', ?_, by simpa [Forest.roots] using a', R.rep_node.mpr ⟨?_, ?_, r'⟩, by omega, ?_⟩
    · rw [Forest.roots, moveChildren, R.getVal hid, headD_eq_keyByte, ok_bind, e₁, ok_bind, e₂, ok_bind, e']
    · exact R.frame a₂ g' (by
        simp only [List.mem_cons, not_or]
        exact ⟨Ne.symm hoi, fun h => his (Forest.roots_subset_ids _ h)⟩)
    · refine R.rep_frame (R.rep_frame hcs g₁₂ ?_) g' ?_
      all_goals intro q hq
      · simp only [List.mem_cons, List.not_mem_nil, or_false, not_or]
        exact ⟨fun h => hoc (h ▸ hq), fun h => hic (h ▸ hq)⟩
      · simp only [List.mem_cons, not_or]
        exact ⟨fun h => hoc (h ▸ hq), fun h => hdis q hq q (Forest.roots_subset_ids _ h) rfl⟩
    · refine R.trans (R.mono g₁₂ ?_) (R.mono g' ?_)
      · simp [Forest.roots]
      · simp [Forest.roots]

/-- The children of `p`, if it has any, become those of `q`. -/
theorem passChildren_eq {q : Ptr} {t t' : Str} {leaf leaf' : Bool} {par par' : Option Ptr} {cs : Forest Ptr Byte}
    (hp : At s.heap p ⟨t, leaf, par, cs.roots⟩) (hq : At s.heap q ⟨t', leaf', par', []⟩) (hne : p ≠ q)
    (hc : Rep s.heap (some p) cs) (hn : (p :: cs.ids).Nodup) (hqc : q ∉ cs.ids) (hk : cs.keys.Nodup) :
    ∃ s', (if cs.roots.length ≠ 0 then do (← moveChildren q cs.roots s).killChildren p else pure s) = .ok s' ∧
      At s'.heap p ⟨t, leaf, par, []⟩ ∧ At s'.heap q ⟨t', leaf', par', cs.roots⟩ ∧ Rep s'.heap (some q) cs ∧
      s'.heap.length = s.heap.length ∧ Grows (q :: p :: cs.roots) s s' := by
  obtain ⟨hpc, hnc⟩ := List.nodup_cons.mp hn
  by_cases h0 : cs.roots = []
  · obtain rfl := Forest.roots_eq_nil_iff.mp h0
    exact ⟨s, rfl, hp, hq, R.rep_nil, rfl, R.refl⟩
  · have hroom : cs.width ≤ capacity := by simpa using R.room hp
    obtain ⟨s₁, e₁, b₁, r₁, l₁, g₁⟩ :=
      R.moveChildren_eq hq hc (List.nodup_cons.mpr ⟨hqc, hnc⟩) hk (by simp) (by simpa using hroom)
    have hpq : p ∉ q :: cs.roots := by
      rw [List.mem_cons, not_or]
      exact ⟨hne, fun h => hpc (Forest.roots_subset_ids _ h)⟩
    obtain ⟨s₂, e₂, a₂, l₂, g₂⟩ := R.killChildren (R.frame hp g₁ hpq)
    refine ⟨s₂, ?_, a₂, ?_, R.rep_frame r₁ g₂ ?_, l₂.trans l₁, R.trans (R.mono g₁ ?_) (R.mono g₂ (by simp))⟩
    · rw [if_pos (mt List.length_eq_zero_iff.mp h0), e₁, ok_bind, e₂]
    · simpa using R.frame b₁ g₂ (by simpa using Ne.symm hne)
    · intro c hc hm
      exact hpc (List.mem_singleton.mp hm ▸ hc)
    · exact List.cons_subset_cons _ (List.subset_cons_self _ _)

/-- The tail of a node is split: the lower half, with the leaf flag and the children,
is a new node under the upper half. -/
theorem splitTail_eq {t : Str} {leaf : Bool} {par : Option Ptr} {cs : Forest Ptr Byte} {k : ℕ}
    (hp : At s.heap p ⟨t, leaf, par, cs.roots⟩) (hc : Rep s.heap (some p) cs) (hn : (p :: cs.ids).Nodup)
    (hk : cs.keys.Nodup) (hlt : k < t.length) :
    ∃ s', s.splitTail p t k = .ok s' ∧
      Rep s'.heap par (.node p (t.take k) false (.node s.heap.length (t.drop k) leaf cs .nil) .nil) ∧
      s'.heap.length = s.heap.length + 1 ∧ Grows (p :: cs.roots) s s' := by
  have hnul : NulFree t := R.nulFree hp
  have hplt := R.lt hp
  have hclt := R.rep_lt hc
  have hne : p ≠ s.heap.length := Nat.ne_of_lt hplt
  obtain ⟨s₁, e₁, a₁, l₁, g₁⟩ := R.setTail hp (hnul.take k)
  obtain ⟨s₂, e₂, b₂, l₂, g₂⟩ := R.makeNode s₁
  rw [l₁] at e₂ b₂ l₂
  have a₂ := R.frame a₁ g₂ (by simp)
  obtain ⟨s₃, e₃, b₃, l₃, g₃⟩ := R.setIsLeaf leaf b₂
  obtain ⟨s₄, e₄, b₄, l₄, g₄⟩ := R.setVal (keyByte (t.drop k).head?) b₃
  obtain ⟨s₅, e₅, b₅, l₅, g₅⟩ := R.setTail b₄ (hnul.drop k)
  obtain ⟨s₆, e₆, b₆, l₆, g₆⟩ := R.setParent p b₅
  -- the new node has been written to; everything else is as after the first step
  have g₂₆ : Grows [s.heap.length] s₂ s₆ := R.trans (R.trans (R.trans g₃ g₄) g₅) g₆
  have a₆ := R.frame a₂ g₂₆ (by simpa using hne)
  have g₀₆ : Grows [p, s.heap.length] s s₆ :=
    R.trans (R.trans (R.mono g₁ (by simp)) (R.mono g₂ (by simp))) (R.mono g₂₆ (by simp))
  have hc₆ : Rep s₆.heap (some p) cs := R.rep_frame hc g₀₆ fun q hq => by
    simp only [List.mem_cons, List.not_mem_nil, or_false, not_or]
    exact ⟨fun h => (List.nodup_cons.mp hn).1 (h ▸ hq), Nat.ne_of_lt (hclt q hq)⟩
  have hfresh : s.heap.length ∉ cs.ids := fun h => Nat.lt_irrefl _ (hclt _ h)
  obtain ⟨s₇, e₇, a₇, b₇, r₇, l₇, g₇⟩ := R.passChildren_eq a₆ b₆ hne hc₆ hn hfresh hk
  obtain ⟨s₈, e₈, a₈, l₈, g₈⟩ := R.setIsLeaf false a₇
  obtain ⟨s₉, e₉, a₉, l₉, g₉⟩ := R.setChild (keyByte (t.drop k).head?) s.heap.length a₈ (by simp) (Nat.zero_lt_of_lt R.capacity)
  have g₈₉ := R.trans g₈ g₉
  have hlen : s₉.heap.length = s.heap.length + 1 := by omega
  refine ⟨s₉, ?_, R.rep_node.mpr ⟨a₉, R.rep_node.mpr ⟨R.frame b₇ g₈₉ ?_, ?_, R.rep_nil⟩, R.rep_nil⟩, hlen, ?_⟩
  · have hch : charAt t k = .ok (keyByte (t.drop k).head?) := charAt_eq hlt.le
    simp only [splitTail, e₁, ok_bind, e₂, R.getIsLeaf a₂, e₃, hch, e₄, e₅, e₆, R.getChildren a₆]
    split_ifs at e₇ ⊢ with h0
    · rw [← bind_assoc, e₇, ok_bind, e₈, ok_bind, e₉]
    · rw [e₇, ok_bind, e₈, ok_bind, e₉]
  · simpa using Ne.symm hne
  · exact R.rep_frame r₇ g₈₉ fun q hq => by
      simpa using fun h : q = p => (List.nodup_cons.mp hn).1 (h ▸ hq)
  · -- the new node was not there before
    have g : Grows (s.heap.length :: p :: cs.roots) s s₉ :=
      R.trans (R.trans (R.mono g₀₆ (by simp)) g₇) (R.mono g₈₉ (by simp))
    refine R.fresh g ?_
    intro q hq hlt
    exact (List.mem_cons.mp hq).resolve_left fun h => Nat.lt_irrefl _ (h ▸ hlt)

/-- The new child is made, and then entered with its parent. -/
theorem newChild_eq_setChild (s : SearchT N) {word : Str} {i : ℕ} (hw : NulFree word) (hi : i ≤ word.length) (p : Ptr) :
    ∃ s₁ : SearchT N, s.newChild word p i =
        (s₁.setChild p (keyByte (word.drop i).head?) s.heap.length >>= fun s' => .ok (s', s.heap.length)) ∧
      At s₁.heap s.heap.length ⟨word.drop i, true, none, []⟩ ∧ s₁.heap.length = s.heap.length + 1 ∧ Grows [] s s₁ := by
  obtain ⟨s₁, e₁, a₁, l₁, g₁⟩ := R.makeNode s
  obtain ⟨s₂, e₂, a₂, l₂, g₂⟩ := R.setVal (keyByte (word.drop i).head?) a₁
  obtain ⟨s₃, e₃, a₃, l₃, g₃⟩ := R.setTail a₂ (hw.drop i)
  obtain ⟨s₄, e₄, a₄, l₄, g₄⟩ := R.setIsLeaf true a₃
  have hch : charAt word i = .ok (keyByte (word.drop i).head?) := charAt_eq hi
  refine ⟨s₄, by simp only [newChild, e₁, ok_bind, hch, e₂, e₃, e₄, pure_ok], a₄, by omega, ?_⟩
  refine R.fresh (R.trans (R.mono g₁ (List.nil_subset _)) (R.trans (R.trans g₂ g₃) g₄)) ?_
  intro q hq hlt
  rw [List.mem_singleton.mp hq] at hlt
  exact absurd hlt (Nat.lt_irrefl _)

/-- With room for it the new child comes after the others. -/
theorem newChild_eq {t word : Str} {leaf : Bool} {par : Option Ptr} {l : List Ptr} {i : ℕ} (hp : At s.heap p ⟨t, leaf, par, l⟩)
    (hw : NulFree word) (hi : i ≤ word.length) (hv : ∀ d ∈ l, ∃ w, At s.heap d w ∧ w.tail.head? ≠ (word.drop i).head?)
    (hroom : l.length < capacity) :
    ∃ s', s.newChild word p i = .ok (s', s.heap.length) ∧ At s'.heap p ⟨t, leaf, par, l ++ [s.heap.length]⟩ ∧
      At s'.heap s.heap.length ⟨word.drop i, true, none, []⟩ ∧ s'.heap.length = s.heap.length + 1 ∧ Grows [p] s s' := by
  obtain ⟨s₁, e₁, b₁, l₁, g₁⟩ := R.newChild_eq_setChild s hw hi p
  obtain ⟨s₂, e₂, a₂, l₂, g₂⟩ := R.setChild (keyByte (word.drop i).head?) s.heap.length (R.frame hp g₁ (by simp))
    (fun d hd => by
      obtain ⟨w, hd, hne⟩ := hv d hd
      exact ⟨w, R.frame hd g₁ (by simp), fun h => hne ((keyByte_inj (R.nulFree hd) (hw.drop i)).mp h)⟩)
    hroom
  refine ⟨s₂, by rw [e₁, e₂, ok_bind], a₂, R.frame b₁ g₂ ?_, by omega, R.trans (R.mono g₁ (by simp)) g₂⟩
  simpa using (Nat.ne_of_lt (R.lt hp)).symm

/-- The walk of `add` relies on no more than the calls. -/
theorem addRules : AddRules (fun h p t leaf par cs => At h p ⟨t, leaf, par, cs.roots⟩) Rep Grows capacity where
  rep_nil := R.rep_nil
  rep_node := R.rep_node
  refl := R.refl
  trans := R.trans
  fresh := R.fresh
  lt := R.lt
  frame := R.frame
  insert_of_mem hp hk := by rwa [(Forest.insert_of_mem hk).1]
  getTail := R.getTail
  getChild := R.getChild
  setIsLeaf := R.setIsLeaf true
  setParent := R.setParent
  setParent_same hp := R.setParent_same hp rfl
  splitTail hp hc hn hk _ hlt := R.splitTail_eq hp hc hn hk hlt
  newChild b hp hc hw hi hk hroom := by
    obtain ⟨s', e', a', b', l', g'⟩ := R.newChild_eq hp hw hi (R.rep_roots hc hk) (by simpa using hroom)
    rw [← (Forest.insert_of_notMem (b := b) hk).1] at a'
    exact ⟨s', e', a', b', l', g'⟩
  capacity := R.capacity

end CallRules

end InfixSearch
