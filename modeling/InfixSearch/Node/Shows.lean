import InfixSearch.Node.Packed

/-!
# What a packed node shows

A packed node in good order shows a `NodeView`: a tail, a leaf flag, a parent and
a list of children. `Node2T.Shows` says how the two arrays hold the view, and
there is one rule for each operation of `node2_t`: given a node that shows `v`,
it succeeds and the result shows `v` changed in the one place. The rule of
`set_child` is where the signed count matters: the 127th child ends the program
(`setChild_exit`).
-/

namespace InfixSearch

open Library

/-- What the callers of a node see of it. -/
@[ext]
structure NodeView where
  /-- The tail. -/
  tail : Str
  /-- Whether a word ends here. -/
  leaf : Bool
  /-- The parent. -/
  parent : Option Ptr
  /-- The children, first set first. -/
  children : List Ptr
  deriving DecidableEq

namespace Node2T

/-- The most children a packed node can hold: `127` is the largest count. -/
def capacity : ℕ := 126

/-- The slots after the parent's: one is there before any child is. -/
def slots (children : List Ptr) : Block (Option Ptr) :=
  if children = [] then [some none] else children.map fun c => some (some c)

/-- The bytes of `data`: flags, count, tail and NUL, and whatever `realloc` left behind. -/
def layout (metadata : Byte) (v : NodeView) (slack : Block Byte) : Block Byte :=
  some metadata :: some (UInt8.ofNat (1 + (slots v.children).length)) :: (v.tail.map some ++ some 0 :: slack)

/-- The node `n` shows `v`. -/
structure Shows (n : Node2T) (v : NodeView) : Prop where
  /-- The tail can be kept as a C string. -/
  nulFree : NulFree v.tail
  /-- The count has not wrapped. -/
  room : v.children.length ≤ capacity
  /-- The parent, then the children. -/
  neighbors : n.neighbors = some v.parent :: slots v.children
  /-- The bytes. -/
  data : ∃ metadata slack, n.data = layout metadata v slack ∧ (metadata &&& 1 == 1) = v.leaf

/-! ### Bytes -/

theorem charToInt_ofNat : ∀ {k : ℕ}, k < 128 → charToInt (UInt8.ofNat k) = k := by decide

theorem childSlots_ofNat {k : ℕ} (h : k < 127) : childSlots (UInt8.ofNat (1 + k)) = List.range' 1 k := by
  rw [childSlots, charToInt_ofNat (by omega)]
  congr 1
  omega

theorem and_one_or_one (m : UInt8) : (m ||| 1) &&& 1 = 1 := by
  apply UInt8.eq_of_toBitVec_eq
  ext i
  simp
  grind

theorem and_one_or_two (m : UInt8) : (m ||| (1 <<< (1 : UInt8))) &&& 1 = m &&& 1 := by
  apply UInt8.eq_of_toBitVec_eq
  ext i
  simp
  grind

theorem or_one_of_and_one : ∀ m : UInt8, (m &&& 1 == 1) = true → m ||| (1 <<< (0 : UInt8)) = m := by
  rintro ⟨b⟩
  revert b
  decide +kernel

theorem reallocNeighbors_ofNat {k : ℕ} (h : k < 128) (nb : Block (Option Ptr)) :
    reallocNeighbors nb (UInt8.ofNat k) = .ok (nb.realloc k) := by
  rw [reallocNeighbors, charToInt_ofNat h]
  have hk : ((k : ℤ) * 8 % 2 ^ 64).toNat = k * 8 := by omega
  simp only [hk]
  rw [if_pos (by omega), Nat.mul_div_cancel _ (by omega), pure_ok]

theorem reallocData_natCast {data : Block Byte} {size : ℕ} (h : 0 < size) : reallocData data size = .ok (data.realloc size) := by
  rw [reallocData, if_pos (Int.natCast_pos.mpr h), Int.toNat_natCast, pure_ok]

/-- A count of `128` is `-128`, and the size asked for is near `2⁶⁴`. -/
theorem reallocNeighbors_wrapped (nb : Block (Option Ptr)) :
    reallocNeighbors nb (UInt8.ofNat 128) = .error .exit := by
  have h : charToInt (UInt8.ofNat 128) = -128 := by decide
  rw [reallocNeighbors, h]
  simp

/-! ### Slots -/

theorem length_slots (cs : List Ptr) : (slots cs).length = max 1 cs.length := by
  unfold slots
  split_ifs with h
  · simp [h]
  · have := List.length_pos_iff.mpr h
    simp; omega

theorem length_slots_le {cs : List Ptr} (h : cs.length ≤ capacity) : (slots cs).length ≤ 126 := by
  rw [length_slots]; unfold capacity at h; omega

theorem slots_append (cs : List Ptr) (c : Ptr) : slots (cs ++ [c]) = cs.map (fun c => some (some c)) ++ [some (some c)] := by
  simp [slots]

/-- The loops over `neighbors` go through the children in order. -/
theorem collect_map (pre : Block (Option Ptr)) (cs : List Ptr) :
    collect (pre ++ cs.map fun c => some (some c)) (List.range' pre.length cs.length) = .ok cs := by
  induction cs generalizing pre with
  | nil => rfl
  | cons c cs ih =>
    have hr : (pre ++ (c :: cs).map fun c => some (some c)).read pre.length = .ok (some c) :=
      Block.read_of_getElem? (by simp)
    have ih' := ih (pre ++ [some (some c)])
    simp only [List.length_append, List.length_singleton, List.append_assoc, List.singleton_append] at ih'
    rw [List.length_cons, List.range'_succ, collect, hr, ok_bind]
    simp only [List.map_cons, ih', map_ok]

theorem findVal_map {valOf : Ptr → Except Fault Byte} {vals : Ptr → Byte} (val : Byte) (pre : Block (Option Ptr))
    (cs : List Ptr) (hv : ∀ c ∈ cs, valOf c = .ok (vals c)) :
    findVal valOf (pre ++ cs.map fun c => some (some c)) val (List.range' pre.length cs.length) =
      .ok (cs.find? fun c => vals c = val) := by
  induction cs generalizing pre with
  | nil => rfl
  | cons c cs ih =>
    have hr : (pre ++ (c :: cs).map fun c => some (some c)).read pre.length = .ok (some c) :=
      Block.read_of_getElem? (by simp)
    have ih' := ih (pre ++ [some (some c)]) fun d hd => hv d (List.mem_cons_of_mem _ hd)
    simp only [List.length_append, List.length_singleton, List.append_assoc, List.singleton_append] at ih'
    rw [List.length_cons, List.range'_succ, findVal, hr, ok_bind]
    simp only [hv c List.mem_cons_self, ok_bind, List.map_cons, ih', List.find?_cons]
    by_cases h : vals c = val <;> simp [h]

/-- The loop of `set_child`, with all slots taken. -/
theorem findSlot_map {valOf : Ptr → Except Fault Byte} {vals : Ptr → Byte} (val : Byte) (pre : Block (Option Ptr))
    (cs : List Ptr) (hv : ∀ c ∈ cs, valOf c = .ok (vals c)) :
    findSlot valOf (pre ++ cs.map fun c => some (some c)) val (List.range' pre.length cs.length) =
      .ok (if ∃ c ∈ cs, vals c = val then .duplicate else .full) := by
  induction cs generalizing pre with
  | nil => simp [findSlot]
  | cons c cs ih =>
    have hr : (pre ++ (c :: cs).map fun c => some (some c)).read pre.length = .ok (some c) :=
      Block.read_of_getElem? (by simp)
    have ih' := ih (pre ++ [some (some c)]) fun d hd => hv d (List.mem_cons_of_mem _ hd)
    simp only [List.length_append, List.length_singleton, List.append_assoc, List.singleton_append] at ih'
    rw [List.length_cons, List.range'_succ, findSlot, hr, ok_bind]
    simp only [hv c List.mem_cons_self, ok_bind, List.map_cons, ih']
    by_cases h : vals c = val <;> simp [h]

namespace Shows

variable {n : Node2T} {v : NodeView}

/-! ### Reading -/

theorem read_total (h : Shows n v) :
    n.data.read totalNeighborsIndex = .ok (UInt8.ofNat (1 + (slots v.children).length)) := by
  obtain ⟨metadata, slack, hd, -⟩ := h.data
  exact Block.read_of_getElem? (by rw [hd]; rfl)

theorem childSlots_eq (h : Shows n v) :
    childSlots (UInt8.ofNat (1 + (slots v.children).length)) = List.range' 1 (slots v.children).length :=
  childSlots_ofNat (by have := length_slots_le h.room; omega)

theorem getTail_eq (h : Shows n v) : getTail n = .ok v.tail := by
  obtain ⟨metadata, slack, hd, -⟩ := h.data
  rw [getTail, hd]
  exact cstr_append h.nulFree slack

theorem getVal_eq (h : Shows n v) : getVal n = .ok (v.tail.headD 0) := by
  obtain ⟨metadata, slack, hd, -⟩ := h.data
  refine Block.read_of_getElem? ?_
  rw [hd]
  cases hv : v.tail <;> simp [layout, hv, tailIndex]

theorem getIsLeaf_eq (h : Shows n v) : getIsLeaf n = .ok v.leaf := by
  obtain ⟨metadata, slack, hd, hl⟩ := h.data
  rw [getIsLeaf, getFlag, Block.read_of_getElem? (x := metadata) (by rw [hd]; rfl)]
  simp [bitIndexIsLeaf, hl]

theorem getParent_eq (h : Shows n v) : getParent n = .ok v.parent :=
  Block.read_of_getElem? (by rw [h.neighbors]; rfl)

theorem getChildren_eq (h : Shows n v) : getChildren n = .ok v.children := by
  rw [getChildren, h.read_total, ok_bind, h.childSlots_eq, h.neighbors]
  by_cases hc : v.children = []
  · rw [hc]; rfl
  · have := collect_map [some v.parent] v.children
    simpa [slots, hc] using this

theorem getChild_eq (h : Shows n v) {valOf : Ptr → Except Fault Byte} {vals : Ptr → Byte} (val : Byte)
    (hv : ∀ c ∈ v.children, valOf c = .ok (vals c)) :
    getChild valOf n val = .ok (v.children.find? fun c => vals c = val) := by
  rw [getChild, h.read_total, ok_bind, h.childSlots_eq, h.neighbors]
  by_cases hc : v.children = []
  · rw [hc]; rfl
  · have := findVal_map val [some v.parent] v.children hv
    simpa [slots, hc] using this

/-! ### Writing -/

theorem setIsLeaf_eq (h : Shows n v) (b : Bool) :
    ∃ n', setIsLeaf n b = .ok n' ∧ Shows n' { v with leaf := b } := by
  obtain ⟨metadata, slack, hd, -⟩ := h.data
  have hr : n.data.read metadataIndex = .ok metadata := Block.read_of_getElem? (by rw [hd]; rfl)
  have hw (x : Byte) : n.data.write metadataIndex x = .ok (layout x v slack) := by
    rw [Block.write_of_lt (by simp [hd, layout, metadataIndex]), hd]; rfl
  cases b with
  | false =>
    refine ⟨_, by simp only [setIsLeaf, setFlag, mapByte, hr, hw, ok_bind, pure_ok]; rfl, ?_⟩
    exact ⟨h.nulFree, h.room, h.neighbors, _, slack, rfl, by simp⟩
  | true =>
    refine ⟨_, by simp only [setIsLeaf, setFlag, mapByte, hr, hw, ok_bind, pure_ok]; rfl, ?_⟩
    exact ⟨h.nulFree, h.room, h.neighbors, _, slack, rfl, by simp [bitIndexIsLeaf, and_one_or_one]⟩

/-- Marking a leaf again changes nothing. -/
theorem setIsLeaf_same (h : Shows n v) (hl : v.leaf = true) : setIsLeaf n true = .ok n := by
  obtain ⟨metadata, slack, hd, hm⟩ := h.data
  have hr : n.data.read metadataIndex = .ok metadata := Block.read_of_getElem? (by rw [hd]; rfl)
  have hw : n.data.write metadataIndex metadata = .ok n.data := by
    rw [Block.write_of_lt (by simp [hd, layout, metadataIndex]), hd]; rfl
  have hor := or_one_of_and_one metadata (hm.trans hl)
  simp only [setIsLeaf, setFlag, if_true, mapByte, hr, ok_bind, bitIndexIsLeaf, hor, hw, pure_ok]

/-- Marking a node as indexed shows nowhere. -/
theorem setIsIndexed_eq (h : Shows n v) : ∃ n', setIsIndexed n true = .ok n' ∧ Shows n' v := by
  obtain ⟨metadata, slack, hd, hl⟩ := h.data
  have hr : n.data.read metadataIndex = .ok metadata := Block.read_of_getElem? (by rw [hd]; rfl)
  have hw (x : Byte) : n.data.write metadataIndex x = .ok (layout x v slack) := by
    rw [Block.write_of_lt (by simp [hd, layout, metadataIndex]), hd]; rfl
  refine ⟨_, by simp only [setIsIndexed, setFlag, mapByte, hr, hw, ok_bind, pure_ok]; rfl, ?_⟩
  exact ⟨h.nulFree, h.room, h.neighbors, _, slack, rfl, by rw [bitIndexIsIndexed, and_one_or_two, hl]⟩

theorem setVal_eq (h : Shows n v) (val : Byte) : ∃ n', setVal n val = .ok n' ∧ Shows n' v := ⟨n, rfl, h⟩

theorem setParent_eq (h : Shows n v) (p : Option Ptr) :
    ∃ n', setParent n p = .ok n' ∧ Shows n' { v with parent := p } := by
  have hw : n.neighbors.write 0 p = .ok (some p :: slots v.children) := by
    rw [Block.write_of_lt (by simp [h.neighbors]), h.neighbors]; rfl
  exact ⟨⟨n.data, some p :: slots v.children⟩, by rw [setParent, hw, ok_bind, pure_ok], h.nulFree, h.room, rfl, h.data⟩

/-- Setting the parent that a node has already changes nothing. -/
theorem setParent_same (h : Shows n v) : setParent n v.parent = .ok n := by
  have hw : n.neighbors.write 0 v.parent = .ok n.neighbors := by
    rw [Block.write_of_lt (by simp [h.neighbors]), h.neighbors]; rfl
  rw [setParent, hw, ok_bind, pure_ok]

/-- There is room for the tail and what stands around it. -/
theorem length_data (h : Shows n v) : 3 + v.tail.length ≤ n.data.length := by
  obtain ⟨metadata, slack, hd, -⟩ := h.data
  simp [hd, layout]
  omega

/-- `strlen(data)` counts the byte of flags, the count and the tail, or stops at a byte of flags that is zero. -/
theorem strlen_data (h : Shows n v) : ∃ size, strlen n.data = .ok size ∧ (size = 0 ∨ size = v.tail.length + 2) := by
  obtain ⟨metadata, slack, hd, -⟩ := h.data
  rw [hd, layout, strlen, cstr]
  by_cases hm : metadata = 0
  · exact ⟨0, by simp [hm], .inl rfl⟩
  · have hc : (UInt8.ofNat (1 + (slots v.children).length) : UInt8) ≠ 0 := by
      intro h0
      have := congrArg UInt8.toNat h0
      have := length_slots_le h.room
      simp at *; omega
    refine ⟨v.tail.length + 2, ?_, .inr rfl⟩
    rw [if_neg hm, cstr, if_neg hc, cstr_append h.nulFree]
    simp

/-- Whether or not `set_tail` reallocates, there is room for the new tail, of which the part before a NUL is kept. -/
theorem setTailNat_cut (h : Shows n v) (t : Str) : ∃ n', setTailNat n t = .ok n' ∧ Shows n' { v with tail := cut t } := by
  obtain ⟨metadata, slack, hd, hl⟩ := h.data
  obtain ⟨size, hs, hsize⟩ := h.strlen_data
  have hcut := length_cut_le t
  -- the array after the reallocation, if there is one: two bytes kept, and room for the tail
  obtain ⟨rest, hrest, hlen⟩ : ∃ rest, (if ((size + 1 : ℕ) : ℤ) ≠ (3 + t.length : ℕ)
      then reallocData n.data (3 + t.length : ℕ) else pure n.data) =
      .ok (some metadata :: some (UInt8.ofNat (1 + (slots v.children).length)) :: rest) ∧ t.length + 1 ≤ rest.length := by
    split_ifs with hne
    · refine ⟨_, by rw [reallocData_natCast (by omega), hd, Block.realloc, layout,
        show 3 + t.length = t.length + 1 + 1 + 1 by omega]; rfl, ?_⟩
      simp; omega
    · refine ⟨v.tail.map some ++ some 0 :: slack, by rw [hd, layout]; rfl, ?_⟩
      simp; omega
  refine ⟨⟨layout metadata { v with tail := cut t } (rest.drop ((cut t).length + 1)), n.neighbors⟩, ?_,
    nulFree_cut t, h.room, h.neighbors, metadata, _, rfl, hl⟩
  simp only [setTailNat, setTailWith, hs, ok_bind, hrest, strcpy]
  rw [Block.writeAll_eq (by simp [tailIndex]; omega)]
  simp [tailIndex, layout, Nat.add_comm 2]

theorem setTailNat_eq (h : Shows n v) {t : Str} (ht : NulFree t) :
    ∃ n', setTailNat n t = .ok n' ∧ Shows n' { v with tail := t } := by
  have hcut := h.setTailNat_cut t
  rwa [cut_of_nulFree ht] at hcut

theorem killChildren_eq (h : Shows n v) : ∃ n', killChildren n = .ok n' ∧ Shows n' { v with children := [] } := by
  obtain ⟨metadata, slack, hd, hl⟩ := h.data
  have hw : n.data.write totalNeighborsIndex 2 = .ok (layout metadata { v with children := [] } slack) := by
    rw [Block.write_of_lt (by simp [hd, layout, totalNeighborsIndex]), hd]; rfl
  have hr : reallocNeighbors n.neighbors 2 = .ok (n.neighbors.realloc 2) := reallocNeighbors_ofNat (k := 2) (by omega) _
  have hn : (n.neighbors.realloc 2).write 1 none = .ok [some v.parent, some none] := by
    rw [Block.write_of_lt (by simp), h.neighbors]
    have := length_slots v.children
    cases hs : slots v.children with
    | nil => simp [hs] at this; omega
    | cons a l => simp [Block.realloc]
  refine ⟨⟨layout metadata { v with children := [] } slack, [some v.parent, some none]⟩,
    by rw [killChildren, hw, ok_bind, hr, ok_bind, hn, ok_bind, pure_ok], ?_⟩
  exact ⟨h.nulFree, Nat.zero_le _, rfl, metadata, slack, rfl, hl⟩

section SetChild

variable {valOf : Ptr → Except Fault Byte} {vals : Ptr → Byte} {val : Byte}

/-- The loop of `set_child`: the slot that the constructor made is free until there is a child. -/
theorem findSlot_eq (h : Shows n v) (val : Byte) (hv : ∀ c ∈ v.children, valOf c = .ok (vals c)) :
    findSlot valOf n.neighbors val (childSlots (UInt8.ofNat (1 + (slots v.children).length))) =
      .ok (if v.children = [] then .free 1 else if ∃ c ∈ v.children, vals c = val then .duplicate else .full) := by
  rw [h.childSlots_eq, h.neighbors]
  by_cases hc : v.children = []
  · rw [hc]; rfl
  · have := findSlot_map val [some v.parent] v.children hv
    simpa [slots, hc] using this

/-- The loop of `set_child` when no child has the value. -/
theorem findSlot_of_ne (h : Shows n v) (hv : ∀ c ∈ v.children, valOf c = .ok (vals c)) (hne : ∀ c ∈ v.children, vals c ≠ val) :
    findSlot valOf n.neighbors val (childSlots (UInt8.ofNat (1 + (slots v.children).length))) =
      .ok (if v.children = [] then .free 1 else .full) := by
  rw [h.findSlot_eq val hv, if_neg (show ¬ ∃ c ∈ v.children, vals c = val from fun ⟨c, hc, he⟩ => hne c hc he)]

/-- A second child with a value is ignored. -/
theorem setChild_duplicate (h : Shows n v) (hv : ∀ c ∈ v.children, valOf c = .ok (vals c))
    (hval : ∃ c ∈ v.children, vals c = val) (c : Ptr) : setChild valOf n val c = .ok n := by
  have hc : v.children ≠ [] := by
    obtain ⟨d, hd, -⟩ := hval
    exact List.ne_nil_of_mem hd
  rw [setChild, h.read_total, ok_bind, h.findSlot_eq val hv, if_neg hc, if_pos hval, ok_bind, pure_ok]

/-- A child with a value no other child has is put last. -/
theorem setChild_eq (h : Shows n v) (hv : ∀ c ∈ v.children, valOf c = .ok (vals c))
    (hne : ∀ c ∈ v.children, vals c ≠ val) (hroom : v.children.length < capacity) (c : Ptr) :
    ∃ n', setChild valOf n val c = .ok n' ∧ Shows n' { v with children := v.children ++ [c] } := by
  obtain ⟨metadata, slack, hd, hl⟩ := h.data
  unfold capacity at hroom
  rw [setChild, h.read_total, ok_bind, h.findSlot_of_ne hv hne, ok_bind]
  by_cases hc : v.children = []
  · -- the slot that the constructor made
    have hw : n.neighbors.write 1 (some c) = .ok [some v.parent, some (some c)] := by
      rw [Block.write_of_lt (by simp [h.neighbors, slots, hc]), h.neighbors, hc]; rfl
    refine ⟨⟨n.data, [some v.parent, some (some c)]⟩, by simp only [hc, if_true, hw, ok_bind, pure_ok], ?_⟩
    refine ⟨h.nulFree, by simp [hc, capacity], by simp [hc, slots], metadata, slack, ?_, hl⟩
    rw [hd]; simp [layout, hc, slots]
  · -- a slot is added at the end
    have hlen : (slots v.children).length = v.children.length := by
      have := List.length_pos_iff.mpr hc
      rw [length_slots]; omega
    have hcount : UInt8.ofNat (1 + v.children.length) + 1 = UInt8.ofNat (2 + v.children.length) := by
      rw [show 2 + v.children.length = 1 + v.children.length + 1 by omega]; simp
    have hw : n.data.write totalNeighborsIndex (UInt8.ofNat (2 + v.children.length)) =
        .ok (layout metadata { v with children := v.children ++ [c] } slack) := by
      rw [Block.write_of_lt (by simp [hd, layout, totalNeighborsIndex]), hd]
      simp only [layout, totalNeighborsIndex, List.set_cons_succ, List.set_cons_zero, slots_append]
      simp only [List.length_append, List.length_map, List.length_singleton]
      rw [show 1 + (v.children.length + 1) = 2 + v.children.length by omega]
    have hn : (n.neighbors.realloc (2 + v.children.length)).write (1 + v.children.length) (some c) =
        .ok (some v.parent :: slots (v.children ++ [c])) := by
      rw [Block.write_of_lt (by simp), h.neighbors, slots_append, Block.realloc]
      simp [slots, hc, List.take_of_length_le, Nat.add_comm 2, List.set_append_right, Nat.add_comm 1]
    refine ⟨⟨layout metadata { v with children := v.children ++ [c] } slack, some v.parent :: slots (v.children ++ [c])⟩,
      ?_, h.nulFree, by simp [capacity]; omega, rfl, metadata, slack, rfl, hl⟩
    simp only [hc, if_false, hlen, hcount, hw, ok_bind]
    rw [reallocNeighbors_ofNat (by omega), ok_bind, charToInt_ofNat (by omega)]
    rw [show ((2 + v.children.length : ℕ) : ℤ).toNat - 1 = 1 + v.children.length by omega, hn]
    rfl

/-- The 127th child: the count wraps, the reallocation fails and the program exits. -/
theorem setChild_exit (h : Shows n v) (hv : ∀ c ∈ v.children, valOf c = .ok (vals c))
    (hne : ∀ c ∈ v.children, vals c ≠ val) (hfull : v.children.length = capacity) (c : Ptr) :
    setChild valOf n val c = .error .exit := by
  obtain ⟨metadata, slack, hd, -⟩ := h.data
  have hc : v.children ≠ [] := by
    intro h0
    simp [h0, capacity] at hfull
  rw [setChild, h.read_total, ok_bind, h.findSlot_of_ne hv hne, ok_bind]
  have hlen : (slots v.children).length = 126 := by rw [length_slots, hfull]; rfl
  have hw (x : Byte) : ∃ b, n.data.write totalNeighborsIndex x = .ok b :=
    ⟨_, Block.write_of_lt (by simp [hd, layout, totalNeighborsIndex]) x⟩
  obtain ⟨b, hb⟩ := hw (UInt8.ofNat (1 + 126) + 1)
  simp only [hc, if_false, hlen, hb, ok_bind]
  rw [show (UInt8.ofNat (1 + 126) : Byte) + 1 = UInt8.ofNat 128 by decide, reallocNeighbors_wrapped]
  rfl

end SetChild

end Shows

/-- The constructor makes a node with an empty tail, no parent and no children. -/
theorem construct_eq : ∃ n, construct = .ok n ∧ Shows n ⟨[], false, none, []⟩ :=
  ⟨_, rfl, by simp, Nat.zero_le _, rfl, 0, [], rfl, rfl⟩

end Node2T

end InfixSearch
