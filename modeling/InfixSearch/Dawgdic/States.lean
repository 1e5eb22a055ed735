import InfixSearch.Dawgdic.DawgBuilder
import InfixSearch.Library.WordTree

/-!
# States of a dawg

A state of a dawg is a list of items: a label, and the value of the word that ends there or
the index of the first transition of the state the label leads to. The pools of a dawg hold the
states one after the other (`transitions`), each encoded as its transitions (`encode`). A state
spells a tree of words (`Spells`); if no state is held twice, then no tree is spelled twice
(`Spells.unique`).
-/

namespace InfixSearch.Dawgdic

open Library

scoped instance instLinearOrderUInt8 : LinearOrder UInt8 where
  le_refl := UInt8.le_refl
  le_trans _ _ _ := UInt8.le_trans
  lt_iff_le_not_ge _ _ := ⟨fun h => ⟨UInt8.le_of_lt h, UInt8.not_le.mpr h⟩, fun h => UInt8.not_le.mp h.2⟩
  le_antisymm _ _ := UInt8.le_antisymm
  le_total := UInt8.le_total
  toDecidableLE := inferInstance
  toDecidableEq := inferInstance
  toDecidableLT := inferInstance

/-- A label, and where it leads: a value, if it is the end of a word, or else a transition. -/
abbrev Item := UInt8 × ℕ

/-- The base value of an item, with the flags. -/
def itemBase (state sibling : Bool) (x : Item) : BaseType := DawgUnit.base ⟨x.2, 0, x.1, state, sibling⟩

/-- There are bits enough for where an item leads. -/
def Fits (x : Item) : Prop := x.2 < if x.1 = 0 then 2 ^ 31 else 2 ^ 30

/-- The transitions for the items of a state; `state` is the flag of the first and `sibling` that of the last. -/
def encodeWith (state sibling : Bool) : List Item → List (BaseType × UInt8)
  | [] => []
  | [x] => [(itemBase state sibling x, x.1)]
  | x :: y :: xs => (itemBase state true x, x.1) :: encodeWith false sibling (y :: xs)

/-- The transitions for the items of a state. -/
def encode (xs : List Item) : List (BaseType × UInt8) := encodeWith true false xs

/-- The transitions of all states, after the first. -/
def transitions (nodes : List (List Item)) : List (BaseType × UInt8) := (nodes.map encode).flatten

/-- The state `xs` begins at the transition `m`. -/
def At (nodes : List (List Item)) (m : ℕ) (xs : List Item) : Prop :=
  ∃ pre post, nodes = pre ++ xs :: post ∧ m = 1 + pre.flatten.length

variable {nodes : List (List Item)} {xs ys : List Item} {x y : Item} {m n i : ℕ} {state sibling : Bool}

/-! ### Encoding -/

section Item

/-- The flags of an item. -/
def itemFlags (state sibling : Bool) (x : Item) : BaseType :=
  if x.1 = 0 then (if sibling then 1 else 0) else (if state then 2 else 0) ||| (if sibling then 1 else 0)

/-- How many bits they take. -/
def itemBits (x : Item) : ℕ := if x.1 = 0 then 1 else 2

theorem itemBase_eq (state sibling : Bool) (x : Item) :
    itemBase state sibling x = pack (BitVec.ofNat 32 x.2) (itemBits x) (itemFlags state sibling x) := by
  rw [itemBase, DawgUnit.base, itemBits, itemFlags, pack]
  split_ifs <;> simp [BitVec.or_assoc]

/-- The base value as a number. -/
theorem toNat_itemBase (h : Fits x) :
    (itemBase state sibling x).toNat =
      if x.1 = 0 then 2 * x.2 + sibling.toNat else 4 * x.2 + (2 * state.toNat + sibling.toNat) := by
  have hflags : ∀ a b : Bool, ((if a then 2 else 0 : BaseType) ||| if b then 1 else 0).toNat = 2 * a.toNat + b.toNat :=
    by decide
  have hflag : ∀ b : Bool, (if b then 1 else 0 : BaseType).toNat = b.toNat := by decide
  have hle := Bool.toNat_le sibling
  have hle' := Bool.toNat_le state
  rw [itemBase_eq]
  rw [Fits] at h
  by_cases h0 : x.1 = 0
  · rw [if_pos h0] at h
    have hx : (BitVec.ofNat 32 x.2).toNat = x.2 := by rw [BitVec.toNat_ofNat, Nat.mod_eq_of_lt (by omega)]
    rw [itemBits, itemFlags, if_pos h0, if_pos h0, if_pos h0, toNat_pack, hx, hflag]
    · omega
    · rw [hx]
      omega
    · rw [hflag]
      omega
  · rw [if_neg h0] at h
    have hx : (BitVec.ofNat 32 x.2).toNat = x.2 := by rw [BitVec.toNat_ofNat, Nat.mod_eq_of_lt (by omega)]
    rw [itemBits, itemFlags, if_neg h0, if_neg h0, if_neg h0, toNat_pack, hx, hflags]
    · omega
    · rw [hx]
      omega
    · rw [hflags]
      omega

theorem itemBase_and {k : BaseType} (hk : k.toNat < 2 ^ itemBits x) :
    itemBase state sibling x &&& k = itemFlags state sibling x &&& k := by
  rw [itemBase_eq]
  exact pack_and hk

theorem hasSibling_itemBase : BaseUnit.hasSibling ⟨itemBase state sibling x⟩ = sibling := by
  have hend : ∀ b : Bool, (if (if b then 1 else 0 : BaseType) &&& 1 ≠ 0 then true else false) = b := by decide
  have hinner : ∀ a b : Bool,
      (if ((if a then 2 else 0 : BaseType) ||| if b then 1 else 0) &&& 1 ≠ 0 then true else false) = b := by decide
  rw [BaseUnit.hasSibling, itemBase_and (Nat.one_lt_two_pow (by rw [itemBits]; split_ifs <;> decide)), itemFlags]
  by_cases h0 : x.1 = 0
  · rw [if_pos h0]
    exact hend sibling
  · rw [if_neg h0]
    exact hinner state sibling

theorem isState_itemBase (h0 : x.1 ≠ 0) : BaseUnit.isState ⟨itemBase state sibling x⟩ = state := by
  have hinner : ∀ a b : Bool,
      (if ((if a then 2 else 0 : BaseType) ||| if b then 1 else 0) &&& 2 ≠ 0 then true else false) = a := by decide
  rw [BaseUnit.isState, itemBase_and (by rw [itemBits, if_neg h0]; decide), itemFlags, if_neg h0]
  exact hinner state sibling

theorem child_itemBase (h : Fits x) (h0 : x.1 ≠ 0) : BaseUnit.child ⟨itemBase state sibling x⟩ = x.2 := by
  have hle := Bool.toNat_le sibling
  have hle' := Bool.toNat_le state
  rw [BaseUnit.child, BitVec.toNat_ushiftRight, toNat_itemBase h, if_neg h0, Nat.shiftRight_eq_div_pow]
  omega

theorem value_itemBase (h : Fits x) (h0 : x.1 = 0) : BaseUnit.value ⟨itemBase state sibling x⟩ = x.2 := by
  have hle := Bool.toNat_le sibling
  rw [Fits, if_pos h0] at h
  have hnat : (itemBase state sibling x >>> 1).toNat = x.2 := by
    rw [BitVec.toNat_ushiftRight, toNat_itemBase (by rw [Fits, if_pos h0]; exact h), if_pos h0, Nat.shiftRight_eq_div_pow]
    omega
  have hlt : 2 * (itemBase state sibling x >>> 1).toNat < 2 ^ 32 := by omega
  exact (BitVec.toInt_eq_toNat_of_lt hlt).trans (congrArg Nat.cast hnat)

/-- An item is known by its label and its base value. -/
theorem Fits.eq_of_itemBase_eq {state' sibling' : Bool} (hx : Fits x) (hy : Fits y) (hlabel : x.1 = y.1)
    (hbase : itemBase state sibling x = itemBase state' sibling' y) : x = y := by
  refine Prod.ext hlabel ?_
  by_cases h0 : x.1 = 0
  · have hvalue : BaseUnit.value ⟨itemBase state sibling x⟩ = x.2 := value_itemBase hx h0
    rw [hbase, value_itemBase hy (hlabel ▸ h0)] at hvalue
    exact_mod_cast hvalue.symm
  · have hchild : BaseUnit.child ⟨itemBase state sibling x⟩ = x.2 := child_itemBase hx h0
    rw [← hchild, hbase, child_itemBase hy (hlabel ▸ h0)]

end Item

/-! ### Where a state stands -/

@[simp] theorem length_encodeWith (state sibling : Bool) (xs : List Item) : (encodeWith state sibling xs).length = xs.length := by
  induction xs generalizing state with
  | nil => rfl
  | cons x xs ih => cases xs with
    | nil => rfl
    | cons y xs => rw [encodeWith, List.length_cons, ih, List.length_cons (a := x)]

@[simp] theorem length_encode (xs : List Item) : (encode xs).length = xs.length := length_encodeWith true false xs

/-- One more item at the end. -/
theorem encodeWith_concat (xs : List Item) (x : Item) :
    encodeWith state sibling (xs ++ [x]) = encodeWith state true xs ++ [(itemBase (xs.isEmpty && state) sibling x, x.1)] := by
  induction xs generalizing state with
  | nil => rfl
  | cons y xs ih => cases xs with
    | nil => rfl
    | cons z xs =>
      have h := @ih false
      rw [List.cons_append] at h
      rw [List.cons_append, List.cons_append, encodeWith, h, encodeWith]
      rfl

theorem getElem?_encodeWith (hi : xs[i]? = some x) :
    (encodeWith state sibling xs)[i]? =
      some (itemBase (i == 0 && state) (sibling || decide (i + 1 < xs.length)) x, x.1) := by
  induction xs generalizing state i with
  | nil => cases hi
  | cons y xs ih => cases xs with
    | nil =>
      obtain rfl : i = 0 := by
        have := (List.getElem?_eq_some_iff.mp hi).1
        simpa using this
      obtain rfl := Option.some.inj hi
      simp [encodeWith]
    | cons z xs => cases i with
      | zero =>
        obtain rfl := Option.some.inj hi
        simp [encodeWith]
      | succ i =>
        rw [List.getElem?_cons_succ] at hi
        rw [encodeWith, List.getElem?_cons_succ, ih hi]
        simp

/-- The transitions from an item on. -/
theorem drop_encode (hi : xs[i]? = some x) :
    (encode xs).drop i = (itemBase (i == 0) (decide (i + 1 < xs.length)) x, x.1) :: (encode xs).drop (i + 1) := by
  have hlt : i < (encode xs).length := by
    rw [length_encode]
    exact Pool.lt_of_getElem? hi
  have hget : (encode xs)[i]? = some (itemBase (i == 0) (decide (i + 1 < xs.length)) x, x.1) := by
    rw [encode, getElem?_encodeWith hi]
    simp
  rw [List.getElem?_eq_getElem hlt, Option.some.injEq] at hget
  rw [List.drop_eq_getElem_cons hlt, hget]

theorem length_transitions (nodes : List (List Item)) : (transitions nodes).length = nodes.flatten.length := by
  induction nodes with
  | nil => rfl
  | cons xs nodes ih =>
    rw [transitions, List.map_cons, List.flatten_cons, List.length_append, length_encode, List.flatten_cons,
      List.length_append, ← ih]
    rfl

theorem transitions_append (nodes nodes' : List (List Item)) :
    transitions (nodes ++ nodes') = transitions nodes ++ transitions nodes' := by
  simp [transitions]

namespace At

theorem append (h : At nodes m xs) (nodes' : List (List Item)) : At (nodes ++ nodes') m xs := by
  obtain ⟨pre, post, rfl, rfl⟩ := h
  exact ⟨pre, post ++ nodes', by simp, rfl⟩

theorem last (nodes : List (List Item)) (xs : List Item) : At (nodes ++ [xs]) (1 + nodes.flatten.length) xs :=
  ⟨nodes, [], rfl, rfl⟩

theorem of_concat (h : At (nodes ++ [ys]) m xs) : At nodes m xs ∨ xs = ys ∧ m = 1 + nodes.flatten.length := by
  obtain ⟨pre, post, he, rfl⟩ := h
  rcases List.eq_nil_or_concat post with rfl | ⟨post, zs, rfl⟩
  · obtain ⟨rfl, hxs⟩ := List.append_inj' he rfl
    exact .inr ⟨(List.singleton_inj.mp hxs).symm, rfl⟩
  · rw [List.concat_eq_append, ← List.cons_append, ← List.append_assoc] at he
    exact .inl ⟨pre, post, (List.append_inj' he rfl).1, rfl⟩

theorem pos (h : At nodes m xs) : 0 < m := by
  obtain ⟨pre, post, -, rfl⟩ := h
  omega

theorem mem (h : At nodes m xs) : xs ∈ nodes := by
  obtain ⟨pre, post, rfl, -⟩ := h
  simp

theorem of_mem (h : xs ∈ nodes) : ∃ m, At nodes m xs := by
  obtain ⟨pre, post, rfl⟩ := List.append_of_mem h
  exact ⟨_, pre, post, rfl, rfl⟩

theorem getElem?_transitions (h : At nodes m xs) (hi : i < xs.length) :
    (transitions nodes)[m + i - 1]? = (encode xs)[i]? := by
  obtain ⟨pre, post, rfl, rfl⟩ := h
  have hindex : 1 + pre.flatten.length + i - 1 = (transitions pre).length + i := by
    rw [length_transitions]
    omega
  rw [transitions_append, hindex, List.getElem?_append_right (Nat.le_add_right _ _), Nat.add_sub_cancel_left, transitions,
    List.map_cons, List.flatten_cons, List.getElem?_append_left (by rwa [length_encode])]

/-- One state begins at a transition. -/
theorem unique (h : At nodes m xs) (h' : At nodes m ys) (hx : xs ≠ []) (hy : ys ≠ []) : xs = ys := by
  obtain ⟨pre, post, rfl, rfl⟩ := h
  obtain ⟨pre', post', he, hm⟩ := h'
  have hxlen := List.length_pos_iff.mpr hx
  have hylen := List.length_pos_iff.mpr hy
  obtain ⟨as, h₁, h₂⟩ | ⟨bs, h₁, h₂⟩ := List.append_eq_append_iff.mp he
  · cases as with
    | nil =>
      rw [List.nil_append, List.cons.injEq] at h₂
      exact h₂.1
    | cons a as =>
      rw [List.cons_append, List.cons.injEq] at h₂
      rw [h₁, ← h₂.1, List.flatten_append, List.length_append, List.flatten_cons, List.length_append] at hm
      omega
  · cases bs with
    | nil =>
      rw [List.nil_append, List.cons.injEq] at h₂
      exact h₂.1.symm
    | cons b bs =>
      rw [List.cons_append, List.cons.injEq] at h₂
      rw [h₁, ← h₂.1, List.flatten_append, List.length_append, List.flatten_cons, List.length_append] at hm
      omega

/-- A state that is held once begins at one transition. -/
theorem index_unique (h : At nodes m xs) (h' : At nodes n xs) (hnodup : nodes.Nodup) : m = n := by
  obtain ⟨pre, post, rfl, rfl⟩ := h
  obtain ⟨pre', post', he, rfl⟩ := h'
  have hnot : xs ∉ pre ∧ xs ∉ pre' := by
    have h₁ := hnodup
    rw [he] at h₁
    constructor
    · exact fun hm => List.disjoint_of_nodup_append hnodup hm List.mem_cons_self
    · exact fun hm => List.disjoint_of_nodup_append h₁ hm List.mem_cons_self
  obtain ⟨as, h₁, h₂⟩ | ⟨bs, h₁, h₂⟩ := List.append_eq_append_iff.mp he
  · cases as with
    | nil => rw [h₁, List.append_nil]
    | cons a as =>
      rw [List.cons_append, List.cons.injEq] at h₂
      rw [h₁, ← h₂.1] at hnot
      simp at hnot
  · cases bs with
    | nil => rw [h₁, List.append_nil]
    | cons b bs =>
      rw [List.cons_append, List.cons.injEq] at h₂
      rw [h₁, ← h₂.1] at hnot
      simp at hnot

end At

/-! ### The pools -/

/-- The pools hold the states, after the transition of the root. -/
structure Pools (nodes : List (List Item)) (basePool : List BaseUnit) (labelPool : Block UInt8) : Prop where
  /-- The base values. -/
  base : ∃ r, basePool = r :: (transitions nodes).map fun t => ⟨t.1⟩
  /-- The labels. -/
  label : ∃ l, labelPool = l :: (transitions nodes).map fun t => some t.2

namespace Pools

variable {basePool : List BaseUnit} {labelPool : Block UInt8}

theorem length_base (h : Pools nodes basePool labelPool) : basePool.length = 1 + nodes.flatten.length := by
  obtain ⟨r, rfl⟩ := h.base
  rw [List.length_cons, List.length_map, length_transitions, Nat.add_comm]

theorem length_label (h : Pools nodes basePool labelPool) : labelPool.length = 1 + nodes.flatten.length := by
  obtain ⟨l, rfl⟩ := h.label
  rw [List.length_cons, List.length_map, length_transitions, Nat.add_comm]

/-- A transition of a state. -/
theorem get (h : Pools nodes basePool labelPool) (hm : At nodes m xs) (hi : xs[i]? = some x) :
    Pool.get basePool (m + i) = .ok ⟨itemBase (i == 0) (decide (i + 1 < xs.length)) x⟩ ∧
      labelPool.read (m + i) = .ok x.1 := by
  obtain ⟨r, rfl⟩ := h.base
  obtain ⟨l, rfl⟩ := h.label
  have ht : (transitions nodes)[m + i - 1]? = some (itemBase (i == 0) (decide (i + 1 < xs.length)) x, x.1) := by
    rw [hm.getElem?_transitions (Pool.lt_of_getElem? hi), encode, getElem?_encodeWith hi]
    simp
  have hindex : m + i = m + i - 1 + 1 := by
    have := hm.pos
    omega
  constructor
  · refine Pool.get_eq ?_
    rw [hindex, List.getElem?_cons_succ, List.getElem?_map, ht]
    rfl
  · refine Block.read_of_getElem? ?_
    rw [hindex, List.getElem?_cons_succ, List.getElem?_map, ht]
    rfl

end Pools

/-! ### What a state spells -/

/-- What an item begins with. -/
def itemHead (x : Item) : WithBot UInt8 := if x.1 = 0 then ⊥ else x.1

/-- The items spell a tree of words. -/
inductive Spells (nodes : List (List Item)) : List Item → WordTree UInt8 ℕ → Prop where
  /-- No item. -/
  | nil : Spells nodes [] .nil
  /-- The end of a word. -/
  | leaf {xs : List Item} {t : WordTree UInt8 ℕ} (v : ℕ) (next : Spells nodes xs t) : Spells nodes ((0, v) :: xs) (.leaf v t)
  /-- A letter. -/
  | edge {xs ys : List Item} {d t : WordTree UInt8 ℕ} {c : UInt8} {m : ℕ} (hc : c ≠ 0) (hm : At nodes m ys)
      (down : Spells nodes ys d) (next : Spells nodes xs t) : Spells nodes ((c, m) :: xs) (.edge c d t)

namespace Spells

variable {t d : WordTree UInt8 ℕ}

theorem append_nodes (h : Spells nodes xs t) (nodes' : List (List Item)) : Spells (nodes ++ nodes') xs t := by
  induction h with
  | nil => exact .nil
  | leaf v _ ih => exact .leaf v ih
  | edge hc hm _ _ ihd ih => exact .edge hc (hm.append nodes') ihd ih

theorem append {s : WordTree UInt8 ℕ} (h : Spells nodes xs s) (h' : Spells nodes ys t) :
    Spells nodes (xs ++ ys) (s.append t) := by
  induction h with
  | nil => exact h'
  | leaf v _ ih => exact .leaf v ih
  | edge hc hm hd _ _ ih => exact .edge hc hm hd ih

theorem eq_nil_iff (h : Spells nodes xs t) : xs = [] ↔ t = .nil := by
  cases h <;> simp

theorem heads_eq (h : Spells nodes xs t) : t.heads = xs.map itemHead := by
  induction h with
  | nil => rfl
  | leaf v _ ih => rw [WordTree.heads, ih, List.map_cons, itemHead, if_pos rfl]
  | edge hc _ _ _ _ ih => rw [WordTree.heads, ih, List.map_cons, itemHead, if_neg hc]

/-- A word ends only at the first item. -/
theorem tail_ne_zero (h : Spells nodes xs t) (ht : t.Ordered) : ∀ x ∈ xs.tail, x.1 ≠ 0 := by
  have hall : ∀ {xs : List Item} {s : WordTree UInt8 ℕ}, Spells nodes xs s → (∀ x ∈ s.heads, ⊥ < x) → ∀ x ∈ xs, x.1 ≠ 0 := by
    intro xs s hs hheads x hx h0
    rw [hs.heads_eq] at hheads
    have := hheads _ (List.mem_map_of_mem hx)
    rw [itemHead, if_pos h0] at this
    exact lt_irrefl _ this
  cases h with
  | nil => exact fun x hx => nomatch hx
  | leaf v next => exact hall next ht.1
  | edge hc hm down next => exact hall next fun x hx => (WithBot.bot_lt_coe _).trans (ht.2.1 x hx)

/-- What may follow a letter is spelled by the state it leads to. -/
theorem exists_child {c : UInt8} {d : WordTree UInt8 ℕ} (h : Spells nodes xs t) (hc : t.child c = some d) :
    ∃ m ys, c ≠ 0 ∧ (c, m) ∈ xs ∧ At nodes m ys ∧ Spells nodes ys d := by
  induction h with
  | nil => cases hc
  | leaf v _ ih =>
    obtain ⟨m, ys, hc0, hm, hys⟩ := ih hc
    exact ⟨m, ys, hc0, List.mem_cons_of_mem _ hm, hys⟩
  | edge hc0 hm down _ _ ih =>
    rw [WordTree.child] at hc
    split_ifs at hc with he
    · subst he
      exact ⟨_, _, hc0, List.mem_cons_self, hm, Option.some.inj hc ▸ down⟩
    · obtain ⟨m, ys, hc0, hm, hys⟩ := ih hc
      exact ⟨m, ys, hc0, List.mem_cons_of_mem _ hm, hys⟩

theorem child_of_mem {c : UInt8} (h : Spells nodes xs t) (ht : t.Ordered) (hc : c ≠ 0) (hm : (c, m) ∈ xs) :
    ∃ d ys, t.child c = some d ∧ At nodes m ys ∧ Spells nodes ys d := by
  induction h with
  | nil => cases hm
  | leaf v _ ih =>
    rcases List.mem_cons.mp hm with he | hm
    · exact absurd (congrArg Prod.fst he) hc
    · exact ih ht.2 hm
  | @edge xs zs s t e n he hn down next _ ih =>
    rw [WordTree.child]
    rcases List.mem_cons.mp hm with heq | hm
    · obtain ⟨rfl, rfl⟩ := Prod.mk.injEq _ _ _ _ ▸ heq
      exact ⟨s, zs, if_pos rfl, hn, down⟩
    · have hne : e ≠ c := by
        rintro rfl
        have hlt := ht.2.1 (itemHead (e, m)) (next.heads_eq ▸ List.mem_map_of_mem hm)
        rw [itemHead, if_neg hc] at hlt
        exact lt_irrefl _ hlt
      rw [if_neg hne]
      exact ih ht.2.2 hm

/-- If no state is held twice, no tree is spelled twice. -/
theorem unique (h : Spells nodes xs t) (h' : Spells nodes ys t) (hnodup : nodes.Nodup) : xs = ys := by
  induction h generalizing ys with
  | nil =>
    cases h'
    rfl
  | leaf v _ ih =>
    cases h' with
    | leaf _ next => rw [ih next]
  | edge hc hm _ _ ihd ih =>
    cases h' with
    | edge _ hm' down' next' =>
      obtain rfl := ihd down'
      rw [hm.index_unique hm' hnodup, ih next']

end Spells

end InfixSearch.Dawgdic
