import InfixSearch.Dawgdic.Expanding
import InfixSearch.Dawgdic.Keeping
import InfixSearch.Library.Placement

/-!
# Placing states

A builder places states of a dawg at offsets: an item with a label has the unit whose index
differs from the offset by the label. Each transition that is placed has a unit (`Node`), which
waits for the offset of the state it leads to or leads to it (`Placed`). Blocks that are no
longer live have labels in their other units that lead nowhere, as the offset they would be
reached from is not used.

What the builder does to units and extra units keeps this: fixing a block (`Placed.fixBlock`),
adding one (`Placed.grow`), and giving a unit the offset of a state that is placed there or was
placed before (`Placed.lead`).
-/

namespace InfixSearch.Dawgdic

open Library DictionaryUnit DictionaryBuilder

/-- A transition that is placed: its unit, its label and where it leads. The root's leads to `p`. -/
inductive Node (p : ℕ) (g : Placement ℕ) : ℕ → UInt8 → ℕ → Prop where
  /-- The root. -/
  | root : Node p g 0 0 p
  /-- A transition with a letter. -/
  | edge {o m : ℕ} {c : UInt8} (hm : (c, m) ∈ g o) (hc : c ≠ 0) : Node p g (cell o c) c m

/-- A unit leads to a state. -/
inductive Leads (nodes : List (List Item)) (g : Placement ℕ) (units : List DictionaryUnit) (i : ℕ) (c : UInt8) (m : ℕ) : Prop where
  /-- It has the offset of the state. -/
  | intro (o : ℕ) (hm : At nodes m (g o)) (henc : Encodable (i ^^^ o))
      (hget : units[i]? = some (inner c (decide (0 ∈ (g o).map Prod.fst)) (i ^^^ o)))

/-- The states that several transitions lead to. -/
def Dawg.merging (d : Dawg) : Finset ℕ := (Finset.range d.flagPool.length).filter fun m => d.flagPool[m]? = some true ∧ m ≠ 0

/-- States are placed; the units in `P` wait, and the blocks before `dead` are fixed. -/
structure Placed (d : Dawg) (nodes : List (List Item)) (p : ℕ) (s : DictionaryBuilder) (v : Marks) (g : Placement ℕ) (P : ℕ → Prop)
    (dead : ℕ) : Prop where
  /-- The units that are not fixed are linked. -/
  unused : s.Unused v
  /-- There are not too many. -/
  bound : s.units.length ≤ 2 ^ 29
  /-- The root is there. -/
  pos : 0 < s.extras.length
  /-- The blocks that are not fixed are live. -/
  late : s.extras.length ≤ dead + 16
  /-- No unit has two items. -/
  apart : Apart g
  /-- At an offset is a state. -/
  state : ∀ o, g o ≠ [] → o < s.units.length ∧ g o ∈ nodes
  /-- The offsets of states are used. -/
  used : ∀ o, dead ≤ o / 256 → o / 256 < s.extras.length → (v.used o = true ↔ o = 0 ∨ g o ≠ [])
  /-- The units of items are fixed. -/
  fixed : ∀ i, dead ≤ i / 256 → i / 256 < s.extras.length → (v.fixed i = true ↔ i = 0 ∨ Taken g i)
  /-- Other units are as they are constructed. -/
  free : ∀ i, dead ≤ i / 256 → i / 256 < s.extras.length → v.fixed i = false → s.units[i]? = some DictionaryUnit.construct
  /-- Or they have labels that lead nowhere. -/
  left : ∀ i, i / 256 < dead → i / 256 < s.extras.length → i ≠ 0 → ¬ Taken g i →
    ∃ w, w / 256 = i / 256 ∧ w ≠ 0 ∧ g w = [] ∧ s.units[i]? = some (inner (labelOf i w) false 0)
  /-- A value is where its state is placed. -/
  leaf : ∀ o value, (0, value) ∈ g o → s.units[o]? = some (DictionaryUnit.leaf value)
  /-- Transitions that are placed wait. -/
  node : ∀ i, P i → ∃ c m, Node p g i c m
  /-- They have labels, and no offset that matters. -/
  wait : ∀ i c m, Node p g i c m → P i → ∃ offset, Encodable offset ∧ s.units[i]? = some (inner c false offset)
  /-- Or they lead to the states they should. -/
  lead : ∀ i c m, Node p g i c m → ¬ P i → Leads nodes g s.units i c m
  /-- The states that several transitions lead to are found again. -/
  links : ∃ f, s.linkTable.Links d.merging f ∧ ∀ m, f m ≠ 0 → At nodes m (g (f m))

variable {d : Dawg} {nodes : List (List Item)} {t : WordTree UInt8 ℕ} {p m i o dead w : ℕ} {c : UInt8} {xs : List Item}
  {s s' : DictionaryBuilder} {v v' : Marks} {g : Placement ℕ} {P P' : ℕ → Prop}

/-! ### Transitions that are placed -/

namespace Dawg.Keeps

theorem nodup_labels (h : d.Keeps nodes t) (hxs : xs ∈ nodes) : (xs.map Prod.fst).Nodup := by
  obtain ⟨pre, post, he⟩ := List.append_of_mem hxs
  obtain ⟨s, hs, hord⟩ := h.spells pre xs post he
  have hheads : (xs.map itemHead).Nodup := by
    rw [← hs.heads_eq]
    exact hord.pairwise_heads.imp fun h => ne_of_lt h
  have hcomp : xs.map itemHead = (xs.map Prod.fst).map fun c : UInt8 => if c = 0 then (⊥ : WithBot UInt8) else c := by
    rw [List.map_map]
    rfl
  rw [hcomp] at hheads
  exact List.Nodup.of_map _ hheads

end Dawg.Keeps

namespace Node

theorem taken (h : Node p g i c m) : i = 0 ∨ Taken g i := by
  cases h with
  | root => exact .inl rfl
  | edge hm hc => exact .inr ⟨_, _, hm, rfl⟩

/-- A unit is that of one transition. -/
theorem unique {c' : UInt8} {m' : ℕ} (h : Node p g i c m) (h' : Node p g i c' m') (hg : Apart g) : c = c' ∧ m = m' := by
  generalize hi : i = j at h'
  cases h with
  | root =>
    cases h' with
    | root => exact ⟨rfl, rfl⟩
    | edge hm hc => exact absurd ⟨_, _, hm, hi⟩ hg.first
  | edge hm hc =>
    cases h' with
    | root => exact absurd ⟨_, _, hm, hi.symm⟩ hg.first
    | edge hm' hc' =>
      obtain ⟨-, he⟩ := hg.unique hm hm' hi
      rw [Prod.mk.injEq] at he
      exact he

theorem ne_of_leaf {value : ℕ} (h : Node p g i c m) (hg : Apart g) (hv : (0, value) ∈ g o) : i ≠ o := by
  rintro rfl
  generalize hi : i = j at h
  cases h with
  | root =>
    subst hi
    exact hg.first ⟨0, _, hv, (cell_zero 0).symm⟩
  | edge hm hc =>
    obtain ⟨-, he⟩ := hg.unique hm hv (hi.symm.trans (cell_zero i).symm)
    exact hc (congrArg Prod.fst he)

theorem mono {g' : Placement ℕ} (h : Node p g i c m) (hg : ∀ o, g o ≠ [] → g' o = g o) : Node p g' i c m := by
  cases h with
  | root => exact .root
  | edge hm hc => exact .edge (hg _ (List.ne_nil_of_mem hm) ▸ hm) hc

end Node

/-! ### Items that are placed -/

/-- The unit of an item after it is placed. -/
def itemUnit (x : Item) : DictionaryUnit := if x.1 = 0 then DictionaryUnit.leaf x.2 else inner x.1 false 0

/-- The items `zs` are placed at `o`, and the unit `i` is changed to `u`. -/
structure Places (s s' : DictionaryBuilder) (v v' : Marks) (o : ℕ) (zs : List Item) (i : ℕ) (u : DictionaryUnit) : Prop where
  /-- The units that are not fixed are linked. -/
  unused : s'.Unused v'
  /-- There are no new blocks. -/
  length : s'.extras.length = s.extras.length
  /-- The links of states are the same. -/
  linkTable : s'.linkTable = s.linkTable
  /-- The units of the items are fixed. -/
  fixed : ∀ j, v'.fixed j = true ↔ v.fixed j = true ∨ ∃ x ∈ zs, j = cell o x.1
  /-- They have the labels or the value. -/
  cells : ∀ x ∈ zs, s'.units[cell o x.1]? = some (itemUnit x)
  /-- The unit is changed. -/
  unit : s'.units[i]? = some u
  /-- Other units are the same. -/
  same : ∀ j, j ≠ i → (∀ x ∈ zs, j ≠ cell o x.1) → s'.units[j]? = s.units[j]?

/-- The state `xs` is placed at `o` now, with all its items in units that are free, or it was placed there before. -/
inductive Enters (s : DictionaryBuilder) (v : Marks) (g : Placement ℕ) (dead o : ℕ) (xs zs : List Item) : Prop where
  /-- The items are new. -/
  | new (hgo : g o = []) (hzs : zs = xs) (hdead : dead ≤ o / 256) (hlt : o / 256 < s.extras.length)
      (hfree : ∀ x ∈ zs, v.fixed (cell o x.1) = false)
  /-- There are no new items. -/
  | old (hgo : g o = xs) (hzs : zs = [])

namespace Enters

variable {zs : List Item}

/-- The units of the items are not taken. -/
theorem not_taken (he : Enters s v g dead o xs zs) (h : Placed d nodes p s v g P dead) :
    ∀ x ∈ zs, cell o x.1 ≠ 0 ∧ ¬ Taken g (cell o x.1) := by
  rcases he with ⟨hgo, rfl, hdead, hlt, hfree⟩ | ⟨-, rfl⟩
  · intro x hx
    have hfixed := h.fixed (cell o x.1) (by rwa [cell_div]) (by rwa [cell_div])
    rw [hfree x hx, Bool.false_eq_true, false_iff, not_or] at hfixed
    exact hfixed
  · exact fun x hx => absurd hx List.not_mem_nil

theorem taken_iff (he : Enters s v g dead o xs zs) (j : ℕ) :
    Taken (Function.update g o xs) j ↔ Taken g j ∨ ∃ x ∈ zs, j = cell o x.1 := by
  rcases he with ⟨hgo, rfl, -⟩ | ⟨rfl, rfl⟩
  · exact taken_update hgo
  · rw [Function.update_eq_self]
    simp

theorem apart (he : Enters s v g dead o xs zs) (h : Placed d nodes p s v g P dead) (ho : o ≠ 0)
    (hlabels : (xs.map Prod.fst).Nodup) : Apart (Function.update g o xs) := by
  have hfree := he.not_taken h
  rcases he with ⟨hgo, rfl, -⟩ | ⟨rfl, -⟩
  · exact h.apart.update ho hgo hlabels hfree
  · rw [Function.update_eq_self]
    exact h.apart

/-- States that are placed stay where they are. -/
theorem update_eq (he : Enters s v g dead o xs zs) {o' : ℕ} (ho' : g o' ≠ []) : Function.update g o xs o' = g o' := by
  rw [Function.update_apply]
  split_ifs with heq
  · subst heq
    rcases he with ⟨hgo, -⟩ | ⟨hgo, -⟩
    · exact absurd hgo ho'
    · exact hgo.symm
  · rfl

/-- A unit of a transition is that of an item, or was one before. -/
theorem node_cases (he : Enters s v g dead o xs zs) {j : ℕ} (hj : Node p (Function.update g o xs) j c m) :
    Node p g j c m ∨ ∃ x ∈ zs, x.1 ≠ 0 ∧ j = cell o x.1 ∧ x = (c, m) := by
  cases hj with
  | root => exact .inl .root
  | @edge o' m c hm' hc =>
    rw [Function.update_apply] at hm'
    split_ifs at hm' with heq
    · subst heq
      rcases he with ⟨-, rfl, -⟩ | ⟨rfl, -⟩
      · exact .inr ⟨_, hm', hc, rfl, rfl⟩
      · exact .inl (.edge hm' hc)
    · exact .inl (.edge hm' hc)

end Enters

/-! ### Blocks -/

namespace Placed

theorem congr (h : Placed d nodes p s v g P dead) (hP : ∀ i, P' i ↔ P i) : Placed d nodes p s v g P' dead := by
  rwa [show P' = P from funext fun i => propext (hP i)]

theorem same_of_fixes (h : Placed d nodes p s v g P dead) (hfix : Fixes s s' v v' dead w) (hdead : dead < s.extras.length)
    (hi : i = 0 ∨ Taken g i) : s'.units[i]? = s.units[i]? := by
  refine hfix.relabels.same i fun hfree => ?_
  have hfixed := (h.fixed i hfree.1.ge (hfree.1 ▸ hdead)).mpr hi
  exact absurd hfixed (by rw [hfree.2]; decide)

/-- A block is fixed. -/
theorem fixBlock (h : Placed d nodes p s v g P dead) (hfix : Fixes s s' v v' dead w) (hdead : dead < s.extras.length) :
    Placed d nodes p s' v' g P (dead + 1) := by
  have hlen := hfix.relabels.length
  have hunits : s'.units.length = s.units.length := by rw [hfix.relabels.unused.marked.units, h.unused.marked.units, hlen]
  have hsame : ∀ i, i = 0 ∨ Taken g i → s'.units[i]? = s.units[i]? := fun i => h.same_of_fixes hfix hdead
  refine ⟨hfix.relabels.unused, hunits.trans_le h.bound, hlen ▸ h.pos, by have := h.late; omega, h.apart,
    fun o ho => hunits ▸ h.state o ho,
    fun o ho ho' => ?_, fun i hi hi' => ?_, fun i hi hi' hfree => ?_, fun i hi hi' hi0 hfree => ?_, fun o value hv => ?_, h.node,
    fun i c m hn hP => ?_, fun i c m hn hP => ?_, ?_⟩
  · rw [hfix.relabels.used]
    exact h.used o (by omega) (hlen ▸ ho')
  · rw [hfix.relabels.fixed, ← h.fixed i (by omega) (hlen ▸ hi')]
    exact or_iff_left (by omega)
  · have hfree' : v.fixed i = false := by
      rw [← Bool.not_eq_true, hfix.relabels.fixed, not_or] at hfree
      simpa using hfree.1
    rw [hfix.relabels.same i fun hc => by have := hc.1; omega]
    exact h.free i (by omega) (hlen ▸ hi') hfree'
  · rw [hlen] at hi'
    by_cases hid : i / 256 = dead
    · have hfixed : v.fixed i = false := by
        rw [← Bool.not_eq_true, h.fixed i hid.ge hi']
        exact fun hc => hc.elim hi0 hfree
      -- an offset of the block is left, so the label is that of one
      obtain ⟨w', hw', hw0', hgw'⟩ := h.apart.exists_free hi0 hfree
      have hused' := h.used w' (by omega) (by omega)
      obtain ⟨hw, hused⟩ := hfix.free.resolve_right fun hall => (hused'.mp (hall w' (by omega))).elim hw0' fun hne => hne hgw'
      rw [← Bool.not_eq_true, h.used w (by omega) (by omega), not_or, not_not] at hused
      refine ⟨w, hw.trans hid.symm, hused.1, hused.2, ?_⟩
      rw [hfix.relabels.label i hid hfixed, h.free i hid.ge hi' hfixed, ← inner_zero, Option.map_some,
        inner_setLabel (.inl (by decide))]
      rfl
    · rw [hfix.relabels.same i fun hc => hid hc.1]
      exact h.left i (by omega) hi' hi0 hfree
  · rw [hsame o (.inr ⟨o, _, hv, (cell_zero o).symm⟩), h.leaf o value hv]
  · rw [hsame i hn.taken]
    exact h.wait i c m hn hP
  · obtain ⟨o, hm, henc, hget⟩ := h.lead i c m hn hP
    exact ⟨o, hm, henc, (hsame i hn.taken).trans hget⟩
  · rw [hfix.relabels.linkTable]
    exact h.links

theorem div_lt (h : Placed d nodes p s v g P dead) (hi : i = 0 ∨ Taken g i) : i / 256 < s.extras.length := by
  have hpos := h.pos
  rcases hi with rfl | ⟨o, x, hx, rfl⟩
  · exact hpos
  · have hlt := (h.state o (List.ne_nil_of_mem hx)).1
    rw [h.unused.marked.units] at hlt
    rw [cell_div]
    omega

theorem same_of_grows (h : Placed d nodes p s v g P dead) (hgrow : Grows s s' v v') (hi : i = 0 ∨ Taken g i) :
    s'.units[i]? = s.units[i]? := by
  have hlt := h.div_lt hi
  have hpool := h.unused.marked.units
  rw [hgrow.units, List.getElem?_append_left (by omega)]

/-- A block is added. -/
theorem grow (h : Placed d nodes p s v g P dead) (hgrow : Grows s s' v v') (hdead : dead ≤ s.extras.length)
    (hlate : s.extras.length + 1 ≤ dead + 16) (hbound : s.units.length + 256 ≤ 2 ^ 29) :
    Placed d nodes p s' v' g P dead := by
  have hlen := hgrow.length
  have hpool := h.unused.marked.units
  have hunits : s'.units.length = s.units.length + 256 := by rw [hgrow.units, List.length_append, List.length_replicate]
  have hsame : ∀ i, i = 0 ∨ Taken g i → s'.units[i]? = s.units[i]? := fun i => h.same_of_grows hgrow
  refine ⟨hgrow.unused, hunits.trans_le hbound, by omega, by omega, h.apart, fun o ho => ?_, fun o ho ho' => ?_,
    fun i hi hi' => ?_,
    fun i hi hi' hfree => ?_, fun i hi hi' hi0 hfree => ?_, fun o value hv => ?_, h.node,
    fun i c m hn hP => ?_, fun i c m hn hP => ?_, ?_⟩
  · have := h.state o ho
    exact ⟨by omega, this.2⟩
  · by_cases hnew : o / 256 = s.extras.length
    · rw [(hgrow.new o hnew).2]
      refine iff_of_false Bool.false_ne_true ?_
      rintro (h0 | hg)
      · have := h.pos
        omega
      · have := (h.state o hg).1
        omega
    · rw [(hgrow.same o (by omega)).2]
      exact h.used o ho (by omega)
  · by_cases hnew : i / 256 = s.extras.length
    · rw [(hgrow.new i hnew).1]
      refine iff_of_false Bool.false_ne_true ?_
      rintro (h0 | hi)
      · have := h.pos
        omega
      · have := h.div_lt (.inr hi)
        omega
    · rw [(hgrow.same i (by omega)).1]
      exact h.fixed i hi (by omega)
  · rw [hgrow.units]
    by_cases hnew : i / 256 = s.extras.length
    · rw [List.getElem?_append_right (by omega), List.getElem?_replicate_of_lt (by omega)]
    · rw [List.getElem?_append_left (by omega)]
      exact h.free i hi (by omega) (by rw [← (hgrow.same i (by omega)).1, hfree])
  · obtain ⟨w, hw⟩ := h.left i hi (by omega) hi0 hfree
    rw [hgrow.units, List.getElem?_append_left (by omega)]
    exact ⟨w, hw⟩
  · rw [hsame o (.inr ⟨o, _, hv, (cell_zero o).symm⟩), h.leaf o value hv]
  · rw [hsame i hn.taken]
    exact h.wait i c m hn hP
  · obtain ⟨o, hm, henc, hget⟩ := h.lead i c m hn hP
    exact ⟨o, hm, henc, (hsame i hn.taken).trans hget⟩
  · rw [hgrow.linkTable]
    exact h.links

/-- A unit gets the offset of the state it leads to, which is placed there now or was before. -/
theorem place {zs : List Item} (h : Placed d nodes p s v g P dead) (hk : d.Keeps nodes t) (hn : Node p g i c m)
    (hP : P i) (hm : At nodes m xs) (ho : o ≠ 0) (henc : Encodable (i ^^^ o))
    (hcase : Enters s v g dead o xs zs)
    (hplaces : Places s s' v v' o zs i (inner c (decide (0 ∈ xs.map Prod.fst)) (i ^^^ o)))
    (hused : ∀ j, dead ≤ j / 256 → j / 256 < s.extras.length → (v'.used j = true ↔ v.used j = true ∨ j = o)) :
    Placed d nodes p s' v' (Function.update g o xs) (fun j => P j ∧ j ≠ i ∨ ∃ x ∈ zs, x.1 ≠ 0 ∧ j = cell o x.1) dead := by
  have hlen := hplaces.length
  have hunits : s'.units.length = s.units.length := by rw [hplaces.unused.marked.units, h.unused.marked.units, hlen]
  have hxs := (hk.wellFormed xs hm.mem).1
  have hfree := hcase.not_taken h
  have hold : ∀ j, j = 0 ∨ Taken g j → j ≠ i → s'.units[j]? = s.units[j]? := by
    refine fun j hj hji => hplaces.same j hji fun x hx he => ?_
    subst he
    exact hj.elim (hfree x hx).1 (hfree x hx).2
  refine ⟨hplaces.unused, hunits.trans_le h.bound, hlen ▸ h.pos, hlen ▸ h.late,
    hcase.apart h ho (hk.nodup_labels hm.mem), fun o' ho' => ?_, fun o' hd hlt => ?_, fun j hd hlt => ?_,
    fun j hd hlt hj => ?_, fun j hd hlt hj0 hj => ?_, fun o' value hv => ?_, fun j hj => ?_,
    fun j c' m' hj hPj => ?_, fun j c' m' hj hPj => ?_, ?_⟩
  · rw [hunits]
    rw [Function.update_apply] at ho' ⊢
    split_ifs at ho' ⊢ with he
    · subst he
      refine ⟨?_, hm.mem⟩
      rcases hcase with ⟨-, -, -, hlt, -⟩ | ⟨hgo, -⟩
      · have := h.unused.marked.units
        omega
      · exact (h.state o' (hgo ▸ hxs)).1
    · exact h.state o' ho'
  · rw [hlen] at hlt
    rw [hused o' hd hlt, h.used o' hd hlt, Function.update_apply]
    by_cases he : o' = o
    · simp [he, hxs]
    · simp [he]
  · rw [hlen] at hlt
    rw [hplaces.fixed, h.fixed j hd hlt, hcase.taken_iff, or_assoc]
  · rw [hlen] at hlt
    rw [← Bool.not_eq_true, hplaces.fixed, not_or] at hj
    have hji : j ≠ i := by
      rintro rfl
      exact hj.1 ((h.fixed j hd hlt).mpr hn.taken)
    rw [hplaces.same j hji fun x hx he => hj.2 ⟨x, hx, he⟩]
    exact h.free j hd hlt (by simpa using hj.1)
  · rw [hlen] at hlt
    rw [hcase.taken_iff, not_or] at hj
    obtain ⟨w, hw, hw0, hgw, hget⟩ := h.left j hd hlt hj0 hj.1
    have hji : j ≠ i := by
      rintro rfl
      exact hn.taken.elim hj0 hj.1
    have hwo : w ≠ o := by
      rintro rfl
      rcases hcase with ⟨-, -, hdead, -⟩ | ⟨hgo, -⟩
      · omega
      · exact hxs (hgo.symm.trans hgw)
    refine ⟨w, hw, hw0, by rw [Function.update_of_ne hwo, hgw], ?_⟩
    rw [hplaces.same j hji fun x hx he => hj.2 ⟨x, hx, he⟩, hget]
  · have hleaf : (0, value) ∈ g o' → s'.units[o']? = some (DictionaryUnit.leaf value) := fun hv' => by
      rw [hold o' (.inr ⟨o', _, hv', (cell_zero o').symm⟩) (hn.ne_of_leaf h.apart hv').symm]
      exact h.leaf o' value hv'
    rw [Function.update_apply] at hv
    split_ifs at hv with he
    · subst he
      rcases hcase with ⟨-, rfl, -⟩ | ⟨rfl, -⟩
      · have hget := hplaces.cells _ hv
        rw [cell_zero] at hget
        rw [hget, itemUnit, if_pos rfl]
      · exact hleaf hv
    · exact hleaf hv
  · rcases hj with ⟨hj, -⟩ | ⟨x, hx, hx0, rfl⟩
    · obtain ⟨c', m', hj⟩ := h.node j hj
      exact ⟨c', m', hj.mono fun o' => hcase.update_eq⟩
    · rcases hcase with ⟨-, rfl, -⟩ | ⟨-, rfl⟩
      · exact ⟨x.1, x.2, .edge (by rwa [Function.update_self]) hx0⟩
      · exact absurd hx List.not_mem_nil
  · rcases hcase.node_cases hj with hj' | ⟨x, hx, hx0, rfl, rfl⟩
    · rcases hPj with ⟨hPj, hji⟩ | ⟨x, hx, -, rfl⟩
      · rw [hold j hj'.taken hji]
        exact h.wait j c' m' hj' hPj
      · exact absurd hj'.taken (not_or.mpr (hfree x hx))
    · refine ⟨0, .inl (by decide), ?_⟩
      rw [hplaces.cells _ hx, itemUnit, if_neg hx0]
  · rw [not_or, not_and_not_right] at hPj
    rcases hcase.node_cases hj with hj' | ⟨x, hx, hx0, rfl, rfl⟩
    · by_cases hji : j = i
      · subst hji
        obtain ⟨rfl, rfl⟩ := hj'.unique hn h.apart
        refine ⟨o, ?_, henc, ?_⟩
        · rwa [Function.update_self]
        · rw [Function.update_self]
          exact hplaces.unit
      · obtain ⟨o', hm', henc', hget⟩ := h.lead j c' m' hj' fun hc => hji (hPj.1 hc)
        have hgo' := hcase.update_eq (hk.wellFormed _ hm'.mem).1
        refine ⟨o', hgo' ▸ hm', henc', ?_⟩
        rw [hgo', hold j hj'.taken hji, hget]
    · exact absurd ⟨_, hx, hx0, rfl⟩ hPj.2
  · obtain ⟨f, hf, hplace⟩ := h.links
    rw [hplaces.linkTable]
    refine ⟨f, hf, fun m' hm' => ?_⟩
    have hat := hplace m' hm'
    rwa [hcase.update_eq (hk.wellFormed _ hat.mem).1]

end Placed

end InfixSearch.Dawgdic
