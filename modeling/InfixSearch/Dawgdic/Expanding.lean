import InfixSearch.Dawgdic.Unused

/-!
# Expanding a dictionary

When the units of a dictionary are all taken, or none of the unused ones will do, a block is
added. Its units are linked in a ring, which is put in before the first unused unit. If there
are 16 blocks already, then the oldest of them is fixed first, and its extra units are used for
the new one (`exists_expandDictionary`). So a unit can always be reserved that is in the last
blocks or would be in the next one (`exists_reserveUnit`).
-/

namespace InfixSearch.Dawgdic

open Library DictionaryExtraUnit

/-- The marks after new extra units are set up. -/
def Marks.clear (v : Marks) (p : ℕ → Prop) [DecidablePred p] : Marks :=
  ⟨fun i => if p i then 0 else v.next i, fun i => if p i then 0 else v.prev i, fun i => if p i then false else v.fixed i,
    fun i => if p i then false else v.used i⟩

theorem Marks.at_clear (v : Marks) (p : ℕ → Prop) [DecidablePred p] (i : ℕ) :
    (v.clear p).at i = if p i then DictionaryExtraUnit.construct else v.at i := by
  rw [← linked_false]
  split_ifs with hi <;> simp only [Marks.at, clear, hi, if_true, if_false]

/-- The marks after `k` units are linked to the ones before them. -/
def Marks.row (v : Marks) (a k : ℕ) : Marks :=
  { v with
    next := fun i => if a ≤ i ∧ i < a + k then i + 1 else v.next i,
    prev := fun i => if a < i ∧ i ≤ a + k then i - 1 else v.prev i }

theorem Marks.row_zero (v : Marks) (a : ℕ) : v.row a 0 = v := by
  rw [row]
  congr 1 <;> funext i <;> exact if_neg (by omega)

theorem Marks.row_succ (v : Marks) (a k : ℕ) :
    ((v.row a k).setNext (a + k) (a + 1 + k)).setPrev (a + 1 + k) (a + k) = v.row a (k + 1) := by
  simp only [row, setNext, setPrev, Marks.mk.injEq, and_true]
  constructor
  · funext i
    rw [Function.update_apply]
    split_ifs <;> first | rfl | omega
  · funext i
    rw [Function.update_apply]
    split_ifs <;> first | rfl | omega

/-- The marks after the extra units of the block that was 16 blocks before are those of block `n`. -/
def Marks.move (v : Marks) (n : ℕ) : Marks :=
  ⟨fun i => v.next (if i / 256 = n then i - 4096 else i), fun i => v.prev (if i / 256 = n then i - 4096 else i),
    fun i => v.fixed (if i / 256 = n then i - 4096 else i), fun i => v.used (if i / 256 = n then i - 4096 else i)⟩

theorem Marks.at_move (v : Marks) (n i : ℕ) : (v.move n).at i = if i / 256 = n then v.at (i - 4096) else v.at i := by
  split_ifs with hi <;> simp only [Marks.at, move, hi, if_true, if_false]

namespace DictionaryBuilder

variable {s : DictionaryBuilder} {v v' : Marks} {i k a n : ℕ}

/-! ### A new block -/

/-- Only the marks of live units matter. -/
theorem Marked.congr (h : s.Marked v) (hat : ∀ i, Live s.extras.length i → v'.at i = v.at i) : s.Marked v' where
  units := h.units
  block b hb hlive := by
    obtain ⟨block, hblock, hlen, hget⟩ := h.block b hb hlive
    refine ⟨block, hblock, hlen, fun j hj => ?_⟩
    rw [hget j hj, hat _ ⟨by omega, by omega⟩]

/-- New extra units are set up. -/
theorem Marked.exists_clear (h : s.Marked v) {is : List ℕ} (hlive : ∀ i ∈ is, Live s.extras.length i) :
    ∃ extras, is.foldlM (fun s i => s.modifyExtra i fun _ => DictionaryExtraUnit.construct) s = .ok { s with extras := extras } ∧
      ({ s with extras := extras } : DictionaryBuilder).Marked (v.clear (· ∈ is)) ∧ extras.length = s.extras.length := by
  induction is using List.reverseRecOn with
  | nil =>
    refine ⟨s.extras, rfl, ?_, rfl⟩
    simpa [Marks.clear] using h
  | append_singleton is i ih =>
    rw [List.forall_mem_append, List.forall_mem_singleton] at hlive
    obtain ⟨extras, hrun, h₁, hlen⟩ := ih hlive.1
    obtain ⟨extras', hset, h₂, hlen'⟩ := h₁.exists_modifyExtra (w := v.clear (· ∈ is ++ [i])) (f := fun _ => DictionaryExtraUnit.construct)
      (i := i) (hlen ▸ hlive.2) fun j => by
        rw [Marks.at_clear, Marks.at_clear]
        by_cases hj : j = i <;> simp [hj]
    refine ⟨extras', ?_, h₂, hlen'.trans hlen⟩
    rw [List.foldlM_append, hrun, ok_bind, List.foldlM_cons, hset]
    rfl

/-- A new block is allocated. -/
theorem Marked.exists_allocateBlock (h : s.Marked v) {units : List DictionaryUnit} (hunits : units.length = 256) :
    ∃ extras, ({ s with units := s.units ++ units, extras := s.extras ++ [none] } : DictionaryBuilder).allocateBlock (s.extras.length - 16) =
        .ok { s with units := s.units ++ units, extras := extras } ∧
      ({ s with units := s.units ++ units, extras := extras } : DictionaryBuilder).Marked (v.clear fun i => i / 256 = s.extras.length) ∧
      extras.length = s.extras.length + 1 := by
  have hlen : (s.units ++ units).length = (s.extras.length + 1) * 256 := by
    rw [List.length_append, hunits, h.units]
    omega
  rw [allocateBlock, numOfUnfixedBlocks, numOfBlocks]
  dsimp only
  rw [List.length_append, List.length_singleton]
  by_cases hblocks : s.extras.length + 1 > 16
  · obtain ⟨block, hblock, hsize, hat⟩ := h.block (s.extras.length - 16) (by omega) (by omega)
    have hback : (s.extras ++ [none])[s.extras.length]? = some none := List.getElem?_concat_length
    have hmoved : ({ s with
        units := s.units ++ units,
        extras := ((s.extras ++ [none]).set (s.extras.length - 16) none).set s.extras.length (some block) } : DictionaryBuilder).Marked
        (v.move s.extras.length) := by
      refine ⟨hlen.trans (by rw [List.length_set, List.length_set, List.length_append, List.length_singleton]),
        fun b hb hlive => ?_⟩
      rw [List.length_set, List.length_set, List.length_append, List.length_singleton] at hb hlive
      by_cases he : b = s.extras.length
      · subst he
        refine ⟨block, List.getElem?_set_self (by simp), hsize, fun j hj => ?_⟩
        rw [hat j hj, Marks.at_move, if_pos (by omega),
          show s.extras.length * 256 + j - 4096 = (s.extras.length - 16) * 256 + j by omega]
      · obtain ⟨block', hblock', hsize', hat'⟩ := h.block b (by omega) (by omega)
        refine ⟨block', ?_, hsize', fun j hj => ?_⟩
        · rw [List.getElem?_set_ne (Ne.symm he), List.getElem?_set_ne (by omega),
            List.getElem?_append_left (by omega), hblock']
        · rw [Marks.at_move, if_neg (by omega), hat' j hj]
    have hlive : ∀ i ∈ List.range' (s.extras.length * 256) 256, Live (((s.extras ++ [none]).set (s.extras.length - 16) none).set
        s.extras.length (some block)).length i := by
      intro i hi
      rw [List.mem_range'_1] at hi
      rw [List.length_set, List.length_set, List.length_append, List.length_singleton]
      exact ⟨by omega, by omega⟩
    obtain ⟨extras, hrun, hmarked, hcount⟩ := hmoved.exists_clear hlive
    rw [List.length_set, List.length_set, List.length_append, List.length_singleton] at hcount
    refine ⟨extras, ?_, hmarked.congr fun i hi => ?_, hcount⟩
    · rw [if_pos hblocks, reuseBlock, numOfBlocks]
      dsimp only
      rw [List.length_append, List.length_singleton, Nat.add_sub_cancel,
        Pool.get_eq (by rw [List.getElem?_append_left (by omega), hblock]),
        ok_bind, Pool.get_eq hback, ok_bind, numOfUnits, blockSize]
      dsimp only
      rw [hlen, show (s.extras.length + 1) * 256 - 256 = s.extras.length * 256 by omega]
      exact hrun
    · have hmem : i ∈ List.range' (s.extras.length * 256) 256 ↔ i / 256 = s.extras.length := by
        rw [List.mem_range'_1]
        omega
      rw [Marks.at_clear, Marks.at_clear, Marks.at_move]
      by_cases hi' : i / 256 = s.extras.length
      · rw [if_pos hi', if_pos (hmem.mpr hi')]
      · rw [if_neg hi', if_neg fun hc => hi' (hmem.mp hc), if_neg hi']
  · rw [if_neg hblocks, Pool.set_eq (by simp), ok_bind]
    have hcount : ∀ block, (s.extras ++ [some block]).length = s.extras.length + 1 := fun block => by
      rw [List.length_append, List.length_singleton]
    refine ⟨s.extras ++ [some (List.replicate 256 DictionaryExtraUnit.construct)], ?_, ⟨?_, ?_⟩, hcount _⟩
    · rw [Nat.add_sub_cancel, List.set_append_right _ _ le_rfl, Nat.sub_self]
      rfl
    · rw [hcount]
      exact hlen
    · intro b hb hlive
      rw [List.length_append, List.length_singleton] at hb hlive
      by_cases he : b = s.extras.length
      · subst he
        refine ⟨_, List.getElem?_concat_length, List.length_replicate, fun j hj => ?_⟩
        rw [Marks.at_clear, if_pos (by omega), List.getElem?_replicate_of_lt hj]
      · obtain ⟨block, hblock, hsize, hat⟩ := h.block b (by omega) (by omega)
        refine ⟨block, ?_, hsize, fun j hj => ?_⟩
        · rw [List.getElem?_append_left (by omega), hblock]
        · rw [Marks.at_clear, if_neg (by omega), hat j hj]

/-! ### Its ring -/

theorem Marked.exists_foldlM_linkNext (h : s.Marked v) (hlive : ∀ i, a ≤ i → i ≤ a + k → Live s.extras.length i) :
    ∃ extras, (List.range' (a + 1) k).foldlM linkNext s = .ok { s with extras := extras } ∧
      ({ s with extras := extras } : DictionaryBuilder).Marked (v.row a k) ∧ extras.length = s.extras.length := by
  induction k with
  | zero => exact ⟨s.extras, rfl, h.congr fun i _ => by rw [Marks.row_zero], rfl⟩
  | succ k ih =>
    obtain ⟨extras, hrun, h₁, hlen₁⟩ := ih fun i hai hi => hlive i hai (by omega)
    obtain ⟨extras₂, hset₂, h₂, hlen₂⟩ :=
      h₁.exists_setNext (i := a + k) (hlen₁ ▸ hlive _ (by omega) (by omega)) (a + 1 + k)
    obtain ⟨extras₃, hset₃, h₃, hlen₃⟩ :=
      h₂.exists_setPrev (i := a + 1 + k) (hlen₂ ▸ hlen₁ ▸ hlive _ (by omega) (by omega)) (a + k)
    refine ⟨extras₃, ?_, Marks.row_succ v a k ▸ h₃, hlen₃.trans (hlen₂.trans hlen₁)⟩
    rw [List.range'_1_concat, List.foldlM_append, hrun, ok_bind, List.foldlM_cons, linkNext,
      show a + 1 + k - 1 = a + k by omega, hset₂,
      ok_bind, hset₃]
    rfl

/-- The ring of the new block is put in before the first unused unit. -/
theorem Marked.exists_linkBlock (h : s.Marked v) {l : List ℕ} (hring : Ring v.next v.prev l)
    (hlen : s.extras.length = n + 1) (hl : ∀ i ∈ l, Live s.extras.length i ∧ i < n * 256)
    (hunfixed : s.unfixedIndex = l.headD (n * 256)) (hbound : s.units.length ≤ 2 ^ 30) :
    ∃ extras v', s.linkBlock (n * 256) (n * 256 + 256) = .ok { s with extras := extras } ∧
      ({ s with extras := extras } : DictionaryBuilder).Marked v' ∧ extras.length = s.extras.length ∧
      Ring v'.next v'.prev (l ++ List.range' (n * 256) 256) ∧ v'.fixed = v.fixed ∧ v'.used = v.used := by
  have hnew : ∀ i, n * 256 ≤ i → i < n * 256 + 256 → Live s.extras.length i := fun i h₁ h₂ => ⟨by omega, by omega⟩
  have hsrc := hnew (n * 256) le_rfl (by omega)
  have hdest := hnew (n * 256 + 255) (by omega) (by omega)
  -- the new block
  obtain ⟨extras₁, hrun₁, h₁, hlen₁⟩ := h.exists_foldlM_linkNext (a := n * 256) (k := 255) fun i hi hi' => hnew i hi (by omega)
  obtain ⟨extras₂, hset₂, h₂, hlen₂⟩ := h₁.exists_setPrev (i := n * 256) (hlen₁ ▸ hsrc) (n * 256 + 255)
  obtain ⟨extras₃, hset₃, h₃, hlen₃⟩ := h₂.exists_setNext (i := n * 256 + 255) (hlen₂ ▸ hlen₁ ▸ hdest) (n * 256)
  have hv₃ : ∃ v₃, v₃ = ((v.row (n * 256) 255).setPrev (n * 256) (n * 256 + 255)).setNext (n * 256 + 255) (n * 256) :=
    ⟨_, rfl⟩
  obtain ⟨v₃, hv₃⟩ := hv₃
  rw [← hv₃] at h₃
  have hnext : ∀ i, v₃.next i =
      if i = n * 256 + 255 then n * 256 else if n * 256 ≤ i ∧ i < n * 256 + 255 then i + 1 else v.next i := fun i => by
    rw [hv₃]
    exact Function.update_apply ..
  have hprev : ∀ i, v₃.prev i =
      if i = n * 256 then n * 256 + 255 else if n * 256 < i ∧ i ≤ n * 256 + 255 then i - 1 else v.prev i := fun i => by
    rw [hv₃]
    exact Function.update_apply ..
  have hring₃ : Ring v₃.next v₃.prev (List.range' (n * 256) 256) := by
    refine Ring.range' (fun i hi hi' => ?_) (fun i hi hi' => ?_) ?_ ?_
    · rw [hnext, if_neg (by omega), if_pos ⟨hi, hi'⟩]
    · rw [hprev, if_neg (by omega), if_pos ⟨hi, hi'⟩]
    · rw [hnext, if_pos rfl]
    · rw [hprev, if_pos rfl]
  have hold : Ring v₃.next v₃.prev l := hring.congr fun i hi => by
    have hlt := (hl i hi).2
    rw [hnext, hprev, if_neg (by omega), if_neg (by omega), if_neg (by omega), if_neg (by omega)]
    exact ⟨rfl, rfl⟩
  -- the first unused unit, and the one before it
  have hall : extras₃.length = s.extras.length := hlen₃.trans (hlen₂.trans hlen₁)
  have hfirst : Live s.extras.length (l.headD (n * 256)) ∧ Live s.extras.length (v₃.prev (l.headD (n * 256))) := by
    cases l with
    | nil =>
      refine ⟨hsrc, ?_⟩
      rw [List.headD_nil, hprev, if_pos rfl]
      exact hdest
    | cons x l => exact ⟨(hl x List.mem_cons_self).1, (hl _ (hold.mem List.mem_cons_self).2).1⟩
  rw [← hunfixed] at hfirst
  have hread : ∀ v' : Marks, v'.prev s.unfixedIndex = v₃.prev s.unfixedIndex →
      (v'.at s.unfixedIndex).prev = v₃.prev s.unfixedIndex := fun v' he => by
    rw [← he]
    refine prev_linked ?_
    rw [he]
    have := hfirst.2.lt
    rw [h.units] at hbound
    omega
  obtain ⟨extras₄, hset₄, h₄, hlen₄⟩ := h₃.exists_setPrev (i := n * 256) (hall ▸ hsrc) (v₃.prev s.unfixedIndex)
  obtain ⟨extras₅, hset₅, h₅, hlen₅⟩ := h₄.exists_setNext (i := n * 256 + 255) (hlen₄ ▸ hall ▸ hdest) s.unfixedIndex
  obtain ⟨extras₆, hset₆, h₆, hlen₆⟩ :=
    h₅.exists_setNext (i := v₃.prev s.unfixedIndex) (hlen₅ ▸ hlen₄ ▸ hall ▸ hfirst.2) (n * 256)
  obtain ⟨extras₇, hset₇, h₇, hlen₇⟩ :=
    h₆.exists_setPrev (i := s.unfixedIndex) (hlen₆ ▸ hlen₅ ▸ hlen₄ ▸ hall ▸ hfirst.1) (n * 256 + 255)
  refine ⟨extras₇, _, ?_, h₇, hlen₇.trans (hlen₆.trans (hlen₅.trans (hlen₄.trans hall))), ?_, by rw [hv₃]; rfl,
    by rw [hv₃]; rfl⟩
  · have hagain : ((v₃.setPrev (n * 256) (v₃.prev s.unfixedIndex)).setNext (n * 256 + 255) s.unfixedIndex).prev s.unfixedIndex =
        v₃.prev s.unfixedIndex := by
      simp only [Marks.setNext, Marks.setPrev, Function.update_apply]
      split_ifs <;> rfl
    rw [linkBlock, blockSize, show n * 256 + 256 - 1 = n * 256 + 255 by omega, hrun₁, ok_bind, hset₂, ok_bind, hset₃,
      ok_bind]
    rw [h₃.extra_eq (hall ▸ hfirst.1), ok_bind, hread v₃ rfl, hset₄, ok_bind, hset₅, ok_bind,
      h₅.extra_eq (hlen₅ ▸ hlen₄ ▸ hall ▸ hfirst.1), ok_bind, hread _ hagain, hset₆, ok_bind, hset₇]
  · rw [hunfixed]
    cases l with
    | nil =>
      refine hring₃.congr fun i _ => ?_
      simp only [List.headD_nil, Marks.setNext, Marks.setPrev, Function.update_apply, hprev, hnext]
      constructor <;> split_ifs <;> simp_all
    | cons x l =>
      rw [List.range'_succ] at hring₃ ⊢
      have hdisjoint : (x :: l).Disjoint (n * 256 :: List.range' (n * 256 + 1) 255) := by
        intro i hi hi'
        rw [← List.range'_succ, List.mem_range'_1] at hi'
        have := (hl i hi).2
        omega
      have hlast : v₃.prev (n * 256) = n * 256 + 255 := by rw [hprev, if_pos rfl]
      have hsplice := hold.splice hring₃ hdisjoint
      rw [hlast] at hsplice
      exact hsplice

/-! ### Expanding -/

/-- A block is added. Its units are not fixed and its offsets not used. -/
structure Grows (s s' : DictionaryBuilder) (v v' : Marks) : Prop where
  /-- The units that are not fixed are linked. -/
  unused : s'.Unused v'
  /-- There is a new block. -/
  length : s'.extras.length = s.extras.length + 1
  /-- The links of states are the same. -/
  linkTable : s'.linkTable = s.linkTable
  /-- The new units are as they are constructed. -/
  units : s'.units = s.units ++ List.replicate 256 DictionaryUnit.construct
  /-- The other marks are the same. -/
  same : ∀ i, i / 256 < s.extras.length → v'.fixed i = v.fixed i ∧ v'.used i = v.used i
  /-- There are no marks yet. -/
  new : ∀ i, i / 256 = s.extras.length → v'.fixed i = false ∧ v'.used i = false

/-- A block that is no longer live was fixed: its units got labels that only an offset that is not used
leads to, if there is one. -/
structure Fixes (s s' : DictionaryBuilder) (v v' : Marks) (b w : ℕ) : Prop where
  /-- The units get labels. -/
  relabels : Relabels s s' v v' w fun i => i / 256 = b
  /-- The offset. -/
  free : (w / 256 = b ∧ v.used w = false) ∨ ∀ i, i / 256 = b → v.used i = true

/-- A block is added, if the one that is left behind is fixed. -/
theorem Unused.exists_addBlock (h : s.Unused v) (hold : ∀ i, i / 256 + 16 = s.extras.length → v.fixed i = true)
    (hbound : s.units.length + 256 ≤ 2 ^ 30) :
    ∃ s₁ s' v', ({ s with
        units := s.units ++ List.replicate 256 DictionaryUnit.construct, extras := s.extras ++ [none] } : DictionaryBuilder).allocateBlock
        (s.extras.length - 16) = .ok s₁ ∧ s₁.linkBlock s.units.length (s.units.length + 256) = .ok s' ∧ Grows s s' v v' := by
  obtain ⟨l, hring, hhead, hmem⟩ := h.ring
  obtain ⟨extras, hallocate, h₁, hlen⟩ := h.marked.exists_allocateBlock
    (show (List.replicate 256 DictionaryUnit.construct).length = 256 from List.length_replicate)
  have hl : ∀ i ∈ l, Live extras.length i ∧ i < s.extras.length * 256 := by
    intro i hi
    obtain ⟨hlive, hfree⟩ := (hmem i).mp hi
    have hne : i / 256 + 16 ≠ s.extras.length := fun he => absurd (hold i he) (by rw [hfree]; decide)
    obtain ⟨h₁, h₂⟩ := hlive
    rw [hlen]
    exact ⟨⟨by omega, by omega⟩, by omega⟩
  have hunits : (s.units ++ List.replicate 256 DictionaryUnit.construct).length = s.units.length + 256 := by
    rw [List.length_append, List.length_replicate]
  have hring₁ : Ring (v.clear fun i => i / 256 = s.extras.length).next (v.clear fun i => i / 256 = s.extras.length).prev l :=
    hring.congr fun i hi => ⟨if_neg (by have := (hl i hi).2; omega), if_neg (by have := (hl i hi).2; omega)⟩
  have hhead₁ : s.unfixedIndex = l.headD (s.extras.length * 256) := by rw [hhead, h.marked.units]
  obtain ⟨extras', v', hlink, h', hlen', hring', hfixed, hused⟩ :=
    h₁.exists_linkBlock hring₁ hlen hl hhead₁ (hunits.trans_le hbound)
  rw [← h.marked.units] at hlink
  have hcount : extras'.length = s.extras.length + 1 := hlen'.trans hlen
  refine ⟨_, _, v', hallocate, hlink, ⟨h', ⟨_, hring', ?_, fun i => ?_⟩, hunits.trans_le hbound⟩, hcount, rfl, rfl,
    fun i hi => ?_,
    fun i hi => ?_⟩
  · dsimp only
    rw [hhead₁]
    cases l <;> rfl
  · have hmem' := hmem i
    rw [List.mem_append, List.mem_range'_1]
    dsimp only
    rw [hfixed, hcount]
    simp only [Marks.clear, Live]
    constructor
    · rintro (hi | hi)
      · obtain ⟨⟨hlt, -⟩, hfree⟩ := hmem'.mp hi
        have hlive := (hl i hi).1
        rw [hlen] at hlive
        exact ⟨hlive, by rw [if_neg (by omega)]; exact hfree⟩
      · exact ⟨⟨by omega, by omega⟩, if_pos (by omega)⟩
    · rintro ⟨⟨hlt, hlive⟩, hfree⟩
      by_cases hi : i / 256 = s.extras.length
      · exact .inr ⟨by omega, by omega⟩
      · rw [if_neg hi] at hfree
        exact .inl (hmem'.mpr ⟨⟨by omega, by omega⟩, hfree⟩)
  · rw [hfixed, hused]
    exact ⟨if_neg (by omega), if_neg (by omega)⟩
  · rw [hfixed, hused]
    exact ⟨if_pos hi, if_pos hi⟩

/-- A dictionary is expanded: an old block is fixed if there are 16, and a block is added. -/
theorem Unused.exists_expandDictionary (h : s.Unused v) (reserve : DictionaryBuilder → ℕ → Except Fault DictionaryBuilder)
    (hreserve : ∀ s i, i < s.units.length → reserve s i = s.unlinkUnit i)
    (hbound : s.units.length + 256 ≤ 2 ^ 30) :
    ∃ s₁ v₁ s' v', s.expandDictionary reserve = .ok s' ∧ Grows s₁ s' v₁ v' ∧
      (s.extras.length < 16 ∧ s₁ = s ∧ v₁ = v ∨ ∃ w, 16 ≤ s.extras.length ∧ Fixes s s₁ v v₁ (s.extras.length - 16) w) := by
  obtain ⟨s₁, v₁, hfix, h₁, hlen, hold, hcase⟩ : ∃ s₁ v₁, s.fixOldBlock reserve = .ok s₁ ∧ s₁.Unused v₁ ∧
      s₁.extras.length = s.extras.length ∧ (∀ i, i / 256 + 16 = s.extras.length → v₁.fixed i = true) ∧
      (s.extras.length < 16 ∧ s₁ = s ∧ v₁ = v ∨ ∃ w, 16 ≤ s.extras.length ∧ Fixes s s₁ v v₁ (s.extras.length - 16) w) := by
    rw [fixOldBlock, numOfBlocks, numOfUnfixedBlocks]
    by_cases hblocks : s.extras.length + 1 > 16
    · obtain ⟨s₁, v₁, w, hfix, h₁, hfree⟩ :=
        h.exists_fixBlock reserve hreserve (b := s.extras.length - 16) (by omega) (by omega)
      refine ⟨s₁, v₁, by rw [if_pos hblocks, hfix], h₁.unused, h₁.length, fun i hi => ?_, .inr ⟨w, by omega, h₁, hfree⟩⟩
      exact (h₁.fixed i).mpr (.inr (by omega))
    · exact ⟨s, v, if_neg hblocks, h, rfl, fun i hi => by omega, .inl ⟨by omega, rfl, rfl⟩⟩
  have hunits : s₁.units.length = s.units.length := by rw [h₁.marked.units, h.marked.units, hlen]
  obtain ⟨s₂, s', v', hallocate, hlink, hgrows⟩ := h₁.exists_addBlock (by rwa [hlen]) (by rwa [hunits])
  refine ⟨s₁, v₁, s', v', ?_, hgrows, hcase⟩
  rw [hlen] at hallocate
  rw [hunits] at hlink
  rw [expandDictionary, hfix, ok_bind, numOfBlocks, numOfUnfixedBlocks, numOfUnits, blockSize]
  dsimp only
  rw [hallocate, ok_bind, hlink]

/-- A unit that is there is taken out of the ring. -/
theorem reserveUnit_of_lt {fuel : ℕ} (hi : i < s.units.length) : reserveUnit (fuel + 1) s i = s.unlinkUnit i := by
  rw [reserveUnit, expanded, numOfUnits, if_neg (by omega)]
  rfl

/-- Otherwise the dictionary is expanded first. -/
theorem reserveUnit_of_le (hi : s.units.length ≤ i) :
    reserveUnit reserveDepth s i = s.expandDictionary (reserveUnit 1) >>= fun s => s.unlinkUnit i := by
  rw [reserveDepth, reserveUnit, expanded, numOfUnits, if_pos hi]

end DictionaryBuilder

end InfixSearch.Dawgdic
