import InfixSearch.Dawgdic.Guide
import InfixSearch.Dawgdic.Reading

/-!
# Building a guide

A guide is built depth first, and a unit that is marked is not gone through again. When the
builder is done with a unit, its first child is set, and all its children are marked and have
their siblings set; only the units on the way to the current one may not be done yet
(`Guided`). These lead to states after the current one, so none of them is met again. In the end
the units that can be reached from the root are done (`Guides`).
-/

namespace InfixSearch.Dawgdic

open Library DictionaryUnit

variable {d : Dawg} {nodes : List (List Item)} {t : WordTree UInt8 ℕ} {p m n i j o : ℕ}
  {c : UInt8} {xs zs pre post : List Item} {x : Item}
  {g : Placement ℕ} {dic : Dictionary}

/-- The first letter of some items, or `'\0'`. -/
def firstLetter : List Item → UInt8
  | [] => 0
  | x :: xs => if x.1 = 0 then firstLetter xs else x.1

/-! ### The table of marks -/

namespace GuideBuilder

variable {s s' : GuideBuilder}

theorem mark_and : ∀ b : UInt8, ∀ j k : Fin 8,
    (((b ||| ((1 : UInt8) <<< UInt8.ofNat j)) &&& ((1 : UInt8) <<< UInt8.ofNat k)) != 0) =
      (decide (k = j) || ((b &&& ((1 : UInt8) <<< UInt8.ofNat k)) != 0)) := by
  decide +kernel

/-- A unit is marked. -/
theorem exists_setIsFixed (hi : i / 8 < s.isFixedTable.length) :
    ∃ table, s.setIsFixed i = .ok { s with isFixedTable := table } ∧ table.length = s.isFixedTable.length ∧
      ∀ j, ({ s with isFixedTable := table } : GuideBuilder).isFixed j = if j = i then .ok true else s.isFixed j := by
  have hget := List.getElem?_eq_getElem hi
  refine ⟨_, by rw [setIsFixed, Pool.modify_eq hget]; rfl, List.length_set, fun j => ?_⟩
  have hmark := mark_and s.isFixedTable[i / 8] ⟨i % 8, Nat.mod_lt _ (by decide)⟩ ⟨j % 8, Nat.mod_lt _ (by decide)⟩
  rw [isFixed]
  dsimp only at hmark ⊢
  by_cases hij : j / 8 = i / 8
  · rw [hij, Pool.get_eq (List.getElem?_set_self hi), ok_bind, hmark, isFixed, hij, Pool.get_eq hget, ok_bind]
    split_ifs with he
    · subst he
      rw [decide_eq_true rfl, Bool.true_or]
      rfl
    · rw [decide_eq_false fun hc => he (by rw [Fin.mk.injEq] at hc; omega), Bool.false_or]
  · rw [if_neg (fun he : j = i => hij (by rw [he])), isFixed, Pool.get, Pool.get, List.getElem?_set_ne (Ne.symm hij)]

/-! ### What is done -/

/-- The units in `M` are marked, and those of them that are not in `A` have their first child. The units in
`D` have their siblings, and are all the children of those that are done. -/
structure Guided (dic : Dictionary) (nodes : List (List Item)) (p : ℕ) (g : Placement ℕ) (s : GuideBuilder) (u : ℕ → GuideUnit)
    (M D A : ℕ → Prop) : Prop where
  /-- There is a unit for each of the dictionary. -/
  length : s.units.length = dic.units.length
  /-- These are the units. -/
  units : ∀ i < dic.units.length, s.units[i]? = some (u i)
  /-- There are marks for them. -/
  table : s.isFixedTable.length = dic.units.length / 8
  /-- These are the marks. -/
  marks : ∀ i < dic.units.length, ∃ b, s.isFixed i = .ok b ∧ (b = true ↔ M i)
  /-- The first child is set. -/
  child : ∀ i o m, LeadsTo dic nodes p g i o m → M i → ¬ A i → (u i).child = firstLetter (g o)
  /-- It was not set before. -/
  fresh : ∀ i, ¬ M i → (u i).child = 0
  /-- The children are done, apart from what is below them. -/
  below : ∀ i o m, LeadsTo dic nodes p g i o m → M i → ¬ A i → ∀ x ∈ g o, x.1 ≠ 0 → M (cell o x.1) ∧ D (cell o x.1)
  /-- The siblings are set. -/
  sibling : ∀ o pre x post, g o = pre ++ x :: post → x.1 ≠ 0 → D (cell o x.1) → (u (cell o x.1)).sibling = firstLetter post
  /-- The last of them has none. -/
  last : ∀ o pre x post, g o = pre ++ x :: post → firstLetter post = 0 → (u (cell o x.1)).sibling = 0

variable {u : ℕ → GuideUnit} {M D A : ℕ → Prop}

theorem Guided.modifyUnit_eq (h : Guided dic nodes p g s u M D A) (hi : i < dic.units.length)
    (f : GuideUnit → GuideUnit) :
    ∃ units, s.modifyUnit i f = .ok { s with units := units } ∧ units.length = s.units.length ∧
      ∀ j < dic.units.length, units[j]? = some (Function.update u i (f (u i)) j) := by
  have hget := h.units i hi
  refine ⟨s.units.set i (f (u i)), by rw [modifyUnit, Pool.modify_eq hget]; rfl, List.length_set, fun j hj => ?_⟩
  by_cases he : j = i
  · subst he
    rw [List.getElem?_set_self (Pool.lt_of_getElem? hget), Function.update_self]
  · rw [List.getElem?_set_ne (Ne.symm he), Function.update_of_ne he, h.units j hj]

/-- A unit is marked before its children are gone through. -/
theorem Guided.exists_setIsFixed (h : Guided dic nodes p g s u M D A) (hwhole : ∃ n, dic.units.length = n * 256)
    (hi : i < dic.units.length) :
    ∃ s', s.setIsFixed i = .ok s' ∧ Guided dic nodes p g s' u (fun j => M j ∨ j = i) D (fun j => A j ∨ j = i) := by
  obtain ⟨n, hn⟩ := hwhole
  have hlt : i / 8 < s.isFixedTable.length := by
    rw [h.table]
    omega
  obtain ⟨table, hset, hlen, hmarks⟩ := GuideBuilder.exists_setIsFixed hlt
  refine ⟨_, hset, h.length, h.units, hlen.trans h.table, fun j hj => ?_, fun j o m hl hM' hA => ?_, fun j hj => ?_,
    fun j o m hl hM' hA x hx hx0 => ?_, h.sibling, h.last⟩
  · obtain ⟨b, hb, hiff⟩ := h.marks j hj
    by_cases he : j = i
    · exact ⟨true, by rw [hmarks, if_pos he], by simp [he]⟩
    · exact ⟨b, by rw [hmarks, if_neg he, hb], by simp [he, hiff]⟩
  · rw [not_or] at hA
    exact h.child j o m hl (hM'.resolve_right hA.2) hA.1
  · rw [not_or] at hj
    exact h.fresh j hj.1
  · rw [not_or] at hA
    have hx' := h.below j o m hl (hM'.resolve_right hA.2) hA.1 x hx hx0
    exact ⟨.inl hx'.1, hx'.2⟩

/-- The first child of the current unit is set. -/
theorem Guided.exists_setChild (h : Guided dic nodes p g s u M D A) (hi : i < dic.units.length) (hM : M i) (hA : A i)
    (c : UInt8) :
    ∃ s', s.modifyUnit i (fun u => u.setChild c) = .ok s' ∧
      Guided dic nodes p g s' (Function.update u i ((u i).setChild c)) M D A := by
  obtain ⟨units, hset, hlen, hget⟩ := h.modifyUnit_eq hi fun u => u.setChild c
  have hchild : ∀ j, j ≠ i → Function.update u i ((u i).setChild c) j = u j := fun j hj => Function.update_of_ne hj _ _
  have hsibling : ∀ j, (Function.update u i ((u i).setChild c) j).sibling = (u j).sibling := by
    intro j
    rw [Function.update_apply]
    split_ifs with he
    · rw [he]
      rfl
    · rfl
  refine ⟨_, hset, hlen.trans h.length, hget, h.table, h.marks, fun j o m hl hM' hA' => ?_, fun j hj => ?_, h.below,
    fun o pre x post hg hx hD => ?_, fun o pre x post hg hpost => ?_⟩
  · rw [hchild j (by rintro rfl; exact hA' hA)]
    exact h.child j o m hl hM' hA'
  · rw [hchild j (by rintro rfl; exact hj hM)]
    exact h.fresh j hj
  · rw [hsibling]
    exact h.sibling o pre x post hg hx hD
  · rw [hsibling]
    exact h.last o pre x post hg hpost

/-- The sibling of a child is set. -/
theorem Guided.exists_linkSibling (h : Guided dic nodes p g s u M D A) (hk : d.Keeps nodes t) (hg : Apart g)
    (hm : At nodes m (g o)) (hzs : g o = pre ++ x :: post) (hpost : ∀ y ∈ post, y.1 ≠ 0)
    (hlt : cell o x.1 < dic.units.length) :
    ∃ s' u', s.linkSibling d (m + pre.length) (cell o x.1) = .ok s' ∧
      Guided dic nodes p g s' u' M (fun a => D a ∨ a = cell o x.1) A ∧ ∀ a, (u' a).child = (u a).child := by
  have hm' := hzs ▸ hm
  have hget : (pre ++ x :: post)[pre.length]? = some x := by simp
  have hsibling := hk.sibling_eq hm' hget
  -- an item is in one place
  have hsame : ∀ o' pre' x' post', g o' = pre' ++ x' :: post' → cell o' x'.1 = cell o x.1 →
      firstLetter post' = firstLetter post := by
    intro o' pre' x' post' hzs' he
    obtain ⟨rfl, rfl⟩ := hg.unique (show x' ∈ g o' by rw [hzs']; simp) (show x ∈ g o by rw [hzs]; simp) he
    have hnodup : (pre ++ x' :: post).Nodup := hzs ▸ (hg.labels o').of_map _
    have hnot := (List.nodup_cons.mp (List.nodup_middle.mp hnodup)).1
    rw [List.mem_append, not_or] at hnot
    obtain ⟨-, -, rfl⟩ := (List.append_cons_inj_of_notMem hnot.1 hnot.2).mp (hzs.symm.trans hzs')
    rfl
  cases hpost' : post with
  | nil =>
    subst hpost'
    rw [if_neg (by simp)] at hsibling
    have hroot := hk.root
    rw [Dawg.root] at hroot
    refine ⟨s, u, ?_, ⟨h.length, h.units, h.table, h.marks, h.child, h.fresh, fun i o' m' hl hM hA x' hx' hx0 => ?_,
      fun o' pre' x' post' hzs' hx0 hD => ?_, h.last⟩, fun a => rfl⟩
    · rw [linkSibling, hsibling, ok_bind, hroot, ok_bind, if_neg (not_not_intro rfl)]
      rfl
    · exact (h.below i o' m' hl hM hA x' hx' hx0).imp_right .inl
    · rcases hD with hD | he
      · exact h.sibling o' pre' x' post' hzs' hx0 hD
      · have hlast := hsame o' pre' x' post' hzs' he
        rw [hlast]
        exact h.last o' pre' x' post' hzs' hlast
  | cons y ys =>
    subst hpost'
    rw [if_pos (by simp)] at hsibling
    have hget' : (pre ++ x :: y :: ys)[pre.length + 1]? = some y := by
      rw [List.getElem?_append_right (by omega), Nat.add_sub_cancel_left]
      rfl
    have hlabel := hk.label_eq hm' hget'
    have hy := hpost y List.mem_cons_self
    have hfirst : firstLetter (y :: ys) = y.1 := if_neg hy
    obtain ⟨units, hset, hlen, hunits⟩ := h.modifyUnit_eq hlt fun u => u.setSibling y.1
    have hother : ∀ a, a ≠ cell o x.1 → Function.update u (cell o x.1) ((u (cell o x.1)).setSibling y.1) a = u a :=
      fun a ha => Function.update_of_ne ha _ _
    have hchild : ∀ a, (Function.update u (cell o x.1) ((u (cell o x.1)).setSibling y.1) a).child = (u a).child := by
      intro a
      rw [Function.update_apply]
      split_ifs with he
      · rw [he]
        rfl
      · rfl
    refine ⟨{ s with units := units }, _, ?_, ⟨hlen.trans h.length, hunits, h.table, h.marks, fun i o' m' hl hM hA => ?_, fun i hi => ?_,
      fun i o' m' hl hM hA x' hx' hx0 => ?_, fun o' pre' x' post' hzs' hx0 hD => ?_, fun o' pre' x' post' hzs' hpost' => ?_⟩, hchild⟩
    · rw [linkSibling, hsibling, ok_bind, Nat.add_assoc, hlabel, ok_bind, if_pos (by have := hm.pos; omega), hset]
    · rw [hchild]
      exact h.child i o' m' hl hM hA
    · rw [hchild]
      exact h.fresh i hi
    · exact (h.below i o' m' hl hM hA x' hx' hx0).imp_right .inl
    · by_cases he : cell o' x'.1 = cell o x.1
      · rw [he, Function.update_self, hsame o' pre' x' post' hzs' he, hfirst]
        rfl
      · rw [hother _ he]
        exact h.sibling o' pre' x' post' hzs' hx0 (hD.resolve_right he)
    · have he : cell o' x'.1 ≠ cell o x.1 := by
        intro he
        rw [hsame o' pre' x' post' hzs' he, hfirst] at hpost'
        exact hy hpost'
      rw [hother _ he]
      exact h.last o' pre' x' post' hzs' hpost'

/-- The current unit is done. -/
theorem Guided.done (h : Guided dic nodes p g s u M D fun a => A a ∨ a = i) (hg : Apart g)
    (hl : LeadsTo dic nodes p g i o m) (hchild : (u i).child = firstLetter (g o))
    (hbelow : ∀ x ∈ g o, x.1 ≠ 0 → M (cell o x.1) ∧ D (cell o x.1)) :
    Guided dic nodes p g s u M D A := by
  refine ⟨h.length, h.units, h.table, h.marks, fun j o' m' hl' hM hA => ?_, h.fresh,
    fun j o' m' hl' hM hA x hx hx0 => ?_, h.sibling, h.last⟩
  · by_cases hj : j = i
    · subst hj
      obtain ⟨rfl, rfl⟩ := hl.unique hl' hg
      exact hchild
    · exact h.child j o' m' hl' hM (not_or.mpr ⟨hA, hj⟩)
  · by_cases hj : j = i
    · subst hj
      obtain ⟨rfl, rfl⟩ := hl.unique hl' hg
      exact hbelow x hx hx0
    · exact h.below j o' m' hl' hM (not_or.mpr ⟨hA, hj⟩) x hx hx0

/-! ### Depth first -/

/-- More is marked and done, and the first children stay. -/
def Grown (u : ℕ → GuideUnit) (M D : ℕ → Prop) (u' : ℕ → GuideUnit) (M' D' : ℕ → Prop) : Prop :=
  (∀ a, M a → M' a ∧ (u' a).child = (u a).child) ∧ ∀ a, D a → D' a

theorem Grown.refl (u : ℕ → GuideUnit) (M D : ℕ → Prop) : Grown u M D u M D := ⟨fun _ ha => ⟨ha, rfl⟩, fun _ ha => ha⟩

theorem Grown.trans {u' u'' : ℕ → GuideUnit} {M' D' M'' D'' : ℕ → Prop} (h : Grown u M D u' M' D')
    (h' : Grown u' M' D' u'' M'' D'') :
    Grown u M D u'' M'' D'' := by
  refine ⟨fun a ha => ?_, fun a ha => h'.2 a (h.2 a ha)⟩
  obtain ⟨hM, hchild⟩ := h.1 a ha
  obtain ⟨hM', hchild'⟩ := h'.1 a hM
  exact ⟨hM', hchild'.trans hchild⟩

/-- What building from a transition does with some fuel. -/
def GuidesFrom (d : Dawg) (dic : Dictionary) (nodes : List (List Item)) (p : ℕ) (g : Placement ℕ) (fuel : ℕ) : Prop :=
  ∀ {s : GuideBuilder} {u : ℕ → GuideUnit} {M D A : ℕ → Prop} {i o m j : ℕ}, Guided dic nodes p g s u M D A →
    LeadsTo dic nodes p g i o m →
    d.child j = .ok m → m < fuel → (∀ a, A a → ∃ o' m', LeadsTo dic nodes p g a o' m' ∧ m < m') →
    ∃ s' u' M' D', buildFrom d dic fuel s j i = .ok (some s') ∧ Guided dic nodes p g s' u' M' D' A ∧ Grown u M D u' M' D' ∧ M' i

/-- The first child of a state that is not terminal. -/
theorem exists_firstChild (hk : d.Keeps nodes t) (hm : At nodes m xs) :
    ∃ pre zs, xs = pre ++ zs ∧ (∀ x ∈ pre, x.1 = 0) ∧ (∀ x ∈ zs, x.1 ≠ 0) ∧ firstLetter xs = firstLetter zs ∧
      firstChild d m = .ok (if zs = [] then none else some (m + pre.length)) := by
  obtain ⟨x, ys, rfl⟩ := List.exists_cons_of_ne_nil (hk.wellFormed xs hm.mem).1
  obtain ⟨pre, post, he⟩ := List.append_of_mem hm.mem
  obtain ⟨s, hs, hord⟩ := hk.spells pre _ post he
  have htail : ∀ y ∈ ys, y.1 ≠ 0 := hs.tail_ne_zero hord
  have hlabel := hk.label_eq hm (i := 0) rfl
  have hsibling := hk.sibling_eq hm (i := 0) rfl
  rw [Nat.add_zero] at hlabel hsibling
  rw [firstChild, hlabel, ok_bind]
  by_cases h0 : x.1 = 0
  · refine ⟨[x], ys, rfl, by simpa using h0, htail, if_pos h0, ?_⟩
    rw [if_pos h0, hsibling, ok_bind]
    cases ys with
    | nil => rfl
    | cons y ys => simp [pure_ok]
  · refine ⟨[], x :: ys, rfl, by simp, List.forall_mem_cons.mpr ⟨h0, htail⟩, rfl, ?_⟩
    rw [if_neg h0]
    rfl

/-- The children are gone through one after the other. -/
theorem exists_guideChildren (hk : d.Keeps nodes t) (h : dic.Holds nodes p g) {fuel : ℕ}
    (ih : GuidesFrom d dic nodes p g fuel) (hl : LeadsTo dic nodes p g i o m) (hfuel : m ≤ fuel)
    (hzs : g o = pre ++ zs) (hletters : ∀ x ∈ zs, x.1 ≠ 0) (hne : zs ≠ []) {f : ℕ} (hf : zs.length ≤ f)
    (hs : Guided dic nodes p g s u M D A) (hA : ∀ a, A a → ∃ o' m', LeadsTo dic nodes p g a o' m' ∧ m ≤ m') :
    ∃ s' u' M' D', doLinks d.sibling (fun s j => do
        match ← dic.follow (← d.label j) i with
        | none => pure none
        | some dicChildIndex => do
          match ← buildFrom d dic fuel s j dicChildIndex with
          | none => pure none
          | some s => some <$> s.linkSibling d j dicChildIndex) f s (m + pre.length) = .ok (some s') ∧
      Guided dic nodes p g s' u' M' D' A ∧ Grown u M D u' M' D' ∧ ∀ x ∈ zs, M' (cell o x.1) ∧ D' (cell o x.1) := by
  have hm := hl.state
  induction zs generalizing pre s u M D f with
  | nil => exact absurd rfl hne
  | cons x zs IH =>
    obtain ⟨f, rfl⟩ := Nat.exists_eq_succ_of_ne_zero (show f ≠ 0 by rw [List.length_cons] at hf; omega)
    rw [List.forall_mem_cons] at hletters
    have hm' := hzs ▸ hm
    have hx : x ∈ g o := by simp [hzs]
    have hget : (pre ++ x :: zs)[pre.length]? = some x := by simp
    have hlt := hk.child_lt hm (show (x.1, x.2) ∈ g o from hx) hletters.1
    obtain ⟨hfollow, o', hl'⟩ := hl.follow h hk.wellFormed (show (x.1, x.2) ∈ g o from hx) hletters.1
    obtain ⟨s₁, u₁, M₁, D₁, hrun, h₁, hgrown, hM⟩ := ih hs hl' (hk.child_eq hm' hget hletters.1) (by omega) fun a ha => by
      obtain ⟨o'', m'', hl'', hle⟩ := hA a ha
      exact ⟨o'', m'', hl'', by omega⟩
    obtain ⟨s₂, u₂, hlink, h₂, hchild⟩ := h₁.exists_linkSibling hk h.apart hm hzs hletters.2 hl'.lt
    have hgrown₂ : Grown u M D u₂ M₁ fun a => D₁ a ∨ a = cell o x.1 :=
      ⟨fun a ha => ⟨(hgrown.1 a ha).1, (hchild a).trans (hgrown.1 a ha).2⟩, fun a ha => .inl (hgrown.2 a ha)⟩
    have hsibling := hk.sibling_eq hm' hget
    rw [doLinks, hk.label_eq hm' hget, ok_bind, hfollow, ok_bind]
    dsimp only
    rw [hrun, ok_bind]
    dsimp only
    rw [hlink, show (some <$> (Except.ok s₂ : Except Fault GuideBuilder)) = .ok (some s₂) from rfl, ok_bind]
    dsimp only
    cases zs with
    | nil =>
      refine ⟨s₂, u₂, M₁, _, ?_, h₂, hgrown₂, List.forall_mem_singleton.mpr ⟨hM, .inr rfl⟩⟩
      rw [if_neg (by simp)] at hsibling
      rw [hsibling, ok_bind, if_pos rfl]
      rfl
    | cons y zs =>
      obtain ⟨s', u', M', D', hrest, h', hgrown', hdone⟩ :=
        IH (show g o = (pre ++ [x]) ++ y :: zs by simpa using hzs) hletters.2 (List.cons_ne_nil _ _)
        (Nat.le_of_succ_le_succ hf) h₂
      refine ⟨s', u', M', D', ?_, h', hgrown₂.trans hgrown',
        List.forall_mem_cons.mpr ⟨⟨(hgrown'.1 _ hM).1, hgrown'.2 _ (.inr rfl)⟩, hdone⟩⟩
      rw [if_pos (by simp)] at hsibling
      rw [List.length_append, List.length_singleton] at hrest
      rw [hsibling, ok_bind, if_neg (by have := hm.pos; omega)]
      exact hrest

/-- The guide is built from a unit on. -/
theorem guidesFrom (hk : d.Keeps nodes t) (h : dic.Holds nodes p g) (fuel : ℕ) : GuidesFrom d dic nodes p g fuel := by
  induction fuel with
  | zero => exact fun _ _ _ hlt _ => absurd hlt (Nat.not_lt_zero _)
  | succ fuel ih =>
    intro s u M D A i o m j hs hl hchild hlt hA
    obtain ⟨b, hb, hiff⟩ := hs.marks i hl.lt
    rw [buildFrom, hb, ok_bind]
    cases b with
    | true => exact ⟨s, u, M, D, rfl, hs, .refl u M D, hiff.mp rfl⟩
    | false =>
      have hM : ¬ M i := fun hc => Bool.false_ne_true (hiff.mpr hc)
      have hm := hl.state
      obtain ⟨s₁, hset, h₁⟩ := hs.exists_setIsFixed h.whole hl.lt
      obtain ⟨pre, zs, hzs, hpre, hletters, hfirst, hrun⟩ := exists_firstChild hk hm
      have hgrown₁ : Grown u M D u (fun a => M a ∨ a = i) D := ⟨fun a ha => ⟨.inl ha, rfl⟩, fun a ha => ha⟩
      have hsplit : ∀ x ∈ g o, x.1 ≠ 0 → x ∈ zs := by
        intro x hx hx0
        rw [hzs] at hx
        exact (List.mem_append.mp hx).resolve_left fun hc => hx0 (hpre x hc)
      rw [if_neg Bool.false_ne_true, hset, ok_bind, hchild, ok_bind, hrun, ok_bind]
      cases hzs' : zs with
      | nil =>
        subst hzs'
        refine ⟨s₁, u, _, D, rfl, h₁.done h.apart hl ?_ fun x hx hx0 => absurd (hsplit x hx hx0) List.not_mem_nil,
          hgrown₁, .inr rfl⟩
        rw [hs.fresh i hM, hfirst]
        rfl
      | cons x ys =>
        subst hzs'
        have hget : (pre ++ x :: ys)[pre.length]? = some x := by simp
        obtain ⟨s₂, hset', h₂⟩ := h₁.exists_setChild hl.lt (.inr rfl) (.inr rfl) x.1
        obtain ⟨s', u', M', D', hdo, h', hgrown', hdone⟩ :=
          exists_guideChildren hk h ih hl (Nat.le_of_lt_succ hlt) hzs hletters
          (List.cons_ne_nil _ _) (f := d.size) (by have := hk.length_lt_size hm; rw [hzs, List.length_append] at this; omega) h₂
          fun a ha => ha.elim (fun ha => (hA a ha).imp fun _ => .imp fun _ => .imp_right le_of_lt)
            fun he => ⟨o, m, he ▸ hl, le_rfl⟩
        have hgrown₂ : Grown u M D (Function.update u i ((u i).setChild x.1)) (fun a => M a ∨ a = i) D := by
          refine ⟨fun a ha => ⟨.inl ha, ?_⟩, fun a ha => ha⟩
          rw [Function.update_of_ne]
          rintro rfl
          exact hM ha
        refine ⟨s', u', M', D', ?_, h'.done h.apart hl ?_ fun y hy hy0 => hdone y (hsplit y hy hy0),
          hgrown₂.trans hgrown', (hgrown'.1 i (.inr rfl)).1⟩
        · rw [if_neg (List.cons_ne_nil _ _)]
          dsimp only
          rw [hk.label_eq (hzs ▸ hm) hget, ok_bind, hset', ok_bind]
          exact hdo
        · rw [(hgrown'.1 i (.inr rfl)).2, Function.update_self, hfirst]
          exact (if_neg (hletters x List.mem_cons_self)).symm

end GuideBuilder

/-! ### The guide -/

/-- A guide has the first child and the next sibling of the units in `R`, which are the root and all that can be
followed from there. -/
structure Guide.Guides (guide : Guide) (dic : Dictionary) (nodes : List (List Item)) (p : ℕ) (g : Placement ℕ) (R : ℕ → Prop) : Prop where
  /-- There is a unit for each of the dictionary. -/
  length : guide.units.length = dic.units.length
  /-- The root is one of them. -/
  root : R 0
  /-- The first child. -/
  child : ∀ i o m, R i → LeadsTo dic nodes p g i o m → guide.child i = .ok (firstLetter (g o))
  /-- The siblings. -/
  next : ∀ i o m, R i → LeadsTo dic nodes p g i o m → ∀ pre x post, g o = pre ++ x :: post → x.1 ≠ 0 →
    R (cell o x.1) ∧ guide.sibling (cell o x.1) = .ok (firstLetter post)

namespace GuideBuilder

/-- At first nothing is marked. -/
theorem Guided.init (hwhole : ∃ n, dic.units.length = n * 256) :
    Guided dic nodes p g ⟨List.replicate dic.size GuideUnit.construct, List.replicate (dic.size / 8) 0⟩ (fun _ => GuideUnit.construct)
      (fun _ => False) (fun _ => False) fun _ => False := by
  obtain ⟨n, hn⟩ := hwhole
  refine ⟨List.length_replicate, fun i hi => List.getElem?_replicate_of_lt hi, List.length_replicate,
    fun i hi => ⟨false, ?_, by simp⟩,
    fun _ _ _ _ hM => hM.elim, fun _ _ => rfl, fun _ _ _ _ hM => hM.elim, fun _ _ _ _ _ _ hD => hD.elim, fun _ _ _ _ _ _ => rfl⟩
  have hlt : i / 8 < dic.size / 8 := by
    rw [Dictionary.size]
    omega
  rw [isFixed, Pool.get_eq (List.getElem?_replicate_of_lt hlt), ok_bind, UInt8.zero_and]
  rfl

/-- A guide for the dictionary of a dawg. -/
theorem exists_guide (hk : d.Keeps nodes t) (h : dic.Holds nodes p g) (hp : d.child d.root = .ok p) (guide : Guide) :
    ∃ guide' R, build d dic guide = .ok (some guide') ∧ guide'.Guides dic nodes p g R := by
  obtain ⟨o, hl⟩ := h.exists_leadsTo .root
  have hm := hl.state
  have hle := hm.le_length hk.wellFormed
  have hpos := hm.pos
  obtain ⟨s, u, M, D, hrun, hs, -, hroot⟩ :=
    guidesFrom hk h (d.size + 1) (Guided.init h.whole) hl hp (by rw [hk.size_eq]; omega)
    fun _ ha => ha.elim
  have hunit : ∀ i < dic.units.length, Guide.child ⟨s.units⟩ i = .ok (u i).child ∧ Guide.sibling ⟨s.units⟩ i = .ok (u i).sibling := by
    intro i hi
    rw [Guide.child, Guide.sibling, Pool.get_eq (hs.units i hi)]
    exact ⟨rfl, rfl⟩
  refine ⟨⟨s.units⟩, M, ?_, hs.length, hroot, fun i o m hM hl => ?_, fun i o m hM hl pre x post hzs hx0 => ?_⟩
  · rw [build, if_neg (by rw [hk.size_eq]; omega), Dictionary.root, hrun]
    rfl
  · rw [(hunit i hl.lt).1, hs.child i o m hl hM not_false]
  · have hx : x ∈ g o := by simp [hzs]
    obtain ⟨hM', hD⟩ := hs.below i o m hl hM not_false x hx hx0
    obtain ⟨-, o', hl'⟩ := hl.follow h hk.wellFormed (show (x.1, x.2) ∈ g o from hx) hx0
    exact ⟨hM', by rw [(hunit _ hl'.lt).2, hs.sibling o pre x post hzs hx0 hD]⟩

end GuideBuilder

end InfixSearch.Dawgdic
