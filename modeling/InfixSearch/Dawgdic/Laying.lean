import InfixSearch.Dawgdic.Arranging

/-!
# Laying out a dictionary

The builder goes from a unit that waits to the state it should lead to. If the state is placed
already and the offset can be encoded, the unit leads there (`Placed.exists_useOffset`);
otherwise the state is placed again, and its transitions are gone through one after the other.
What was placed before stays as it is, and each transition needs at most one block
(`Placed.exists_buildFrom`).
-/

namespace InfixSearch.Dawgdic

open Library DictionaryUnit DictionaryBuilder

variable {d : Dawg} {nodes : List (List Item)} {t : WordTree UInt8 ℕ} {p m n i j o dead w : ℕ}
  {c : UInt8} {xs zs pre : List Item} {x : Item}
  {s s' : DictionaryBuilder} {v v' : Marks} {g g' : Placement ℕ} {P P' : ℕ → Prop}

/-! ### The states of a dawg -/

namespace Dawg.Keeps

/-- A word ends at a state if its first item says so. -/
theorem isLeaf_eq (hk : d.Keeps nodes t) (hm : At nodes m xs) : d.isLeaf m = .ok (decide (0 ∈ xs.map Prod.fst)) := by
  obtain ⟨pre, post, he⟩ := List.append_of_mem hm.mem
  obtain ⟨s, hs, hord⟩ := hk.spells pre xs post he
  obtain ⟨x, ys, rfl⟩ := List.exists_cons_of_ne_nil (hk.wellFormed xs hm.mem).1
  have htail := hs.tail_ne_zero hord
  have hlabel := hk.label_eq hm (i := 0) rfl
  rw [isLeaf, ← Nat.add_zero m, hlabel, ok_bind, pure_ok, beq_eq_decide]
  refine congrArg Except.ok (decide_eq_decide.mpr ?_)
  rw [List.map_cons, List.mem_cons]
  constructor
  · exact fun h0 => .inl h0.symm
  · rintro (h0 | h0)
    · exact h0.symm
    · obtain ⟨y, hy, hy0⟩ := List.mem_map.mp h0
      exact absurd hy0 (htail y hy)

/-- A state leads to those before it. -/
theorem child_lt (hk : d.Keeps nodes t) (hm : At nodes m xs) (hx : (c, n) ∈ xs) (hc : c ≠ 0) : n < m := by
  obtain ⟨pre, post, he, rfl⟩ := hm
  obtain ⟨s, hs, hord⟩ := hk.spells pre xs post he
  obtain ⟨s', ys, -, hat, -⟩ := hs.child_of_mem hord hc hx
  have hle := hat.le_length fun zs hzs => hk.wellFormed zs (he ▸ List.mem_append_left _ hzs)
  omega

/-- Whether several transitions lead to a state. -/
theorem exists_isMerging (hk : d.Keeps nodes t) (hm : At nodes m xs) :
    ∃ b, d.isMerging m = .ok b ∧ (b = true → m ∈ d.merging) := by
  have hlt : m < d.flagPool.length := by
    have hle := hm.le_length hk.wellFormed
    have hsize := hk.size_eq
    rw [Dawg.size] at hsize
    rw [hk.flags]
    omega
  refine ⟨d.flagPool[m], Pool.get_eq (List.getElem?_eq_getElem hlt), fun hb => ?_⟩
  rw [Dawg.merging, Finset.mem_filter, Finset.mem_range, List.getElem?_eq_getElem hlt, hb]
  exact ⟨hlt, rfl, hm.pos.ne'⟩

end Dawg.Keeps

/-! ### A state that is placed -/

namespace Placed

/-- A unit gets the offset of a state that was placed before. -/
theorem exists_useOffset (h : Placed d nodes p s v g P dead) (hk : d.Keeps nodes t) (hn : Node p g i c m) (hP : P i)
    (hm : At nodes m (g o)) (henc : Encodable (i ^^^ o)) :
    ∃ units, s.useOffset d m i (o ^^^ i) = .ok { s with units := units } ∧
      Placed d nodes p { s with units := units } v g (fun j => P j ∧ j ≠ i) dead := by
  have hgo := (hk.wellFormed _ hm.mem).1
  obtain ⟨offset, hoffset, hi⟩ := h.wait i c m hn hP
  have ho : o ≠ 0 := by
    rintro rfl
    exact hgo h.apart.offset
  have hmark : s.markLeaf d m i = .ok { s with units := s.units.set i (inner c (decide (0 ∈ (g o).map Prod.fst)) offset) } := by
    rw [markLeaf, hk.isLeaf_eq hm, ok_bind]
    cases decide (0 ∈ (g o).map Prod.fst) with
    | true => rw [if_pos rfl, modifyUnit_eq hi, inner_setHasLeaf]
    | false =>
      have hsame : s.units.set i (inner c false offset) = s.units := by
        rw [List.getElem?_eq_getElem (Pool.lt_of_getElem? hi), Option.some.injEq] at hi
        rw [← hi, List.set_getElem_self]
      rw [if_neg Bool.false_ne_true, hsame]
      rfl
  have hset : s.useOffset d m i (o ^^^ i) = .ok { s with
      units := s.units.set i (inner c (decide (0 ∈ (g o).map Prod.fst)) (i ^^^ o)) } := by
    rw [useOffset, hmark, ok_bind, modifyUnit_eq (Pool.getElem?_set_self hi _), Nat.xor_comm o i,
      inner_setOffset hoffset henc,
      Option.getD_some, List.set_set]
  refine ⟨_, hset, ?_⟩
  have hplaces : Places s { s with units := s.units.set i (inner c (decide (0 ∈ (g o).map Prod.fst)) (i ^^^ o)) } v v o [] i
      (inner c (decide (0 ∈ (g o).map Prod.fst)) (i ^^^ o)) :=
    ⟨h.unused.setUnits List.length_set _, rfl, rfl, fun j => by simp, fun x hx => absurd hx List.not_mem_nil, Pool.getElem?_set_self hi _,
      fun j hj _ => List.getElem?_set_ne hj.symm⟩
  have h' := h.place hk hn hP hm ho henc (.old rfl rfl) hplaces fun j hd hlt => by
    rw [h.used j hd hlt]
    constructor
    · exact .inl
    · rintro (hj | rfl)
      · exact hj
      · exact .inr hgo
  rw [Function.update_eq_self] at h'
  exact h'.congr fun j => by simp

/-- The offset of a state can be found if it was placed before. -/
theorem exists_existingOffset (h : Placed d nodes p s v g P dead) (hk : d.Keeps nodes t) (hn : Node p g i c m)
    (hm : At nodes m xs) :
    ∃ r, s.existingOffset d m i = .ok r ∧ ∀ offset, r = some offset → ∃ o, offset = o ^^^ i ∧ At nodes m (g o) ∧ Encodable (i ^^^ o) := by
  obtain ⟨b, hmerging, hb⟩ := hk.exists_isMerging hm
  obtain ⟨f, hf, hplace⟩ := h.links
  rw [existingOffset, hmerging, ok_bind]
  cases b with
  | false => exact ⟨none, rfl, fun offset ho => nomatch ho⟩
  | true =>
    rw [if_pos rfl, hf.find_eq (hb rfl), ok_bind, pure_ok]
    refine ⟨_, rfl, fun offset ho => ?_⟩
    split_ifs at ho with hfound
    obtain rfl := Option.some.inj ho
    have hat := hplace m hfound.1
    have hlt := (h.state _ (hk.wellFormed _ hat.mem).1).1
    have hi := h.div_lt hn.taken
    have hpool := h.unused.marked.units
    have hbound := h.bound
    refine ⟨f m, rfl, hat, ?_⟩
    rw [Nat.xor_comm]
    exact encodable_of_encodable (Nat.xor_lt_two_pow (by omega) (by omega)) hfound.2

/-- The offset of a state is kept. -/
theorem exists_keepOffset (h : Placed d nodes p s v g P dead) (hk : d.Keeps nodes t) (hm : At nodes m (g o)) :
    ∃ linkTable, s.keepOffset d m o = .ok { s with linkTable := linkTable } ∧
      Placed d nodes p { s with linkTable := linkTable } v g P dead := by
  obtain ⟨b, hmerging, hb⟩ := hk.exists_isMerging hm
  rw [keepOffset, hmerging, ok_bind]
  cases b with
  | false => exact ⟨s.linkTable, rfl, h⟩
  | true =>
    obtain ⟨f, hf, hplace⟩ := h.links
    obtain ⟨linkTable, hinsert, hf'⟩ := hf.exists_insert (hb rfl) o
    refine ⟨linkTable, by rw [if_pos rfl, hinsert]; rfl, ?_⟩
    refine ⟨⟨⟨h.unused.marked.units, h.unused.marked.block⟩, h.unused.ring, h.unused.bound⟩, h.bound, h.pos, h.late,
      h.apart, h.state, h.used,
      h.fixed, h.free, h.left, h.leaf, h.node, h.wait, h.lead, _, hf', fun m' hm' => ?_⟩
    rw [Function.update_apply] at hm' ⊢
    split_ifs at hm' ⊢ with he
    · exact he ▸ hm
    · exact hplace m' hm'

end Placed

/-! ### Building from a transition on -/

/-- What comes of building transitions for which `k` blocks may be needed: what was placed is there, and the
units in `P` wait, or the dictionary is full. -/
def Builds (d : Dawg) (nodes : List (List Item)) (p : ℕ) (s : DictionaryBuilder) (g : Placement ℕ) (P : ℕ → Prop) (k : ℕ) :
    Option DictionaryBuilder → Prop
  | none => 2 ^ 21 < s.extras.length + k
  | some s' => ∃ v' g', Placed d nodes p s' v' g' P (s'.extras.length - 16) ∧ (∀ o, g o ≠ [] → g' o = g o) ∧
      s'.extras.length ≤ s.extras.length + k

/-- Building one after the other. -/
theorem Builds.trans {k k' : ℕ} {r : Option DictionaryBuilder} (hg : ∀ o, g o ≠ [] → g' o = g o)
    (hlen : s'.extras.length ≤ s.extras.length + k) (h : Builds d nodes p s' g' P k' r) :
    Builds d nodes p s g P (k + k') r := by
  cases r with
  | none =>
    rw [Builds] at h ⊢
    omega
  | some s'' =>
    obtain ⟨v'', g'', h'', hg'', hlen''⟩ := h
    refine ⟨v'', g'', h'', fun o ho => ?_, by omega⟩
    rw [hg'' o (hg o ho ▸ ho), hg o ho]

/-- What building from a transition does with some fuel. -/
def BuildsFrom (d : Dawg) (nodes : List (List Item)) (p fuel : ℕ) : Prop :=
  ∀ {s : DictionaryBuilder} {v : Marks} {g : Placement ℕ} {P : ℕ → Prop} {i : ℕ} {c : UInt8} {m : ℕ} {xs : List Item}
    {t : WordTree UInt8 ℕ} {j : ℕ} {c' : UInt8}, Placed d nodes p s v g P (s.extras.length - 16) → Node p g i c m → P i → At nodes m xs →
    Spells nodes xs t → d.label j = .ok c' → c' ≠ 0 → d.child j = .ok m → m < fuel →
    ∃ r, buildFrom d fuel s j i = .ok r ∧ Builds d nodes p s g (fun a => P a ∧ a ≠ i) (1 + t.edges) r

section Loop

variable {Q : ℕ → Prop} {fuel : ℕ}

/-- The units of these items wait, and those in `Q`. -/
def Waiting (Q : ℕ → Prop) (o : ℕ) (zs : List Item) (j : ℕ) : Prop := Q j ∨ ∃ x ∈ zs, x.1 ≠ 0 ∧ j = cell o x.1

/-- Building from one of the transitions of a state. -/
theorem exists_buildItem (hk : d.Keeps nodes t) (ih : BuildsFrom d nodes p fuel) (hm : At nodes m (pre ++ x :: zs))
    (hfuel : m ≤ fuel) {s₀ : WordTree UInt8 ℕ} (hzs : Spells nodes (x :: zs) s₀)
    (hlabels : ((x :: zs).map Prod.fst).Nodup)
    (h : Placed d nodes p s v g (Waiting Q o (x :: zs)) (s.extras.length - 16)) (hg : x ∈ g o) (hQ : ¬ Q (cell o x.1)) :
    ∃ k s₁ r, Spells nodes zs s₁ ∧ s₀.edges = k + s₁.edges ∧
      (do buildFrom d fuel s (m + pre.length) (o ^^^ (← d.label (m + pre.length)).toNat)) = Except.ok r ∧
      Builds d nodes p s g (Waiting Q o zs) k r := by
  have hget : (pre ++ x :: zs)[pre.length]? = some x := by simp
  have hlabel := hk.label_eq hm hget
  rw [hlabel, ok_bind]
  cases hzs with
  | @leaf _ s₁ value next =>
    obtain ⟨fuel, rfl⟩ := Nat.exists_eq_succ_of_ne_zero (Nat.ne_zero_of_lt (hm.pos.trans_le hfuel))
    refine ⟨0, s₁, some s, next, (Nat.zero_add _).symm, ?_, v, g, h.congr fun j => ?_, fun o _ => rfl, le_rfl⟩
    · rw [buildFrom, Dawg.isLeaf, hlabel, ok_bind]
      rfl
    · simp [Waiting]
  | @edge _ ys down s₁ c n hc hn hdown next =>
    rw [List.map_cons, List.nodup_cons] at hlabels
    have hlt := hk.child_lt hm (List.mem_append_right pre List.mem_cons_self) hc
    have hwait : Waiting Q o ((c, n) :: zs) (cell o c) := .inr ⟨_, List.mem_cons_self, hc, rfl⟩
    obtain ⟨r, hrun, hr⟩ := ih h (.edge hg hc) hwait hn hdown hlabel hc (hk.child_eq hm hget hc) (by omega)
    refine ⟨1 + down.edges, s₁, r, next, rfl, hrun, ?_⟩
    have hP : (fun j => Waiting Q o ((c, n) :: zs) j ∧ j ≠ cell o c) = Waiting Q o zs := by
      funext j
      simp only [Waiting, List.exists_mem_cons_iff]
      refine propext ⟨?_, ?_⟩
      · rintro ⟨hj | ⟨-, hj⟩ | hj, hne⟩
        · exact .inl hj
        · exact absurd hj hne
        · exact .inr hj
      · rintro (hj | ⟨y, hy, hy0, rfl⟩)
        · exact ⟨.inl hj, fun he => hQ (he ▸ hj)⟩
        · refine ⟨.inr (.inr ⟨y, hy, hy0, rfl⟩), fun he => hlabels.1 ?_⟩
          have hmem : y.1 ∈ zs.map Prod.fst := List.mem_map_of_mem hy
          rwa [cell_right_inj.mp he] at hmem
    rwa [hP] at hr

/-- Building from all of them. -/
theorem exists_doLinks (hk : d.Keeps nodes t) (ih : BuildsFrom d nodes p fuel) (hm : At nodes m (pre ++ zs))
    (hfuel : m ≤ fuel) {s₀ : WordTree UInt8 ℕ} (hzs : Spells nodes zs s₀) (hne : zs ≠ [])
    (hlabels : (zs.map Prod.fst).Nodup) (h : Placed d nodes p s v g (Waiting Q o zs) (s.extras.length - 16))
    (hg : ∀ x ∈ zs, x ∈ g o) (hQ : ∀ x ∈ zs, ¬ Q (cell o x.1)) {f : ℕ} (hf : zs.length ≤ f) :
    ∃ r, doLinks d.sibling (fun s i => do buildFrom d fuel s i (o ^^^ (← d.label i).toNat)) f s (m + pre.length) = .ok r ∧
      Builds d nodes p s g Q s₀.edges r := by
  induction zs generalizing pre s v g s₀ f with
  | nil => exact absurd rfl hne
  | cons x zs IH =>
    obtain ⟨f, rfl⟩ := Nat.exists_eq_succ_of_ne_zero (show f ≠ 0 by rw [List.length_cons] at hf; omega)
    have hget : (pre ++ x :: zs)[pre.length]? = some x := by simp
    rw [List.forall_mem_cons] at hg hQ
    obtain ⟨k, s₁, r, hzs₁, hk₁, hrun, hr⟩ := exists_buildItem hk ih hm hfuel hzs hlabels h hg.1 hQ.1
    rw [doLinks, hrun, ok_bind, hk₁]
    cases r with
    | none =>
      refine ⟨none, rfl, ?_⟩
      rw [Builds] at hr ⊢
      omega
    | some s' =>
      obtain ⟨v', g', h', hg', hlen'⟩ := hr
      have hsibling := hk.sibling_eq hm hget
      dsimp only
      cases zs with
      | nil =>
        cases hzs₁
        refine ⟨some s', ?_, v', g', h'.congr fun j => by simp [Waiting], hg', hlen'⟩
        rw [if_neg (by simp)] at hsibling
        rw [hsibling, ok_bind, if_pos rfl]
        rfl
      | cons y zs =>
        have hm' : At nodes m ((pre ++ [x]) ++ y :: zs) := by simpa using hm
        obtain ⟨r, hrun', hr⟩ := IH hm' hzs₁ (List.cons_ne_nil _ _) (List.nodup_cons.mp hlabels).2 h'
          (fun z hz => hg' o (List.ne_nil_of_mem hg.1) ▸ hg.2 z hz) hQ.2 (Nat.le_of_succ_le_succ hf)
        refine ⟨r, ?_, hr.trans hg' hlen'⟩
        rw [if_pos (by simp)] at hsibling
        rw [hsibling, ok_bind, if_neg (by omega)]
        rw [List.length_append, List.length_singleton] at hrun'
        exact hrun'

end Loop

/-- What was placed before has other units. -/
theorem Placed.not_node_cell (h : Placed d nodes p s v (Function.update g o xs) P dead) (hgo : g o = []) (hx : x ∈ xs) :
    ¬ ∃ c m, Node p g (cell o x.1) c m := by
  rintro ⟨c, m, hn⟩
  have hx' : x ∈ Function.update g o xs o := by rwa [Function.update_self]
  rcases hn.taken with h0 | ⟨o', x', hx₁, he⟩
  · exact h.apart.first ⟨o, x, hx', h0.symm⟩
  · have hne : o' ≠ o := by
      rintro rfl
      rw [hgo] at hx₁
      cases hx₁
    exact hne (h.apart.unique hx' (by rwa [Function.update_of_ne hne]) he).1.symm

/-- A unit that waits gets the offset of the state it should lead to, and so do all that wait then. -/
theorem buildsFrom (hk : d.Keeps nodes t) (fuel : ℕ) : BuildsFrom d nodes p fuel := by
  induction fuel with
  | zero => exact fun _ _ _ _ _ _ _ _ hfuel => absurd hfuel (Nat.not_lt_zero _)
  | succ fuel ih =>
    intro s v g P i c m xs t' j c' h hn hP hm hxs hlabel hc hchild hfuel
    obtain ⟨r, hexisting, hr⟩ := h.exists_existingOffset hk hn hm
    rw [buildFrom, Dawg.isLeaf, hlabel, ok_bind, pure_ok, ok_bind, beq_eq_false_iff_ne.mpr hc,
      if_neg Bool.false_ne_true, hchild, ok_bind,
      hexisting, ok_bind]
    cases r with
    | some offset =>
      obtain ⟨o, rfl, hm', henc⟩ := hr offset rfl
      obtain ⟨units, huse, h'⟩ := h.exists_useOffset hk hn hP hm' henc
      refine ⟨some { s with units := units }, by dsimp only; rw [huse]; rfl, v, g, h', fun o _ => rfl,
        Nat.le_add_right _ _⟩
    | none =>
      dsimp only
      rcases h.exists_arrangeChildNodes hk hn hP hm hchild with ⟨s', harrange, hfull⟩ | ⟨o, s', v', harrange, ho, hgo, h', hlen⟩
      · refine ⟨none, by rw [harrange]; rfl, ?_⟩
        rw [Builds, hfull]
        omega
      · have hkeep : ∀ o', g o' ≠ [] → Function.update g o xs o' = g o' := by
          intro o' ho'
          refine Function.update_of_ne ?_ _ _
          rintro rfl
          exact ho' hgo
        obtain ⟨linkTable, hlink, h''⟩ := h'.exists_keepOffset hk (o := o) (by rwa [Function.update_self])
        obtain ⟨r, hrun, hr⟩ := exists_doLinks (Q := fun j => P j ∧ j ≠ i) (o := o) hk ih
          (show At nodes m ([] ++ xs) from hm) (Nat.le_of_lt_succ hfuel) hxs
          (hk.wellFormed xs hm.mem).1 (hk.nodup_labels hm.mem) h'' (fun x hx => by rwa [Function.update_self])
          (fun x hx hQ => h'.not_node_cell hgo hx (h.node _ hQ.1)) (hk.length_lt_size hm).le
        refine ⟨r, ?_, hr.trans hkeep hlen⟩
        rw [harrange, ok_bind]
        dsimp only
        rw [if_neg ho, hlink, ok_bind]
        exact hrun

end InfixSearch.Dawgdic
