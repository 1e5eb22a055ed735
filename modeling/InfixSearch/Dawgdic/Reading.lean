import InfixSearch.Dawgdic.Building
import InfixSearch.Dawgdic.Packing

/-!
# Reading a dictionary

A dictionary that holds the states of a dawg (`Dictionary.Holds`) is read from the root on: a
label leads from a unit to another if and only if it may follow there (`Holds.exists_follow`). No
label leads to a unit by accident, since the labels of the units in a block are those of other
offsets, or of one that is not used. So the words of the dawg are found with their values, and no
others (`build_answers`), and the walk over a string ends where the words do (`build_follows`).
-/

namespace InfixSearch.Dawgdic

open Library DictionaryUnit DictionaryBuilder

variable {d : Dawg} {nodes : List (List Item)} {t t' : WordTree UInt8 ℕ} {p m i o w : ℕ} {c : UInt8} {xs : List Item}
  {s : DictionaryBuilder} {v : Marks} {g : Placement ℕ}

/-- The value of a word is where its state says. -/
theorem Spells.value_eq_some_iff (h : Spells nodes xs t) (ht : t.Ordered) {value : ℕ} :
    t.value = some value ↔ (0, value) ∈ xs := by
  induction h with
  | nil => simp [WordTree.value]
  | leaf v' next ih =>
    have hrest := (Spells.leaf v' next).tail_ne_zero ht
    rw [WordTree.value, Option.some.injEq, List.mem_cons, Prod.mk.injEq]
    constructor
    · rintro rfl
      exact .inl ⟨rfl, rfl⟩
    · rintro (⟨-, rfl⟩ | hv)
      · rfl
      · exact absurd rfl (hrest _ hv)
  | edge hc _ _ _ _ ih =>
    rw [WordTree.value, ih ht.2.2, List.mem_cons, Prod.mk.injEq]
    constructor
    · exact .inr
    · rintro (⟨h0, -⟩ | hv)
      · exact absurd h0.symm hc
      · exact hv

/-- No unit has another label. -/
theorem ofNat_toNat_inj {c c' : UInt8} : BitVec.ofNat 32 c.toNat = BitVec.ofNat 32 c'.toNat ↔ c = c' := by
  refine ⟨fun h => ?_, fun h => h ▸ rfl⟩
  have hnat := congrArg BitVec.toNat h
  have hc := c.toNat_lt
  have hc' := c'.toNat_lt
  rw [BitVec.toNat_ofNat, BitVec.toNat_ofNat, Nat.mod_eq_of_lt (by omega), Nat.mod_eq_of_lt (by omega)] at hnat
  exact UInt8.toNat_inj.mp hnat

namespace Dictionary

/-- The units of a dictionary hold the states. -/
structure Holds (dic : Dictionary) (nodes : List (List Item)) (p : ℕ) (g : Placement ℕ) : Prop where
  /-- There are 256 units in a block. -/
  whole : ∃ n, dic.units.length = n * 256
  /-- No unit has two items. -/
  apart : Apart g
  /-- At an offset is a state. -/
  state : ∀ o, g o ≠ [] → o < dic.units.length ∧ g o ∈ nodes
  /-- Other units have labels that lead nowhere. -/
  left : ∀ i < dic.units.length, i ≠ 0 → ¬ Taken g i →
    ∃ w, w / 256 = i / 256 ∧ g w = [] ∧ dic.units[i]? = some (inner (labelOf i w) false 0)
  /-- A value is where its state is placed. -/
  leaf : ∀ o value, (0, value) ∈ g o → dic.units[o]? = some (DictionaryUnit.leaf value)
  /-- Transitions lead to the states they should. -/
  lead : ∀ i c m, Node p g i c m → Leads nodes g dic.units i c m

end Dictionary

theorem Placed.holds (h : Placed d nodes p s v g (fun _ => False) s.extras.length) :
    Dictionary.Holds ⟨s.units⟩ nodes p g where
  whole := ⟨_, h.unused.marked.units⟩
  apart := h.apart
  state := h.state
  left i hi hi0 hfree := by
    have hpool := h.unused.marked.units
    dsimp only at hi
    obtain ⟨w, hw, -, hgw, hget⟩ := h.left i (by omega) (by omega) hi0 hfree
    exact ⟨w, hw, hgw, hget⟩
  leaf := h.leaf
  lead i c m hn := h.lead i c m hn not_false

/-! ### Where units lead -/

/-- The unit `i` leads to the state `m`, which is placed at `o`. -/
inductive LeadsTo (dic : Dictionary) (nodes : List (List Item)) (p : ℕ) (g : Placement ℕ) (i o m : ℕ) : Prop where
  /-- It has a transition to the state, and the offset of it. -/
  | intro (c : UInt8) (hn : Node p g i c m) (hm : At nodes m (g o)) (henc : Encodable (i ^^^ o))
      (hget : dic.units[i]? = some (inner c (decide (0 ∈ (g o).map Prod.fst)) (i ^^^ o)))

/-- A tree of what may follow where a unit leads. -/
def Reads (dic : Dictionary) (nodes : List (List Item)) (p : ℕ) (g : Placement ℕ) (i : ℕ) (t : WordTree UInt8 ℕ) : Prop :=
  ∃ o m, LeadsTo dic nodes p g i o m ∧ Spells nodes (g o) t ∧ t.Ordered

variable {dic : Dictionary}

namespace Dictionary.Holds

theorem exists_leadsTo (h : dic.Holds nodes p g) (hn : Node p g i c m) : ∃ o, LeadsTo dic nodes p g i o m := by
  obtain ⟨o, hm, henc, hget⟩ := h.lead i c m hn
  exact ⟨o, c, hn, hm, henc, hget⟩

/-- A unit of the block has a label if and only if it is that of an item. -/
theorem exists_label (h : dic.Holds nodes p g) (hgo : g o ≠ []) (c : UInt8) :
    ∃ u, dic.units[cell o c]? = some u ∧ (u.label = BitVec.ofNat 32 c.toNat ↔ c ≠ 0 ∧ ∃ m, (c, m) ∈ g o) := by
  obtain ⟨n, hn⟩ := h.whole
  have ho := (h.state o hgo).1
  have hlt : cell o c < dic.units.length := by
    have := cell_div o c
    omega
  by_cases htaken : Taken g (cell o c)
  · obtain ⟨o', x, hx, he⟩ := htaken
    by_cases hx0 : x.1 = 0
    · have hv : (0, x.2) ∈ g o' := hx0 ▸ hx
      refine ⟨_, ?_, iff_of_false (label_leaf_ne x.2 c) ?_⟩
      · rw [he, hx0, cell_zero]
        exact h.leaf o' x.2 hv
      · rintro ⟨hc, m, hm⟩
        obtain ⟨-, rfl⟩ := h.apart.unique hx hm he.symm
        exact hc hx0
    · obtain ⟨o'', -, henc, hget⟩ := h.lead _ _ _ (Node.edge (p := p) (show (x.1, x.2) ∈ g o' from hx) hx0)
      rw [← he] at henc hget
      refine ⟨_, hget, ?_⟩
      rw [label_inner henc, ofNat_toNat_inj]
      constructor
      · rintro rfl
        obtain rfl := cell_left_inj.mp he
        exact ⟨hx0, x.2, hx⟩
      · rintro ⟨-, m, hm⟩
        obtain ⟨-, rfl⟩ := h.apart.unique hx hm he.symm
        rfl
  · have hnone : ¬ (c ≠ 0 ∧ ∃ m, (c, m) ∈ g o) := fun ⟨_, m, hm⟩ => htaken ⟨o, _, hm, rfl⟩
    by_cases h0 : cell o c = 0
    · obtain ⟨o', -, henc, hget⟩ := h.lead 0 0 p .root
      refine ⟨inner 0 (decide (0 ∈ (g o').map Prod.fst)) (0 ^^^ o'), by rw [h0, hget], iff_of_false ?_ hnone⟩
      rw [label_inner henc, ofNat_toNat_inj]
      rintro rfl
      rw [cell_zero] at h0
      exact hgo (h0 ▸ h.apart.offset)
    · obtain ⟨w, hw, hgw, hget⟩ := h.left _ hlt h0 htaken
      refine ⟨_, hget, iff_of_false ?_ hnone⟩
      rw [label_inner (.inl (by decide)), ofNat_toNat_inj, labelOf_eq_iff hw.symm, cell_cell]
      rintro rfl
      exact hgo hgw

end Dictionary.Holds

namespace LeadsTo

theorem unique {o' m' : ℕ} (h : LeadsTo dic nodes p g i o m) (h' : LeadsTo dic nodes p g i o' m') (hg : Apart g) :
    o = o' ∧ m = m' := by
  obtain ⟨c, hn, -, henc, hget⟩ := h
  obtain ⟨c', hn', -, henc', hget'⟩ := h'
  obtain ⟨rfl, rfl⟩ := hn.unique hn' hg
  have hoffset := congrArg DictionaryUnit.offset (Option.some.inj (hget.symm.trans hget'))
  rw [offset_inner henc, offset_inner henc', Nat.xor_right_inj] at hoffset
  exact ⟨hoffset, rfl⟩

theorem lt (h : LeadsTo dic nodes p g i o m) : i < dic.units.length := by
  obtain ⟨_, -, -, -, hget⟩ := h
  exact Pool.lt_of_getElem? hget

theorem state (h : LeadsTo dic nodes p g i o m) : At nodes m (g o) := by
  obtain ⟨_, -, hm, -, -⟩ := h
  exact hm

theorem items_eq (h : LeadsTo dic nodes p g i o m) (hwf : WellFormed nodes) (hm : At nodes m xs) : xs = g o :=
  hm.unique h.state (hwf _ hm.mem).1 (hwf _ h.state.mem).1

/-- A label is followed if and only if it is a letter of the state. -/
theorem follow_eq (hl : LeadsTo dic nodes p g i o m) (h : dic.Holds nodes p g) (hwf : WellFormed nodes) (c : UInt8) :
    dic.follow c i = .ok (if c ≠ 0 ∧ c ∈ (g o).map Prod.fst then some (cell o c) else none) := by
  obtain ⟨c', hn, hm, henc, hget⟩ := hl
  obtain ⟨u, hu, hlabel⟩ := h.exists_label (hwf _ hm.mem).1 c
  have hcell : i ^^^ (i ^^^ o) ^^^ c.toNat = cell o c := by
    rw [← Nat.xor_assoc, Nat.xor_self, Nat.zero_xor]
    rfl
  have hiff : u.label = BitVec.ofNat 32 c.toNat ↔ c ≠ 0 ∧ c ∈ (g o).map Prod.fst := by simpa using hlabel
  rw [Dictionary.follow, Pool.get_eq hget, ok_bind, offset_inner henc]
  dsimp only
  rw [hcell, Pool.get_eq hu, ok_bind, pure_ok, ite_not]
  exact congrArg Except.ok (if_congr hiff rfl rfl)

/-- A letter of the state is followed. -/
theorem follow (hl : LeadsTo dic nodes p g i o m) (h : dic.Holds nodes p g) (hwf : WellFormed nodes) {n : ℕ}
    (hx : (c, n) ∈ g o) (hc : c ≠ 0) :
    dic.follow c i = .ok (some (cell o c)) ∧ ∃ o', LeadsTo dic nodes p g (cell o c) o' n := by
  rw [hl.follow_eq h hwf, if_pos ⟨hc, List.mem_map_of_mem hx⟩]
  exact ⟨rfl, h.exists_leadsTo (.edge hx hc)⟩

/-- A unit has a value if a word ends where it leads. -/
theorem hasValue_eq (hl : LeadsTo dic nodes p g i o m) : dic.hasValue i = .ok (decide (0 ∈ (g o).map Prod.fst)) := by
  obtain ⟨c, -, -, henc, hget⟩ := hl
  rw [Dictionary.hasValue, Pool.get_eq hget]
  exact congrArg Except.ok (hasLeaf_inner henc)

theorem value_eq (hl : LeadsTo dic nodes p g i o m) (h : dic.Holds nodes p g) (hwf : WellFormed nodes) {value : ℕ}
    (hv : (0, value) ∈ g o) :
    dic.value i = .ok (value : ℤ) := by
  obtain ⟨c, -, hm, henc, hget⟩ := hl
  have hfits : value < 2 ^ 31 := (hwf _ hm.mem).2.1 _ hv
  have hcell : i ^^^ (i ^^^ o) = o := by rw [← Nat.xor_assoc, Nat.xor_self, Nat.zero_xor]
  rw [Dictionary.value, Pool.get_eq hget, ok_bind, offset_inner henc, hcell, Pool.get_eq (h.leaf o value hv)]
  exact congrArg Except.ok (value_leaf hfits)

end LeadsTo

/-! ### What is read -/

namespace Dictionary.Holds

/-- A label is followed if and only if it may follow. -/
theorem exists_follow (h : dic.Holds nodes p g) (hwf : WellFormed nodes) (hr : Reads dic nodes p g i t) (c : UInt8) :
    (dic.follow c i = .ok none ∧ t.child c = none) ∨
      ∃ j t', dic.follow c i = .ok (some j) ∧ t.child c = some t' ∧ Reads dic nodes p g j t' := by
  obtain ⟨o, m, hl, hxs, hord⟩ := hr
  rw [hl.follow_eq h hwf]
  by_cases hc : c ≠ 0 ∧ c ∈ (g o).map Prod.fst
  · obtain ⟨hc0, hmem⟩ := id hc
    obtain ⟨⟨c, n⟩, hx, rfl⟩ := List.mem_map.mp hmem
    obtain ⟨t', ys, hchild, hat, hys⟩ := hxs.child_of_mem hord hc0 hx
    obtain ⟨o', hl'⟩ := h.exists_leadsTo (p := p) (.edge hx hc0)
    obtain rfl := hl'.items_eq hwf hat
    exact .inr ⟨cell o c, t', by rw [if_pos hc], hchild, o', n, hl', hys, (hord.child hchild).1⟩
  · refine .inl ⟨by rw [if_neg hc], ?_⟩
    rw [Option.eq_none_iff_forall_ne_some]
    intro t' hchild
    obtain ⟨n, ys, hc0, hx, -⟩ := hxs.exists_child hchild
    exact hc ⟨hc0, List.mem_map_of_mem hx⟩

theorem hasValue_eq (hr : Reads dic nodes p g i t) : dic.hasValue i = .ok t.value.isSome := by
  obtain ⟨o, m, hl, hxs, hord⟩ := hr
  rw [hl.hasValue_eq]
  refine congrArg Except.ok ?_
  rw [Bool.eq_iff_iff, decide_eq_true_iff, List.mem_map, Option.isSome_iff_exists]
  constructor
  · rintro ⟨x, hx, h0⟩
    exact ⟨x.2, (hxs.value_eq_some_iff hord).mpr (h0 ▸ hx)⟩
  · rintro ⟨value, hv⟩
    exact ⟨(0, value), (hxs.value_eq_some_iff hord).mp hv, rfl⟩

theorem value_eq (h : dic.Holds nodes p g) (hwf : WellFormed nodes) (hr : Reads dic nodes p g i t) {value : ℕ}
    (hv : t.value = some value) :
    dic.value i = .ok (value : ℤ) := by
  obtain ⟨o, m, hl, hxs, hord⟩ := hr
  exact hl.value_eq h hwf ((hxs.value_eq_some_iff hord).mp hv)

/-- The letters of a string are followed as far as a word goes on with them. -/
theorem exists_follows (h : dic.Holds nodes p g) (hwf : WellFormed nodes) (k : List UInt8)
    (hr : Reads dic nodes p g i t) :
    ∃ last count, dic.follows k i = .ok ((t.descend k).isSome, last, count) ∧ count ≤ k.length ∧
      (∃ t', t.descend (k.take count) = some t' ∧ Reads dic nodes p g last t') ∧
      ∀ n ≤ k.length, n ≤ count ↔ (t.descend (k.take n)).isSome = true := by
  induction k generalizing i t with
  | nil =>
    refine ⟨i, 0, rfl, le_rfl, ⟨t, rfl, hr⟩, fun n hn => ?_⟩
    rw [List.take_nil]
    exact iff_of_true hn rfl
  | cons c k ih =>
    rcases h.exists_follow hwf hr c with ⟨hfollow, hchild⟩ | ⟨j, t', hfollow, hchild, hr'⟩
    · refine ⟨i, 0, ?_, Nat.zero_le _, ⟨t, rfl, hr⟩, fun n _ => ?_⟩
      · rw [follows, hfollow, ok_bind, WordTree.descend_cons, hchild]
        rfl
      · cases n with
        | zero => exact iff_of_true le_rfl rfl
        | succ n =>
          rw [List.take_succ_cons, WordTree.descend_cons, hchild]
          exact iff_of_false (Nat.not_succ_le_zero n) Bool.false_ne_true
    · obtain ⟨last, count, hfollows, hle, ⟨t'', hdescend, hlast⟩, hcount⟩ := ih hr'
      refine ⟨last, count + 1, ?_, Nat.succ_le_succ hle, ⟨t'', ?_, hlast⟩, fun n hn => ?_⟩
      · rw [follows, hfollow, ok_bind]
        dsimp only
        rw [hfollows, ok_bind, WordTree.descend_cons, hchild]
        rfl
      · rw [List.take_succ_cons, WordTree.descend_cons, hchild]
        exact hdescend
      · cases n with
        | zero => exact iff_of_true (Nat.zero_le _) rfl
        | succ n =>
          rw [List.take_succ_cons, WordTree.descend_cons, hchild, Nat.succ_le_succ_iff,
            hcount n (Nat.le_of_succ_le_succ hn)]
          rfl

/-- A string is found if and only if it is a word. -/
theorem find_eq (h : dic.Holds nodes p g) (hwf : WellFormed nodes) (hr : Reads dic nodes p g dic.root t)
    (k : List UInt8) :
    dic.contains k = .ok (t.find k).isSome ∧ dic.find k = .ok (((t.find k).map Nat.cast).getD (-1)) ∧
      dic.findValue k = .ok ((t.find k).map Nat.cast) := by
  obtain ⟨last, count, hfollows, hle, ⟨t', hdescend, hlast⟩, hcount⟩ := h.exists_follows hwf k hr
  rw [contains, Dictionary.find, findValue, hfollows, ok_bind, ok_bind, ok_bind]
  dsimp only
  cases hk : t.descend k with
  | none =>
    rw [WordTree.find, hk]
    exact ⟨rfl, rfl, rfl⟩
  | some t'' =>
    have hall : k.length ≤ count := (hcount k.length le_rfl).mpr (by rw [List.take_length, hk]; rfl)
    rw [Nat.le_antisymm hle hall, List.take_length, hk] at hdescend
    obtain rfl := Option.some.inj hdescend
    rw [WordTree.find, hk, Option.bind_some, Option.isSome_some, if_pos rfl, if_pos rfl, if_pos rfl,
      hasValue_eq hlast, ok_bind, ok_bind]
    cases hv : t''.value with
    | none => exact ⟨rfl, rfl, rfl⟩
    | some value =>
      rw [Option.isSome_some, if_pos rfl, if_pos rfl, h.value_eq hwf hlast hv]
      exact ⟨rfl, rfl, rfl⟩

end Dictionary.Holds

/-! ### The dictionary of some keys -/

/-- A dictionary finds the words of a lexicon with their values, and no others. -/
structure Dictionary.Answers (dic : Dictionary) (es : List (List UInt8 × ℕ)) : Prop where
  /-- A word is found. -/
  found : ∀ e ∈ es, dic.contains e.1 = .ok true ∧ dic.find e.1 = .ok (e.2 : ℤ) ∧ dic.findValue e.1 = .ok (some (e.2 : ℤ))
  /-- Other strings are not. -/
  absent : ∀ k, (∀ e ∈ es, e.1 ≠ k) → dic.contains k = .ok false ∧ dic.find k = .ok (-1) ∧ dic.findValue k = .ok none

theorem Dictionary.Holds.answers {dic : Dictionary} (h : dic.Holds nodes p g) (hwf : WellFormed nodes)
    (hr : Reads dic nodes p g dic.root t) (ht : t.Ordered) : dic.Answers t.entries where
  found e he := by
    have hfind := h.find_eq hwf hr e.1
    rwa [(WordTree.find_eq_some_iff ht).mpr (show (e.1, e.2) ∈ t.entries from he)] at hfind
  absent k hk := by
    have hfind := h.find_eq hwf hr k
    have hnone : t.find k = none := by
      rw [Option.eq_none_iff_forall_ne_some]
      exact fun value hv => hk _ ((WordTree.find_eq_some_iff ht).mp hv) rfl
    rwa [hnone] at hfind

section Nil

variable {dic : Dictionary} (hunits : ∀ i < 256, ∃ c r, r < 256 ∧ dic.units[i]? = some (inner c false r))

include hunits

/-- A dictionary with no words is never left. -/
theorem exists_follow_nil (c : UInt8) (hi : i < 256) : ∃ r, dic.follow c i = .ok r ∧ ∀ j, r = some j → j < 256 := by
  obtain ⟨c', r, hr, hget⟩ := hunits i hi
  have hnext : i ^^^ r ^^^ c.toNat < 256 := by
    have hc := c.toNat_lt
    exact Nat.xor_lt_two_pow (n := 8) (Nat.xor_lt_two_pow (n := 8) hi hr) hc
  obtain ⟨c'', r', -, hget'⟩ := hunits _ hnext
  rw [Dictionary.follow, Pool.get_eq hget, ok_bind, offset_inner (.inl (by omega))]
  dsimp only
  rw [Pool.get_eq hget', ok_bind, pure_ok]
  refine ⟨_, rfl, fun j hj => ?_⟩
  split_ifs at hj
  exact Option.some.inj hj ▸ hnext

theorem hasValue_nil (hi : i < 256) : dic.hasValue i = .ok false := by
  obtain ⟨c, r, hr, hget⟩ := hunits i hi
  rw [Dictionary.hasValue, Pool.get_eq hget]
  exact congrArg Except.ok (hasLeaf_inner (.inl (by omega)))

theorem exists_follows_nil (k : List UInt8) (hi : i < 256) :
    ∃ all last count, dic.follows k i = .ok (all, last, count) ∧ last < 256 := by
  induction k generalizing i with
  | nil => exact ⟨true, i, 0, rfl, hi⟩
  | cons c k ih =>
    obtain ⟨r, hrun, hr⟩ := exists_follow_nil hunits c hi
    rw [Dictionary.follows, hrun, ok_bind]
    cases r with
    | none => exact ⟨false, i, 0, rfl, hi⟩
    | some j =>
      obtain ⟨all, last, count, hrest, hlast⟩ := ih (hr j rfl)
      exact ⟨all, last, count + 1, by dsimp only; rw [hrest]; rfl, hlast⟩

/-- In a dictionary with no words some labels may be followed, but no value is found. -/
theorem answers_nil : dic.Answers [] := by
  refine ⟨fun e he => absurd he List.not_mem_nil, fun k _ => ?_⟩
  obtain ⟨all, last, count, hrun, hlast⟩ := exists_follows_nil hunits k (i := dic.root) (by rw [Dictionary.root]; decide)
  have hvalue := hasValue_nil hunits hlast
  rw [Dictionary.contains, Dictionary.find, Dictionary.findValue, hrun, ok_bind, ok_bind, ok_bind]
  dsimp only
  rw [hvalue]
  cases all <;> exact ⟨rfl, rfl, rfl⟩

end Nil

/-- Following a string is no fault, and if not all of it is followed no word begins with it. -/
def Dictionary.Follows (dic : Dictionary) (es : List (List UInt8 × ℕ)) : Prop :=
  ∀ key, ∃ all last count, dic.follows key dic.root = .ok (all, last, count) ∧ (all = false → WordTree.residual es key = [])

theorem Dictionary.Holds.follows {dic : Dictionary} (h : dic.Holds nodes p g) (hwf : WellFormed nodes)
    (hr : Reads dic nodes p g dic.root t) (ht : t.Ordered) : dic.Follows t.entries := by
  intro key
  obtain ⟨last, count, hfollows, -⟩ := h.exists_follows hwf key hr
  refine ⟨_, last, count, hfollows, fun hall => ?_⟩
  rw [Option.isSome_eq_false_iff, Option.isNone_iff_eq_none] at hall
  rw [WordTree.residual_entries ht, hall]
  rfl

namespace DictionaryBuilder

/-- The dictionary of a dawg, if there is room for it. -/
theorem exists_build (hk : d.Keeps nodes t) :
    ∃ r, build d = .ok r ∧ (r = none → 2 ^ 21 < t.edges + 2) ∧ ∀ dic k, r = some (dic, k) →
      dic.Answers t.entries ∧ dic.Follows t.entries ∧ dic.size ≤ 2 ^ 29 ∧
      (t ≠ .nil → ∃ p g, d.child d.root = .ok p ∧ dic.Holds nodes p g ∧ Reads dic nodes p g dic.root t) ∧
      (t = .nil → ∀ i < 256, ∃ c r, r < 256 ∧ dic.units[i]? = some (inner c false r)) := by
  by_cases hne : t = .nil
  · subst hne
    obtain ⟨s, v, hrun, h, hlen, hroot⟩ := exists_buildDictionary_nil hk
    have hunits : s.units.length = 256 := by rw [h.unused.marked.units, hlen]
    refine ⟨some (⟨s.units⟩, s.numOfUnusedUnits), by rw [build, hrun]; rfl,
      fun hc => absurd hc (Option.some_ne_none _), fun dic k hr => ?_⟩
    obtain ⟨rfl, -⟩ := Prod.mk.injEq _ _ _ _ ▸ Option.some.inj hr
    have hall : ∀ i < 256, ∃ c r, r < 256 ∧ (⟨s.units⟩ : Dictionary).units[i]? = some (inner c false r) := by
      intro i hi
      by_cases hi0 : i = 0
      · exact ⟨0, 1, by decide, hi0 ▸ hroot⟩
      · obtain ⟨w, -, -, -, hget⟩ := h.left i (by omega) (by omega) hi0 (by
          rintro ⟨_, _, hx, -⟩
          exact absurd hx List.not_mem_nil)
        exact ⟨_, 0, by decide, hget⟩
    refine ⟨answers_nil hall, fun key => ?_, hunits.trans_le (by decide), fun hc => absurd rfl hc, fun _ => hall⟩
    obtain ⟨all, last, count, hrun, -⟩ := exists_follows_nil hall key (i := 0) (by decide)
    exact ⟨all, last, count, hrun, fun _ => rfl⟩
  · obtain ⟨p, xs, r, hp, hm, hxs, hrun, hfull, hr⟩ := exists_buildDictionary hk hne
    refine ⟨r.map fun s => (⟨s.units⟩, s.numOfUnusedUnits), by rw [build, hrun]; rfl,
      fun hc => hfull (Option.map_eq_none_iff.mp hc),
      fun dic k he => ?_⟩
    obtain ⟨s, hs, he⟩ := Option.map_eq_some_iff.mp he
    obtain ⟨rfl, -⟩ := Prod.mk.injEq _ _ _ _ ▸ he
    obtain ⟨v, g, h⟩ := hr s hs
    obtain ⟨o, hl⟩ := h.holds.exists_leadsTo .root
    obtain rfl := hl.items_eq hk.wellFormed hm
    have hreads : Reads ⟨s.units⟩ nodes p g 0 t := ⟨o, p, hl, hxs, hk.ordered⟩
    exact ⟨h.holds.answers hk.wellFormed hreads hk.ordered, h.holds.follows hk.wellFormed hreads hk.ordered, h.bound,
      fun _ => ⟨p, g, hp, h.holds, hreads⟩,
      fun ht => absurd ht hne⟩

/-- **A dictionary finds the keys its dawg was given.** After any calls, building a dictionary of the dawg is no
fault, and it succeeds unless there are at least 2^21 - 1 letters in the keys that were taken. Then `Contains` and
both kinds of `Find` see these keys, with their values, and no other string. -/
theorem build_answers (size : ℕ) (hsize : 0 < size) (calls : List Call) (hvalues : ∀ call ∈ calls, call.2 < 2 ^ 31)
    (hroom : 1 + (calls.map cost).sum < 2 ^ 30) :
    ∃ s d r, (DawgBuilder.construct size).inserts calls = .ok ((lexicon [] calls).1, s) ∧
      s.finish = .ok (d, DawgBuilder.construct size) ∧
      build d = .ok r ∧ (r = none → 2 ^ 21 < ((lexicon [] calls).2.map fun e => e.1.length).sum + 2) ∧
      ∀ dic k, r = some (dic, k) → dic.Answers (lexicon [] calls).2 := by
  obtain ⟨s, d, nodes, t, hinserts, hfinish, hkeeps, hentries⟩ := DawgBuilder.exists_build hsize hvalues hroom
  obtain ⟨r, hbuild, hfull, hr⟩ := exists_build hkeeps
  rw [← hentries]
  refine ⟨s, d, r, hinserts, hfinish, hbuild, fun hc => ?_, fun dic k he => (hr dic k he).1⟩
  exact (hfull hc).trans_le (Nat.add_le_add_right (WordTree.edges_le hkeeps.ordered) 2)

theorem build_answers_ab_b :
    ∃ s d r, (DawgBuilder.construct 4).inserts [(some [97, 98], 5), (some [98], 5)] = .ok ([true, true], s) ∧
      s.finish = .ok (d, DawgBuilder.construct 4) ∧ build d = .ok r ∧ (r = none → 2 ^ 21 < 2 + (1 + 0) + 2) ∧
      ∀ dic k, r = some (dic, k) → dic.Answers [([97, 98], 5), ([98], 5)] :=
  build_answers 4 (by decide) [(some [97, 98], 5), (some [98], 5)] (by decide) (by decide)

/-- **A string is followed as far as a key goes on.** In the dictionary of some keys, `Follow` takes a label after
some others if and only if these begin a key with it, and it counts how many it takes. -/
theorem build_follows (size : ℕ) (hsize : 0 < size) (calls : List Call) (hvalues : ∀ call ∈ calls, call.2 < 2 ^ 31)
    (hroom : 1 + (calls.map cost).sum < 2 ^ 30) (hne : (lexicon [] calls).2 ≠ []) :
    ∃ s d r, (DawgBuilder.construct size).inserts calls = .ok ((lexicon [] calls).1, s) ∧
      s.finish = .ok (d, DawgBuilder.construct size) ∧
      build d = .ok r ∧ (r = none → 2 ^ 21 < ((lexicon [] calls).2.map fun e => e.1.length).sum + 2) ∧
      ∀ dic k, r = some (dic, k) → ∀ key, ∃ all last count, dic.follows key dic.root = .ok (all, last, count) ∧
        count ≤ key.length ∧ (all = true ↔ count = key.length) ∧
        ∀ n ≤ key.length, n ≤ count ↔ ∃ e ∈ (lexicon [] calls).2, key.take n <+: e.1 := by
  obtain ⟨s, d, nodes, t, hinserts, hfinish, hkeeps, hentries⟩ := DawgBuilder.exists_build hsize hvalues hroom
  obtain ⟨r, hbuild, hfull, hr⟩ := exists_build hkeeps
  rw [← hentries] at hne ⊢
  have ht : t ≠ .nil := fun he => hne (he ▸ rfl)
  refine ⟨s, d, r, hinserts, hfinish, hbuild, fun hc => ?_, fun dic k he key => ?_⟩
  · exact (hfull hc).trans_le (Nat.add_le_add_right (WordTree.edges_le hkeeps.ordered) 2)
  · obtain ⟨p, g, -, hholds, hreads⟩ := (hr dic k he).2.2.2.1 ht
    obtain ⟨last, count, hfollows, hle, -, hcount⟩ := hholds.exists_follows hkeeps.wellFormed key hreads
    refine ⟨_, last, count, hfollows, hle, ?_, fun n hn => ?_⟩
    · have hall := hcount key.length le_rfl
      rw [List.take_length] at hall
      rw [← hall, le_antisymm_iff, and_iff_right hle]
    · rw [hcount n hn, WordTree.descend_isSome_iff hkeeps.ordered ht]

theorem build_follows_ab_b :
    ∃ s d r, (DawgBuilder.construct 4).inserts [(some [97, 98], 5), (some [98], 5)] = .ok ([true, true], s) ∧
      s.finish = .ok (d, DawgBuilder.construct 4) ∧ build d = .ok r ∧ (r = none → 2 ^ 21 < 2 + (1 + 0) + 2) ∧
      ∀ dic k, r = some (dic, k) → ∀ key, ∃ all last count, dic.follows key dic.root = .ok (all, last, count) ∧
        count ≤ key.length ∧ (all = true ↔ count = key.length) ∧
        ∀ n ≤ key.length, n ≤ count ↔ ∃ e ∈ [(([97, 98] : List UInt8), 5), ([98], 5)], key.take n <+: e.1 :=
  build_follows 4 (by decide) [(some [97, 98], 5), (some [98], 5)] (by decide) (by decide) (by decide)

end DictionaryBuilder

end InfixSearch.Dawgdic
