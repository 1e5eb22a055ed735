import InfixSearch.Dawgdic.Completer
import InfixSearch.Dawgdic.Guiding

/-!
# Listing the keys of a dictionary

A completer stands at a unit, with the indices that lead to it from the one it was started at
(`Way`). What comes after the key it is at are the keys that go on from there, then those of the
later siblings, from the last index back to the first. So its calls of `Next` list the keys that
go on from the first index, in order, and then fail (`outcomes_complete`).
-/

namespace InfixSearch.Dawgdic

open Library DictionaryUnit WordTree

variable {d : Dawg} {nodes : List (List Item)} {t t' : WordTree UInt8 ℕ} {p m n i j o : ℕ}
  {c : UInt8} {xs zs pre post : List Item} {x : Item}
  {g : Placement ℕ} {dic : Dictionary} {guide : Guide} {R : ℕ → Prop} {is : List ℕ} {k : List UInt8} {es : List (List UInt8 × ℕ)}

/-! ### The states of a guide -/

/-- A word ends only at the first item of a state. -/
theorem Dawg.Keeps.letters (hk : d.Keeps nodes t) (hm : At nodes m xs) (he : xs = pre ++ x :: post) :
    ∀ y ∈ post, y.1 ≠ 0 := by
  obtain ⟨before, after, hnodes⟩ := List.append_of_mem hm.mem
  obtain ⟨s, hs, hord⟩ := hk.spells before xs after hnodes
  intro y hy
  refine hs.tail_ne_zero hord y ?_
  rw [he]
  cases pre with
  | nil => exact hy
  | cons z pre => exact List.mem_append_right pre (List.mem_cons_of_mem x hy)

open Classical in
/-- How many units lead to states before a state: so many labels may be followed at most. -/
noncomputable def unitsBelow (dic : Dictionary) (p : ℕ) (g : Placement ℕ) (m : ℕ) : ℕ :=
  ((Finset.range dic.size).filter fun j => ∃ c n, Node p g j c n ∧ n < m).card

theorem unitsBelow_le (dic : Dictionary) (p : ℕ) (g : Placement ℕ) (m : ℕ) : unitsBelow dic p g m ≤ dic.size := by
  classical
  exact (Finset.card_filter_le _ _).trans_eq (Finset.card_range _)

theorem unitsBelow_lt (hg : Apart g) (hl : LeadsTo dic nodes p g j o n) (hlt : n < m) :
    unitsBelow dic p g n < unitsBelow dic p g m := by
  classical
  obtain ⟨c, hn, -⟩ := id hl
  refine Finset.card_lt_card ((Finset.ssubset_iff_of_subset ?_).mpr ⟨j, ?_, ?_⟩)
  · refine Finset.monotone_filter_right _ fun j' _ hj' => ?_
    obtain ⟨c', n', hn', hlt'⟩ := hj'
    exact ⟨c', n', hn', hlt'.trans hlt⟩
  · exact Finset.mem_filter.mpr ⟨Finset.mem_range.mpr hl.lt, c, n, hn, hlt⟩
  · rw [Finset.mem_filter]
    rintro ⟨-, c', n', hn', hlt'⟩
    obtain ⟨-, rfl⟩ := hn.unique hn' hg
    exact Nat.lt_irrefl _ hlt'

/-! ### The way to a unit -/

/-- The indices on the way from `i₀` to a unit whose state is placed at `o`, with the key `k`; `es` come after
all that goes on from the unit. -/
inductive Way (dic : Dictionary) (nodes : List (List Item)) (p : ℕ) (g : Placement ℕ) (R : ℕ → Prop) (i₀ : ℕ) (k₀ : List UInt8) :
    List ℕ → List UInt8 → ℕ → List (List UInt8 × ℕ) → Prop where
  /-- The first index. -/
  | start {o m : ℕ} (hR : R i₀) (hl : LeadsTo dic nodes p g i₀ o m) : Way dic nodes p g R i₀ k₀ [i₀] k₀ o []
  /-- A label that is followed. -/
  | step {i : ℕ} {is : List ℕ} {k : List UInt8} {o : ℕ} {es : List (List UInt8 × ℕ)} {pre post : List Item} {c : UInt8} {n : ℕ}
      {o' : ℕ} {t : WordTree UInt8 ℕ} (hway : Way dic nodes p g R i₀ k₀ (i :: is) k o es)
      (hitem : g o = pre ++ (c, n) :: post) (hc : c ≠ 0)
      (hl : LeadsTo dic nodes p g (cell o c) o' n) (hpost : Spells nodes post t) (hord : t.Ordered) :
      Way dic nodes p g R i₀ k₀ (cell o c :: i :: is) (k ++ [c]) o' (under k t.entries ++ es)

theorem Way.exists_leadsTo {i₀ : ℕ} {k₀ : List UInt8} (hway : Way dic nodes p g R i₀ k₀ (i :: is) k o es)
    (hg : guide.Guides dic nodes p g R) : R i ∧ ∃ m, LeadsTo dic nodes p g i o m := by
  generalize hstack : i :: is = stack at hway
  induction hway generalizing i is with
  | start hR hl =>
    obtain ⟨rfl, -⟩ := List.cons.inj hstack
    exact ⟨hR, _, hl⟩
  | step hway hitem hc hl hpost hord ih =>
    obtain ⟨rfl, -⟩ := List.cons.inj hstack
    obtain ⟨hR, m, hl'⟩ := ih rfl
    exact ⟨(hg.next _ _ _ hR hl' _ _ _ hitem hc).1, _, hl⟩

namespace Completer

variable {s s' : Completer} {i₀ : ℕ} {k₀ : List UInt8} {r : Option ℕ × Completer}

/-- The completer is on the way. -/
structure On (dic : Dictionary) (nodes : List (List Item)) (p : ℕ) (g : Placement ℕ) (R : ℕ → Prop) (i₀ : ℕ) (k₀ : List UInt8)
    (s : Completer) (i : ℕ) (is : List ℕ) (k : List UInt8) (o : ℕ) (es : List (List UInt8 × ℕ)) : Prop where
  /-- These are the indices. -/
  way : Way dic nodes p g R i₀ k₀ (i :: is) k o es
  /-- They are on the stack. -/
  stack : s.indexStack = i :: is
  /-- This is the key. -/
  key : s.key = k ++ [0]

/-- A terminal is looked for at a unit that leads to the state `m`, where these keys are to come. -/
def Seeks (dic : Dictionary) (nodes : List (List Item)) (p : ℕ) (g : Placement ℕ) (R : ℕ → Prop) (s : Completer) (i m : ℕ)
    (rest : List (List UInt8 × ℕ)) : Prop :=
  ∃ i₀ k₀ is k o es, On dic nodes p g R i₀ k₀ s i is k o es ∧ LeadsTo dic nodes p g i o m ∧
    ∃ t, Spells nodes (g o) t ∧ t.Ordered ∧ rest = under k t.entries ++ es

/-- The first letter of the items that are left is followed. -/
theorem On.exists_follow (hs : On dic nodes p g R i₀ k₀ s i is k o es) (hk : d.Keeps nodes t) (h : dic.Holds nodes p g)
    (hl : LeadsTo dic nodes p g i o m) (hitems : g o = pre ++ (c, n) :: post) (hc : c ≠ 0) {t' : WordTree UInt8 ℕ}
    (ht : Spells nodes ((c, n) :: post) t') (hord : t'.Ordered) :
    ∃ s' j, s.follow dic c i = .ok (some (j, s')) ∧ ∃ n < m, Seeks dic nodes p g R s' j n (under k t'.entries ++ es) := by
  have hm := hl.state
  have hmem : (c, n) ∈ g o := by simp [hitems]
  obtain ⟨hfollow, o', hl'⟩ := hl.follow h hk.wellFormed hmem hc
  cases ht with
  | leaf value hnext => exact absurd rfl hc
  | @edge _ zs down next _ _ _ hn hdown hnext =>
    obtain rfl := hl'.items_eq hk.wellFormed hn
    refine ⟨{ s with key := k ++ [c] ++ [0], indexStack := cell o c :: i :: is }, cell o c, ?_, n, hk.child_lt hm hmem hc,
      i₀, k₀, i :: is, k ++ [c], o', _, ⟨.step hs.way hitems hc hl' hnext hord.2.2, rfl, rfl⟩, hl', down, hdown, hord.1.2, ?_⟩
    · rw [follow, hfollow, ok_bind]
      dsimp only
      rw [push, hs.key, if_neg (by simp), hs.stack]
      simp [pure_ok, ok_bind]
    · rw [entries, under_append, under_under, List.append_assoc]

/-- What is listed next: the keys are still to come, the completer is at one, or there are no more. -/
inductive Lists (dic : Dictionary) (nodes : List (List Item)) (p : ℕ) (g : Placement ℕ) (R : ℕ → Prop) :
    Completer → List (List UInt8 × ℕ) → Prop where
  /-- None has been listed. -/
  | start {s : Completer} {i m : ℕ} {rest : List (List UInt8 × ℕ)}
      (hs : Seeks dic nodes p g R s i m rest) (hlast : s.lastIndex = 0)
      (hstack : s.indexStack = [i]) : Lists dic nodes p g R s rest
  /-- A key has been listed. -/
  | listed {s : Completer} {i₀ : ℕ} {k₀ : List UInt8} {i : ℕ} {is : List ℕ} {k : List UInt8}
      {o : ℕ} {es : List (List UInt8 × ℕ)} {value : ℕ}
      {xs : List Item} {t : WordTree UInt8 ℕ} (hs : On dic nodes p g R i₀ k₀ s i is k o es) (hlast : s.lastIndex = i) (hi : i ≠ 0)
      (hitem : g o = (0, value) :: xs) (hxs : Spells nodes xs t) (hord : t.Ordered) :
      Lists dic nodes p g R s (under k t.entries ++ es)
  /-- All have been listed. -/
  | done {s : Completer} (hs : s.indexStack = []) : Lists dic nodes p g R s []

/-- What a call of `Next` does. -/
def Steps (dic : Dictionary) (nodes : List (List Item)) (p : ℕ) (g : Placement ℕ) (R : ℕ → Prop) (r : Bool × Completer) :
    List (List UInt8 × ℕ) → Prop
  | [] => r.1 = false ∧ Lists dic nodes p g R r.2 []
  | e :: es => r.1 = true ∧ r.2.keyChars = e.1 ∧ r.2.value dic = .ok (e.2 : ℤ) ∧ Lists dic nodes p g R r.2 es

/-- The first children lead to a terminal. -/
theorem exists_findTerminal (hk : d.Keeps nodes t) (h : dic.Holds nodes p g) (hg : guide.Guides dic nodes p g R)
    (hroot : ∀ o m, LeadsTo dic nodes p g 0 o m → 0 ∉ (g o).map Prod.fst) {fuel : ℕ}
    (hs : Seeks dic nodes p g R s i m es) (hfuel : unitsBelow dic p g m < fuel) :
    ∃ r, findTerminal dic guide fuel s i = .ok r ∧ Steps dic nodes p g R r es := by
  induction fuel generalizing s i m with
  | zero => exact absurd hfuel (Nat.not_lt_zero _)
  | succ fuel ih =>
    obtain ⟨i₀, k₀, is, k, o, es, hs, hl, t', ht, hord, rfl⟩ := hs
    obtain ⟨hR, -⟩ := hs.way.exists_leadsTo hg
    have hchild := hg.child i o m hR hl
    have hm := hl.state
    have htail := ht.tail_ne_zero hord
    rw [findTerminal, hl.hasValue_eq, ok_bind]
    generalize hitems : g o = xs at ht hchild htail hm
    cases xs with
    | nil => exact absurd rfl (hk.wellFormed _ hm.mem).1
    | cons x xs =>
      obtain ⟨c, n⟩ := x
      by_cases hc : c = 0
      · subst hc
        cases ht with
        | edge hc hn hdown hnext => exact absurd rfl hc
        | leaf value hnext =>
          have hv : (0, n) ∈ g o := by simp [hitems]
          have hi : i ≠ 0 := by
            rintro rfl
            exact hroot o m hl (List.mem_map_of_mem hv)
          refine ⟨(true, { s with lastIndex := i }), ?_, rfl, ?_, hl.value_eq h hk.wellFormed hv, ?_⟩
          · rw [List.map_cons, decide_eq_true List.mem_cons_self, if_pos rfl]
            rfl
          · simp [keyChars, hs.key]
          · exact .listed ⟨hs.way, hs.stack, hs.key⟩ rfl hi hitems hnext hord.2
      · have h0 : (0 : UInt8) ∉ ((c, n) :: xs).map Prod.fst := by
          rw [List.map_cons, List.mem_cons, not_or]
          refine ⟨Ne.symm hc, fun hmem => ?_⟩
          obtain ⟨x, hx, hx0⟩ := List.mem_map.mp hmem
          exact htail x hx hx0
        obtain ⟨s', j, hfollow, n', hlt, hs'⟩ :=
          hs.exists_follow hk h hl (show g o = [] ++ (c, n) :: xs from hitems) hc ht hord
        obtain ⟨_, _, _, _, _, _, _, hl', -⟩ := id hs'
        have hless := unitsBelow_lt h.apart hl' hlt
        obtain ⟨r, hrun, hr⟩ := ih hs' (by omega)
        refine ⟨r, ?_, hr⟩
        rw [decide_eq_false h0, if_neg Bool.false_ne_true, hchild, ok_bind, firstLetter, if_neg hc, hfollow, ok_bind]
        exact hrun

/-- Where the completer moves to: it looks for a terminal at a unit, or nothing is left. -/
def Moves (dic : Dictionary) (nodes : List (List Item)) (p : ℕ) (g : Placement ℕ) (R : ℕ → Prop) (es : List (List UInt8 × ℕ)) :
    Option ℕ × Completer → Prop
  | (none, s) => es = [] ∧ s.indexStack = []
  | (some i, s) => ∃ m, Seeks dic nodes p g R s i m es

/-- It moves back to the last index with a sibling. -/
theorem exists_back (hk : d.Keeps nodes t) (h : dic.Holds nodes p g) (hg : guide.Guides dic nodes p g R)
    (hs : On dic nodes p g R i₀ k₀ s i is k o es) : ∃ r, s.back dic guide i is = .ok r ∧ Moves dic nodes p g R es r := by
  obtain ⟨hway, -, hkey⟩ := hs
  generalize hstack : i :: is = stack at hway
  induction hway generalizing s i is with
  | start hR hl =>
    obtain ⟨rfl, rfl⟩ := List.cons.inj hstack
    have hlt := hl.lt
    rw [← hg.length] at hlt
    refine ⟨(none, { s with key := s.popKey, indexStack := [] }), ?_, rfl, rfl⟩
    rw [back, Guide.sibling, Pool.get_eq (List.getElem?_eq_getElem hlt)]
    rfl
  | @step i' is' k' o es pre post c n o' t' hway hitem hc hl hpost hord ih =>
    obtain ⟨rfl, rfl⟩ := List.cons.inj hstack
    obtain ⟨hR, m, hl'⟩ := hway.exists_leadsTo hg
    have hm := hl'.state
    have hpop : s.popKey = k' ++ [0] := by
      rw [popKey, hkey]
      simp
    have hon : On dic nodes p g R i₀ k₀ { s with key := k' ++ [0], indexStack := i' :: is' } i' is' k' o es :=
      ⟨hway, rfl, rfl⟩
    have hletters := hk.letters hm hitem
    rw [back, (hg.next _ _ _ hR hl' _ _ _ hitem hc).2, ok_bind, hpop]
    dsimp only
    cases post with
    | nil =>
      cases hpost
      rw [firstLetter, if_neg (not_not_intro rfl)]
      exact ih rfl rfl
    | cons y ys =>
      have hy := hletters y List.mem_cons_self
      obtain ⟨s', j, hfollow, n', -, hs'⟩ :=
        hon.exists_follow hk h hl' (show g o = (pre ++ [(c, n)]) ++ (y.1, y.2) :: ys by simp [hitem]) hy hpost hord
      refine ⟨(some j, s'), ?_, n', hs'⟩
      rw [firstLetter, if_neg hy, if_pos hy, hfollow]
      rfl

theorem exists_advance (hk : d.Keeps nodes t) (h : dic.Holds nodes p g) (hg : guide.Guides dic nodes p g R)
    (hs : Lists dic nodes p g R s es) (hstack : s.indexStack = i :: is) :
    ∃ r, s.advance dic guide i is = .ok r ∧ Moves dic nodes p g R es r := by
  cases hs with
  | start hs hlast hstack' =>
    obtain ⟨rfl, rfl⟩ := List.cons.inj (hstack.symm.trans hstack')
    exact ⟨(some i, s), if_pos hlast, _, hs⟩
  | done hs => exact absurd (hstack.symm.trans hs) (List.cons_ne_nil i is)
  | @listed _ _ _ _ k o es value xs t' hs hlast hi hitem hxs hord =>
    obtain ⟨rfl, rfl⟩ := List.cons.inj (hstack.symm.trans hs.stack)
    obtain ⟨hR, m, hl⟩ := hs.way.exists_leadsTo hg
    have hm := hl.state
    have hletters := hk.letters hm (show g o = [] ++ (0, value) :: xs from hitem)
    rw [advance, hlast, Dictionary.root, if_neg hi, hg.child i o m hR hl, ok_bind, hitem, firstLetter, if_pos rfl]
    cases xs with
    | nil =>
      cases hxs
      rw [firstLetter, if_neg (not_not_intro rfl)]
      exact exists_back hk h hg hs
    | cons y ys =>
      have hy := hletters y List.mem_cons_self
      obtain ⟨s', j, hfollow, n', -, hs'⟩ :=
        hs.exists_follow hk h hl (show g o = [(0, value)] ++ (y.1, y.2) :: ys from hitem) hy hxs hord
      refine ⟨(some j, s'), ?_, n', hs'⟩
      rw [firstLetter, if_neg hy, if_pos hy, hfollow]
      rfl

/-- A call of `Next` lists the next key. -/
theorem exists_next (hk : d.Keeps nodes t) (h : dic.Holds nodes p g) (hg : guide.Guides dic nodes p g R)
    (hroot : ∀ o m, LeadsTo dic nodes p g 0 o m → 0 ∉ (g o).map Prod.fst) (hs : Lists dic nodes p g R s es) :
    ∃ r, s.next dic guide = .ok r ∧ Steps dic nodes p g R r es := by
  cases hstack : s.indexStack with
  | nil =>
    refine ⟨(false, s), by rw [next, hstack]; rfl, ?_⟩
    cases hs with
    | start _ _ hstack' => exact absurd (hstack'.symm.trans hstack) (List.cons_ne_nil _ _)
    | listed hs => exact absurd (hs.stack.symm.trans hstack) (List.cons_ne_nil _ _)
    | done hs => exact ⟨rfl, .done hs⟩
  | cons i is =>
    obtain ⟨⟨r, s'⟩, hadvance, hmoves⟩ := exists_advance hk h hg hs hstack
    cases r with
    | none =>
      obtain ⟨rfl, hnil⟩ := hmoves
      refine ⟨(false, s'), ?_, rfl, .done hnil⟩
      rw [next, hstack]
      dsimp only
      rw [hadvance]
      rfl
    | some j =>
      obtain ⟨m, hs'⟩ := hmoves
      obtain ⟨r, hrun, hr⟩ := exists_findTerminal hk h hg hroot hs' (Nat.lt_succ_of_le (unitsBelow_le dic p g m))
      refine ⟨r, ?_, hr⟩
      rw [next, hstack]
      dsimp only
      rw [hadvance]
      exact hrun

/-- The keys and values of some calls of `Next`, or that there is none. -/
def outcomes (dic : Dictionary) (guide : Guide) : ℕ → Completer → Except Fault (List (Option (List UInt8 × ℤ)))
  | 0, _ => pure []
  | n + 1, s => do
    let (found, s) ← s.next dic guide
    let outcome ← if found then do pure (some (s.keyChars, ← s.value dic)) else pure none
    let rest ← outcomes dic guide n s
    pure (outcome :: rest)

/-- What the calls should be: the keys with their values, and then none. -/
def expected (es : List (List UInt8 × ℕ)) (n : ℕ) : List (Option (List UInt8 × ℤ)) :=
  ((es.map fun e : List UInt8 × ℕ => some (e.1, (e.2 : ℤ))) ++ List.replicate n none).take n

theorem expected_nil (n : ℕ) : expected [] n = List.replicate n none := by
  rw [expected, List.map_nil, List.nil_append, List.take_replicate, Nat.min_self]

theorem expected_cons (e : List UInt8 × ℕ) (es : List (List UInt8 × ℕ)) (n : ℕ) :
    expected (e :: es) (n + 1) = some (e.1, (e.2 : ℤ)) :: expected es n := by
  rw [expected, List.map_cons, List.cons_append, List.take_succ_cons, expected, List.replicate_succ', ← List.append_assoc,
    List.take_append_of_le_length]
  rw [List.length_append, List.length_replicate]
  omega

theorem outcomes_eq (hk : d.Keeps nodes t) (h : dic.Holds nodes p g) (hg : guide.Guides dic nodes p g R)
    (hroot : ∀ o m, LeadsTo dic nodes p g 0 o m → 0 ∉ (g o).map Prod.fst) (n : ℕ) (hs : Lists dic nodes p g R s es) :
    outcomes dic guide n s = .ok (expected es n) := by
  induction n generalizing s es with
  | zero => rfl
  | succ n ih =>
    obtain ⟨r, hrun, hr⟩ := exists_next hk h hg hroot hs
    rw [outcomes, hrun, ok_bind]
    cases es with
    | nil =>
      obtain ⟨hfalse, hr⟩ := hr
      dsimp only
      rw [hfalse, if_neg Bool.false_ne_true, pure_ok, ok_bind, ih hr, ok_bind, expected_nil, expected_nil,
        List.replicate_succ]
      rfl
    | cons e es =>
      obtain ⟨htrue, hkey, hvalue, hr⟩ := hr
      dsimp only
      rw [htrue, if_pos rfl, hvalue, hkey, ok_bind, pure_ok, ok_bind, ih hr, ok_bind, expected_cons]
      rfl

/-- Nothing is listed if there is no index. -/
theorem outcomes_of_nil (dic : Dictionary) (guide : Guide) (n : ℕ) (hs : s.indexStack = []) :
    outcomes dic guide n s = .ok (expected [] n) := by
  rw [expected_nil]
  induction n with
  | zero => rfl
  | succ n ih =>
    have hnext : s.next dic guide = .ok (false, s) := by
      rw [next, hs]
      rfl
    rw [outcomes, hnext, ok_bind, List.replicate_succ]
    dsimp only
    rw [if_neg Bool.false_ne_true, pure_ok, ok_bind, ih]
    rfl

/-! ### Completing a string -/

/-- At the indices that are followed from the root on, the guide says what is next. -/
theorem exists_leadsTo_of_follows (hk : d.Keeps nodes t) (h : dic.Holds nodes p g) (hg : guide.Guides dic nodes p g R)
    {key : List UInt8} {all : Bool} {last count : ℕ} (hfollows : dic.follows key dic.root = .ok (all, last, count)) :
    R last ∧ ∃ o m, LeadsTo dic nodes p g last o m := by
  refine Dictionary.follows_induction (P := fun i => R i ∧ ∃ o m, LeadsTo dic nodes p g i o m) ?_ hfollows ⟨hg.root, ?_⟩
  · rintro i j c ⟨hR, o, m, hl⟩ hfollow
    rw [hl.follow_eq h hk.wellFormed] at hfollow
    split_ifs at hfollow with hc
    · obtain ⟨hc0, hmem⟩ := hc
      obtain ⟨⟨c, n⟩, hx, rfl⟩ := List.mem_map.mp hmem
      obtain ⟨pre, post, hitems⟩ := List.append_of_mem hx
      obtain rfl := Option.some.inj (Except.ok.inj hfollow)
      obtain ⟨-, o', hl'⟩ := hl.follow h hk.wellFormed hx hc0
      exact ⟨(hg.next i o m hR hl pre (c, n) post hitems hc0).1, o', n, hl'⟩
    · exact nomatch Except.ok.inj hfollow
  · obtain ⟨o, hl⟩ := h.exists_leadsTo .root
    exact ⟨o, p, hl⟩

/-- The keys that go on from a string are listed. -/
theorem outcomes_of_follows (hk : d.Keeps nodes t) (h : dic.Holds nodes p g) (hg : guide.Guides dic nodes p g R)
    (hr : Reads dic nodes p g dic.root t) (hkeys : ∀ e ∈ t.entries, e.1 ≠ []) {key : List UInt8} {last count : ℕ}
    (hfollows : dic.follows key dic.root = .ok (true, last, count)) (s : Completer) (pre : List UInt8) (n : ℕ) :
    outcomes dic guide n (s.start dic guide last pre) = .ok (expected (under pre (residual t.entries key)) n) := by
  have hroot : ∀ o m, LeadsTo dic nodes p g 0 o m → 0 ∉ (g o).map Prod.fst := by
    intro o m hl hmem
    obtain ⟨o', m', hl', hxs, hord⟩ := hr
    obtain ⟨rfl, rfl⟩ := hl.unique hl' h.apart
    obtain ⟨⟨c, v⟩, hx, rfl⟩ := List.mem_map.mp hmem
    exact hkeys _ ((WordTree.value_eq_some_iff hord).mp ((hxs.value_eq_some_iff hord).mpr hx)) rfl
  obtain ⟨hR, -⟩ := exists_leadsTo_of_follows hk h hg hfollows
  obtain ⟨last', count', hfollows', hle, ⟨t', hdescend, o, m, hl, ht', hord⟩, hcount⟩ :=
    h.exists_follows hk.wellFormed key hr
  have hends := Except.ok.inj (hfollows.symm.trans hfollows')
  rw [Prod.mk.injEq, Prod.mk.injEq] at hends
  obtain ⟨hall, rfl, rfl⟩ := hends
  have hwhole : key.length ≤ count := (hcount key.length le_rfl).mpr (by rw [List.take_length, ← hall])
  rw [Nat.le_antisymm hle hwhole, List.take_length] at hdescend
  have hguide : guide.size ≠ 0 := by
    rw [Guide.size, hg.length]
    exact Nat.ne_of_gt (Nat.zero_lt_of_lt hl.lt)
  rw [residual_entries hk.ordered, hdescend, Option.map_some, Option.getD_some, start, if_pos hguide]
  refine outcomes_eq hk h hg hroot n
    (.start (i := last) (m := m) ⟨last, pre, [], pre, o, [], ⟨.start hR hl, rfl, rfl⟩, hl, t', ht', hord, ?_⟩ rfl rfl)
  rw [List.append_nil]

end Completer

namespace GuideBuilder

open DictionaryBuilder

/-- With a guide, a completer lists what goes on from a string in the words of a lexicon. -/
def Completes (dic : Dictionary) (guide : Guide) (es : List (List UInt8 × ℕ)) : Prop :=
  ∀ key last count, dic.follows key dic.root = .ok (true, last, count) → ∀ (c : Completer) (pre : List UInt8) (n : ℕ),
    Completer.outcomes dic guide n (c.start dic guide last pre) = .ok (Completer.expected (under pre (residual es key)) n)

/-- The guide for a dictionary of a dawg. -/
theorem exists_completes (hk : d.Keeps nodes t) (hkeys : ∀ e ∈ t.entries, e.1 ≠ [])
    (hdic : t ≠ .nil → ∃ p g, d.child d.root = .ok p ∧ dic.Holds nodes p g ∧ Reads dic nodes p g dic.root t) :
    ∃ guide, build d dic Guide.construct = .ok (some guide) ∧ guide.size ≤ dic.size ∧ Completes dic guide t.entries := by
  by_cases ht : t = .nil
  · subst ht
    have hsize : d.size ≤ 1 := by
      obtain ⟨p, xs, -, ⟨rfl, -, -⟩ | hm, hxs⟩ := hk.top
      · exact hk.size_eq.le
      · exact absurd (hxs.eq_nil_iff.mpr rfl) (hk.wellFormed xs hm.mem).1
    refine ⟨Guide.construct, if_pos hsize, Nat.zero_le _, fun key last count _ c pre n => ?_⟩
    exact Completer.outcomes_of_nil dic Guide.construct n rfl
  · obtain ⟨p, g, hp, hholds, hreads⟩ := hdic ht
    obtain ⟨guide, R, hguide, hg⟩ := exists_guide hk hholds hp Guide.construct
    exact ⟨guide, hguide, hg.length.le, fun key last count hfollows c pre n =>
      Completer.outcomes_of_follows hk hholds hg hreads hkeys hfollows c pre n⟩

/-- **A completer lists the keys that go on from a string.** After any calls, if there is room for a dictionary of
the dawg, a guide for it is built. From the index at which a string ends, the calls of `Next` give the keys that
begin with it, in order and with their values, and no others; then they fail, however often `Next` is called. -/
theorem build_completes (size : ℕ) (hsize : 0 < size) (calls : List Call) (hvalues : ∀ call ∈ calls, call.2 < 2 ^ 31)
    (hroom : 1 + (calls.map cost).sum < 2 ^ 30) :
    ∃ s d r, (DawgBuilder.construct size).inserts calls = .ok ((lexicon [] calls).1, s) ∧
      s.finish = .ok (d, DawgBuilder.construct size) ∧
      DictionaryBuilder.build d = .ok r ∧ (r = none → 2 ^ 21 < ((lexicon [] calls).2.map fun e => e.1.length).sum + 2) ∧
      ∀ dic k, r = some (dic, k) → ∃ guide, build d dic Guide.construct = .ok (some guide) ∧
        ∀ key last count, dic.follows key dic.root = .ok (true, last, count) → ∀ (c : Completer) (pre : List UInt8) (n : ℕ),
          Completer.outcomes dic guide n (c.start dic guide last pre) =
            .ok (Completer.expected (under pre (residual (lexicon [] calls).2 key)) n) := by
  obtain ⟨s, d, nodes, t, hinserts, hfinish, hkeeps, hentries⟩ := DawgBuilder.exists_build hsize hvalues hroom
  obtain ⟨r, hbuild, hfull, hr⟩ := exists_build hkeeps
  have hkeys : ∀ e ∈ (lexicon [] calls).2, e.1 ≠ [] := fun e he =>
    (key_of_mem_lexicon (fun e he => absurd he List.not_mem_nil) e he).1
  rw [← hentries] at hkeys ⊢
  refine ⟨s, d, r, hinserts, hfinish, hbuild, fun hc => ?_, fun dic k he => ?_⟩
  · exact (hfull hc).trans_le (Nat.add_le_add_right (WordTree.edges_le hkeeps.ordered) 2)
  · obtain ⟨guide, hguide, -, hcompletes⟩ := exists_completes hkeeps hkeys (hr dic k he).2.2.2.1
    exact ⟨guide, hguide, hcompletes⟩

theorem build_completes_ab_b :
    ∃ s d r, (DawgBuilder.construct 4).inserts [(some [97, 98], 5), (some [98], 5)] = .ok ([true, true], s) ∧
      s.finish = .ok (d, DawgBuilder.construct 4) ∧ DictionaryBuilder.build d = .ok r ∧ (r = none → 2 ^ 21 < 2 + (1 + 0) + 2) ∧
      ∀ dic k, r = some (dic, k) → ∃ guide, build d dic Guide.construct = .ok (some guide) ∧
        ∀ key last count, dic.follows key dic.root = .ok (true, last, count) → ∀ (c : Completer) (pre : List UInt8) (n : ℕ),
          Completer.outcomes dic guide n (c.start dic guide last pre) =
            .ok (Completer.expected (under pre (residual [([97, 98], 5), ([98], 5)] key)) n) :=
  build_completes 4 (by decide) [(some [97, 98], 5), (some [98], 5)] (by decide) (by decide)

end GuideBuilder

end InfixSearch.Dawgdic
