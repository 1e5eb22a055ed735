import InfixSearch.Library.ForestSearch

/-!
# Start positions

A search for a key inside the words of a radix forest starts at every position of
every tail. `starts` lists the positions with the symbol that follows (the key of
a child, at the last position of a tail: one entry for each child), in the order
in which an index over pairs of adjacent symbols meets them.

The answers of all starts that a key's first two symbols select are, up to order,
one copy of the word for each leaf and each offset at which the key occurs there,
except the copies that a leaf above cuts off (`answers_perm`).
-/

namespace InfixSearch.Library.Forest

universe u v

variable {ι : Type u} {α : Type v}

/-- A position in a tail: what is above and before it, and what follows. -/
structure Start (ι : Type u) (α : Type v) where
  /-- The word before the position. -/
  pre : List α
  /-- The name of the node. -/
  id : ι
  /-- The position in its tail. -/
  idx : ℕ
  /-- The tail from the position on. -/
  rest : List α
  /-- Whether a word ends at the node. -/
  leaf : Bool
  /-- The children of the node. -/
  children : Forest ι α

/-- What can be read from a start position. -/
def Start.tree (st : Start ι α) : Forest ι α := node st.id st.rest st.leaf st.children nil

/-- Position `i` of a node's tail. -/
def startAt (u : List α) (id : ι) (t : List α) (leaf : Bool) (cs : Forest ι α) (i : ℕ) : Start ι α :=
  ⟨u ++ t.take i, id, i, t.drop i, leaf, cs⟩

theorem startAt_wf {u : List α} {F : Forest ι α} (hF : F.WF) {S : Site ι α} (hS : S ∈ F.sites u) {i : ℕ}
    (hi : i < S.tail.length) : (startAt S.pre S.id S.tail S.leaf S.children i).tree.WF := by
  obtain ⟨-, hbranch, hwf⟩ := hF.site hS
  exact WF.single (fun h0 => absurd (List.drop_eq_nil_iff.mp h0) (by omega)) hbranch hwf

/-- The words at and below a site, read from a position of its tail. -/
theorem words_startAt (S : Site ι α) (i : ℕ) : (node S.id S.tail S.leaf S.children nil).words S.pre =
    ((startAt S.pre S.id S.tail S.leaf S.children i).tree.words []).map (S.pre ++ S.tail.take i ++ ·) := by
  rw [← words_append, List.append_nil]
  simp only [Start.tree, startAt, words, List.append_assoc, List.take_append_drop]

/-- The start positions of a forest under the word `u`, each with the symbol that
follows; `up` is the last position of the tail above. -/
def starts : List α → Start ι α → Forest ι α → List (Option α × Start ι α)
  | _, _, nil => []
  | u, up, node id t leaf cs sib =>
    (t.head?, up) :: ((List.range (t.length - 1)).map fun i => (t[i + 1]?, startAt u id t leaf cs i)) ++
      (cs.starts (u ++ t) (startAt u id t leaf cs (t.length - 1)) ++ sib.starts u up)

/-- The start positions of a site: those inside its tail, and the last one for each child. -/
def Site.starts (S : Site ι α) : List (Option α × Start ι α) :=
  ((List.range (S.tail.length - 1)).map fun i => (S.tail[i + 1]?, startAt S.pre S.id S.tail S.leaf S.children i)) ++
    S.children.keys.map fun k => (k, startAt S.pre S.id S.tail S.leaf S.children (S.tail.length - 1))

theorem Site.id_of_mem_starts {S : Site ι α} {e : Option α × Start ι α} (h : e ∈ S.starts) : e.2.id = S.id := by
  rcases List.mem_append.mp h with h | h
  · obtain ⟨i, -, rfl⟩ := List.mem_map.mp h
    rfl
  · obtain ⟨k, -, rfl⟩ := List.mem_map.mp h
    rfl

/-- The start positions of a forest are those of its sites, and the one above it for each tree. -/
theorem starts_perm (u : List α) (up : Start ι α) (F : Forest ι α) :
    (F.starts u up).Perm (F.keys.map (fun k => (k, up)) ++ (F.sites u).flatMap Site.starts) := by
  induction F generalizing u up with
  | nil => exact .refl _
  | node id t leaf cs sib ihc ihs =>
    simp only [starts, keys, sites, List.map_cons, List.flatMap_cons, List.flatMap_append, List.cons_append]
    refine List.Perm.cons _ ((((ihc _ _).append (ihs u up)).append_left _).trans ?_)
    -- the positions above the trees that follow come before those of this tree
    have := List.perm_append_comm_assoc (Site.starts ⟨u, id, t, leaf, cs⟩ ++ (cs.sites (u ++ t)).flatMap Site.starts)
      (sib.keys.map fun k => (k, up)) ((sib.sites u).flatMap Site.starts)
    simpa only [Site.starts, List.append_assoc] using this

theorem mem_starts_iff {u : List α} {up : Start ι α} {F : Forest ι α} {e : Option α × Start ι α} :
    e ∈ F.starts u up ↔ (e.1 ∈ F.keys ∧ e.2 = up) ∨ ∃ S ∈ F.sites u, e ∈ S.starts := by
  rw [(starts_perm u up F).mem_iff, List.mem_append, List.mem_map, List.mem_flatMap]
  obtain ⟨k, st⟩ := e
  simp [eq_comm]

/-- A start position is the one above the forest or belongs to a site. -/
theorem mem_starts {u : List α} {up : Start ι α} {F : Forest ι α} (hF : F.WF) {e : Option α × Start ι α}
    (h : e ∈ F.starts u up) : (e.2 = up ∧ e.1 ∈ F.keys) ∨ ∃ S ∈ F.sites u, ∃ i < S.tail.length,
      e.2 = startAt S.pre S.id S.tail S.leaf S.children i ∧
        ((i + 1 < S.tail.length ∧ e.1 = S.tail[i + 1]?) ∨ (i + 1 = S.tail.length ∧ e.1 ∈ S.children.keys)) := by
  rcases mem_starts_iff.mp h with ⟨hk, he⟩ | ⟨S, hS, hm⟩
  · exact .inl ⟨he, hk⟩
  · refine .inr ⟨S, hS, ?_⟩
    rcases List.mem_append.mp hm with hm | hm
    · obtain ⟨i, hi, rfl⟩ := List.mem_map.mp hm
      rw [List.mem_range] at hi
      exact ⟨i, by omega, rfl, .inl ⟨by omega, rfl⟩⟩
    · obtain ⟨k, hk, rfl⟩ := List.mem_map.mp hm
      have ht : S.tail ≠ [] := by
        intro h0
        rw [((hF.site hS).1 h0).2] at hk
        simp [keys] at hk
      have hpos := List.length_pos_iff.mpr ht
      exact ⟨S.tail.length - 1, by omega, rfl, .inr ⟨by omega, hk⟩⟩

/-- Sites of different names have different start positions. -/
theorem nodup_flatMap_starts {l : List (Site ι α)} (hids : (l.map Site.id).Nodup) (hkeys : ∀ S ∈ l, S.children.keys.Nodup) :
    ((l.flatMap Site.starts).map fun e => (e.1, e.2.id, e.2.idx)).Nodup := by
  have hid : ∀ S : Site ι α, ∀ x ∈ S.starts.map fun e => (e.1, e.2.id, e.2.idx), x.2.1 = S.id := by
    intro S x hx
    obtain ⟨e, he, rfl⟩ := List.mem_map.mp hx
    exact S.id_of_mem_starts he
  rw [List.map_flatMap, List.nodup_flatMap]
  refine ⟨fun S hS => ?_, ?_⟩
  · simp only [Site.starts, List.map_append, List.map_map]
    refine List.nodup_append.mpr ⟨?_, ?_, ?_⟩
    · refine List.Nodup.map_on (fun i _ j _ he => ?_) List.nodup_range
      exact (Prod.mk.inj (Prod.mk.inj he).2).2
    · refine (hkeys S hS).map fun j k he => ?_
      exact (Prod.mk.inj he).1
    · -- the position of the last symbol is not one inside
      rintro x hx y hy rfl
      obtain ⟨i, hi, rfl⟩ := List.mem_map.mp hx
      obtain ⟨k, -, he⟩ := List.mem_map.mp hy
      have hidx : S.tail.length - 1 = i := (Prod.mk.inj (Prod.mk.inj he).2).2
      rw [List.mem_range] at hi
      omega
  · refine (List.pairwise_map.mp hids).imp fun {S S'} hne x hx hx' => ?_
    exact hne ((hid S x hx).symm.trans (hid S' x hx'))

variable [DecidableEq α]

/-- The words that a search for `key` lists from a start position. -/
def Start.answers (key : List α) (st : Start ι α) : List (List α) := (found key st.tree).map (st.pre ++ key ++ ·)

theorem Start.mem_answers {key x : List α} {st : Start ι α} :
    x ∈ st.answers key ↔ ∃ hit, st.tree.seek key = some hit ∧ ∃ y ∈ hit.suffixes, st.pre ++ key ++ y = x := by
  rw [answers, found]
  cases h : st.tree.seek key with
  | none => simp
  | some hit => simp

/-- Behind the word before the position, an answer is a word that starts with the key. -/
theorem Start.exists_word_of_mem_answers {key x : List α} {st : Start ι α} (hne : key ≠ []) (hx : x ∈ st.answers key) :
    ∃ y ∈ st.tree.words [], key <+: y ∧ st.pre ++ y = x := by
  obtain ⟨hit, hseek, y, hy, rfl⟩ := mem_answers.mp hx
  have hw := List.mem_map_of_mem (f := (key ++ ·)) (hit.suffixes_subset hy)
  rw [← words_append, List.append_nil, ← List.nil_append key] at hw
  exact ⟨key ++ y, mem_words_of_seek hne hseek hw, List.prefix_append _ _, (List.append_assoc _ _ _).symm⟩

/-- The key is read from the start of a word to its end. -/
def Start.exact (key : List α) (st : Start ι α) : Bool :=
  match st.tree.seek key with
  | none => false
  | some hit => hit.exact && st.pre.isEmpty

/-- The start positions that a search goes through: up to the first exact one. -/
def visited (key : List α) : List (Start ι α) → List (Start ι α)
  | [] => []
  | st :: sts => st :: if st.exact key then [] else visited key sts

/-- With no exact one all are visited. -/
theorem visited_eq_self {key : List α} {sts : List (Start ι α)} (h : ∀ st ∈ sts, st.exact key = false) :
    visited key sts = sts := by
  induction sts with
  | nil => rfl
  | cons st sts ih =>
    rw [visited, h st List.mem_cons_self, ih fun st' hst' => h st' (List.mem_cons_of_mem _ hst')]
    simp

theorem visited_prefix (key : List α) (sts : List (Start ι α)) : visited key sts <+: sts := by
  induction sts with
  | nil => exact List.prefix_rfl
  | cons st sts ih =>
    rw [visited]
    split_ifs
    · exact ⟨sts, rfl⟩
    · exact (List.prefix_cons_inj st).mpr ih

/-- Up to the first exact one. -/
theorem visited_append_cons {key : List α} {l₁ l₂ : List (Start ι α)} {st : Start ι α}
    (h₁ : ∀ st' ∈ l₁, st'.exact key = false) (h : st.exact key = true) : visited key (l₁ ++ st :: l₂) = l₁ ++ [st] := by
  induction l₁ with
  | nil => simp [visited, h]
  | cons st' l₁ ih =>
    rw [List.cons_append, visited, h₁ st' List.mem_cons_self, ih fun st hst => h₁ st (List.mem_cons_of_mem _ hst)]
    simp

theorem visited_cases (key : List α) (sts : List (Start ι α)) :
    (visited key sts = sts ∧ ∀ st ∈ sts, st.exact key = false) ∨ ∃ l₁ st l₂, sts = l₁ ++ st :: l₂ ∧
      visited key sts = l₁ ++ [st] ∧ (∀ st' ∈ l₁, st'.exact key = false) ∧ st.exact key = true := by
  by_cases h : ∀ st ∈ sts, st.exact key = false
  · exact .inl ⟨visited_eq_self h, h⟩
  · right
    simp only [not_forall, Bool.not_eq_false] at h
    obtain ⟨st₀, hst₀, hex₀⟩ := h
    induction sts with
    | nil => cases hst₀
    | cons st sts ih =>
      cases hex : st.exact key with
      | true =>
        exact ⟨[], st, sts, rfl, by simp [visited, hex], fun _ h => (nomatch h), hex⟩
      | false =>
        have hne : st₀ ≠ st := by
          rintro rfl
          exact absurd hex₀ (by simp [hex])
        obtain ⟨l₁, st', l₂, rfl, -, h₁, h'⟩ := ih ((List.mem_cons.mp hst₀).resolve_left hne)
        have h₁' : ∀ x ∈ st :: l₁, x.exact key = false := by
          simpa [hex] using h₁
        exact ⟨st :: l₁, st', l₂, rfl, visited_append_cons h₁' h', h₁', h'⟩

/-- An exact position answers with the key alone. -/
theorem Start.answers_of_exact {key : List α} {st : Start ι α} (h : st.exact key = true) : st.answers key = [key] := by
  unfold exact at h
  rw [answers, found]
  cases hseek : st.tree.seek key with
  | none => rw [hseek] at h; cases h
  | some hit =>
    rw [hseek] at h
    simp only [Bool.and_eq_true, List.isEmpty_iff] at h
    simp [Hit.suffixes, h.1, h.2]

/-- A position of a well-formed forest that answers with the key alone is exact. -/
theorem Start.exact_of_answers {key : List α} {st : Start ι α} (hwf : st.tree.WF) (hne : key ≠ [])
    (hmem : key ∈ st.answers key) (hall : ∀ x ∈ st.answers key, x = key) : st.exact key = true := by
  obtain ⟨hit, hseek, y, hy, he⟩ := mem_answers.mp hmem
  have hpre : st.pre = [] := by
    have := congrArg List.length he
    simp only [List.length_append] at this
    exact List.length_eq_zero_iff.mp (by omega)
  have hnil : ∀ y ∈ hit.suffixes, y = [] := by
    intro y hy
    have := hall _ (mem_answers.mpr ⟨hit, hseek, y, hy, rfl⟩)
    rw [hpre, List.nil_append] at this
    simpa using this
  rw [exact, hseek]
  simp only [hpre, List.isEmpty_nil, Bool.and_true]
  by_contra hex
  have hsuffixes : hit.suffixes = (node hit.id hit.rest hit.leaf hit.children nil).words [] := by
    rw [Hit.suffixes, if_neg hex]
  rw [hsuffixes] at hnil
  obtain ⟨S, hS, -, hl, hc, -⟩ := exists_site_of_seek (u := []) hne hseek
  obtain ⟨-, hbranch, hchildren⟩ := hwf.site hS
  rw [hl, hc] at hbranch
  rw [hc] at hchildren
  rcases hbranch with hleaf | hwidth
  · have hrest := hnil hit.rest (mem_words_node.mpr (.inl ⟨hleaf, rfl⟩))
    exact hex (by simp [Hit.exact, hleaf, hrest])
  · obtain ⟨w, hw, hw0⟩ := hchildren.exists_word_ne_nil hwidth
    have hmem := hnil (hit.rest ++ w) (mem_words_node.mpr (.inr (.inl (by
      rw [List.nil_append, ← List.append_nil hit.rest, words_append, List.append_nil]
      exact List.mem_map_of_mem hw))))
    exact hw0 (List.append_eq_nil_iff.mp hmem).2

/-- The start positions that a key beginning with `a`, `b` selects. -/
def selected (a : α) (b : Option α) (es : List (Option α × Start ι α)) : List (Start ι α) :=
  (es.filter fun e => e.2.rest.head? = some a ∧ e.1 = b).map Prod.snd

theorem exists_of_mem_selected {a : α} {b : Option α} {es : List (Option α × Start ι α)} {st : Start ι α}
    (h : st ∈ selected a b es) : ∃ e ∈ es, e.2 = st ∧ st.rest.head? = some a := by
  obtain ⟨e, he, rfl⟩ := List.mem_map.mp h
  obtain ⟨hm, hsel⟩ := List.mem_filter.mp he
  exact ⟨e, hm, rfl, (of_decide_eq_true hsel).1⟩

/-! ### Every position once -/

/-- The answers from every position of every tail. -/
def hits (key : List α) : List α → Forest ι α → List (List α)
  | _, nil => []
  | u, node id t leaf cs sib =>
    (List.range t.length).flatMap (fun i => (startAt u id t leaf cs i).answers key) ++
      (cs.hits key (u ++ t) ++ sib.hits key u)

theorem found_single_ne {id : ι} {x : α} {r key : List α} {leaf : Bool} {cs : Forest ι α} (h : key.head? ≠ some x) :
    found key (node id (x :: r) leaf cs nil) = [] := by
  rw [found, seek_skip (by simpa using Ne.symm h)]
  rfl

/-- Reading on from a tail's last symbol fails when no child has the next one. -/
theorem found_last {id : ι} {x a b : α} {key : List α} {leaf : Bool} {cs : Forest ι α}
    (h : ¬ (x = a ∧ some b ∈ cs.keys)) : found (a :: b :: key) (node id [x] leaf cs nil) = [] := by
  by_cases hx : x = a
  · subst hx
    have hb : some b ∉ cs.keys := fun hb => h ⟨rfl, hb⟩
    rw [found, seek_down (by rfl) (by simp [agree]) (by simp [agree])]
    simp [seek_eq_none_of_notMem (show (b :: key).head? ∉ cs.keys from hb)]
  · exact found_single_ne (by simpa using Ne.symm hx)

/-- Reading on inside a tail fails when the next two symbols are not the key's. -/
theorem found_inside {id : ι} {x y a b : α} {r key : List α} {leaf : Bool} {cs : Forest ι α}
    (h : ¬ (x = a ∧ y = b)) : found (a :: b :: key) (node id (x :: y :: r) leaf cs nil) = [] := by
  by_cases hx : x = a
  · subst hx
    have hy : y ≠ b := fun hy => h ⟨rfl, hy⟩
    rw [found, seek_part (by rfl) (by simp [agree, hy]) (by simp [agree, hy])]
  · exact found_single_ne (by simpa using Ne.symm hx)

/-- What a list of entries contributes to the answers of a key beginning with `a`, `b`. -/
theorem flatMap_selected {β : Type*} (a : α) (b : Option α) (es : List (Option α × Start ι α)) (f : Start ι α → List β) :
    (selected a b es).flatMap f = es.flatMap fun e => if e.2.rest.head? = some a ∧ e.1 = b then f e.2 else [] := by
  induction es with
  | nil => rfl
  | cons e es ih =>
    simp only [selected, List.filter_cons, List.flatMap_cons, ← ih]
    by_cases h : e.2.rest.head? = some a ∧ e.1 = b <;> simp [h]

/-- Inside a tail, the positions left out have no answers. -/
theorem answers_startAt_inside {a b : α} {key u t : List α} {id : ι} {leaf : Bool} {cs : Forest ι α} {i : ℕ}
    (hi : i + 1 < t.length) :
    (if (startAt u id t leaf cs i).rest.head? = some a ∧ t[i + 1]? = some b
      then (startAt u id t leaf cs i).answers (a :: b :: key) else []) =
      (startAt u id t leaf cs i).answers (a :: b :: key) := by
  obtain ⟨x, y, r, e, hy⟩ : ∃ x y r, t.drop i = x :: y :: r ∧ t[i + 1]? = some y :=
    ⟨t[i], t[i + 1], t.drop (i + 2),
      by rw [List.drop_eq_getElem_cons (by omega), List.drop_eq_getElem_cons hi], List.getElem?_eq_getElem hi⟩
  rw [hy]
  split_ifs with h
  · rfl
  · simp only [startAt, e, List.head?_cons, Option.some.injEq] at h
    simp [Start.answers, Start.tree, startAt, e, found_inside h]

/-- At the end of a tail, the position is left out when no child goes on with the key. -/
theorem answers_startAt_last {a b : α} {key u t : List α} {id : ι} {leaf : Bool} {cs : Forest ι α} (ht : t ≠ []) :
    (if (startAt u id t leaf cs (t.length - 1)).rest.head? = some a ∧ some b ∈ cs.keys
      then (startAt u id t leaf cs (t.length - 1)).answers (a :: b :: key) else []) =
      (startAt u id t leaf cs (t.length - 1)).answers (a :: b :: key) := by
  obtain ⟨x, e⟩ : ∃ x, t.drop (t.length - 1) = [x] := by
    have hpos := List.length_pos_iff.mpr ht
    exact List.length_eq_one_iff.mp (by simp; omega)
  split_ifs with h
  · rfl
  · simp only [startAt, e, List.head?_cons, Option.some.injEq] at h
    simp [Start.answers, Start.tree, startAt, e, found_last h]

/-- The entries inside a tail that are selected answer for all of them. -/
theorem flatMap_inside {a b : α} {key : List α} (u : List α) (id : ι) (t : List α) (leaf : Bool) (cs : Forest ι α) :
    ((List.range (t.length - 1)).flatMap fun i =>
        if (startAt u id t leaf cs i).rest.head? = some a ∧ t[i + 1]? = some b
          then (startAt u id t leaf cs i).answers (a :: b :: key) else []) =
      (List.range (t.length - 1)).flatMap fun i => (startAt u id t leaf cs i).answers (a :: b :: key) := by
  refine List.flatMap_congr fun i hi => ?_
  rw [List.mem_range] at hi
  exact answers_startAt_inside (by omega)

/-- The positions inside a tail, and the last one, which the children's entries stand for. -/
theorem flatMap_own_perm {a b : α} {key u t : List α} {id : ι} {leaf : Bool} {cs : Forest ι α} (hnil : t = [] → cs = .nil)
    (hc : ((selected a (some b) (cs.starts (u ++ t) (startAt u id t leaf cs (t.length - 1)))).flatMap
        (Start.answers (a :: b :: key))).Perm
      ((if (startAt u id t leaf cs (t.length - 1)).rest.head? = some a ∧ some b ∈ cs.keys
          then (startAt u id t leaf cs (t.length - 1)).answers (a :: b :: key) else []) ++ cs.hits (a :: b :: key) (u ++ t))) :
    (((List.range (t.length - 1)).flatMap fun i => (startAt u id t leaf cs i).answers (a :: b :: key)) ++
        (selected a (some b) (cs.starts (u ++ t) (startAt u id t leaf cs (t.length - 1)))).flatMap
          (Start.answers (a :: b :: key))).Perm
      ((List.range t.length).flatMap (fun i => (startAt u id t leaf cs i).answers (a :: b :: key)) ++
        cs.hits (a :: b :: key) (u ++ t)) := by
  rcases eq_or_ne t [] with rfl | ht
  · rw [hnil rfl]
    simp [starts, hits, selected]
  · rw [answers_startAt_last ht] at hc
    obtain ⟨n, hn⟩ : ∃ n, t.length = n + 1 := ⟨t.length - 1, by have := List.length_pos_iff.mpr ht; omega⟩
    rw [hn, Nat.add_sub_cancel] at hc ⊢
    rw [List.range_succ, List.flatMap_append, List.append_assoc, List.flatMap_singleton]
    exact hc.append_left _

/-- The selected starts answer for every position of every tail, and for the one above. -/
theorem flatMap_selected_perm {a b : α} {key : List α} (u : List α) (up : Start ι α) {F : Forest ι α} (hF : F.WF) :
    ((selected a (some b) (F.starts u up)).flatMap (Start.answers (a :: b :: key))).Perm
      ((if up.rest.head? = some a ∧ some b ∈ F.keys then up.answers (a :: b :: key) else []) ++
        F.hits (a :: b :: key) u) := by
  induction F generalizing u up with
  | nil => simp [starts, selected, hits, keys]
  | node id t leaf cs sib ihc ihs =>
    obtain ⟨h1, -, h3, h4, h5⟩ := hF
    have hs := ihs u up h5
    have hown := flatMap_own_perm (fun ht => (h1 ht).2) (ihc (u ++ t) (startAt u id t leaf cs (t.length - 1)) h4)
    rw [flatMap_selected] at hs hown ⊢
    -- the entry across the edge to this node, and those across the edges to its siblings
    have hup : (if up.rest.head? = some a ∧ some b ∈ (node id t leaf cs sib).keys then up.answers (a :: b :: key) else []) =
        (if up.rest.head? = some a ∧ t.head? = some b then up.answers (a :: b :: key) else []) ++
          if up.rest.head? = some a ∧ some b ∈ sib.keys then up.answers (a :: b :: key) else [] := by
      by_cases hb : t.head? = some b
      · have hb' : some b ∉ sib.keys := hb ▸ h3
        simp [keys, hb, hb']
      · have hb' : ¬ some b = t.head? := Ne.symm hb
        simp [keys, hb, hb']
    rw [hup]
    simp only [starts, hits, List.cons_append, List.flatMap_cons, List.flatMap_append, List.flatMap_map, flatMap_inside,
      List.append_assoc]
    apply List.Perm.append_left
    rw [← List.append_assoc]
    refine (hown.append hs).trans ?_
    rw [← List.append_assoc, ← List.append_assoc, ← List.append_assoc]
    apply List.Perm.append_right
    rw [List.append_assoc _ _ (cs.hits _ _)]
    exact List.perm_append_comm

/-! ### Every occurrence once -/

/-- The copies of a leaf's word for its occurrences of the key from offset `n` on. -/
def copies (key : List α) (n : ℕ) (l : Ending ι α) : List (List α) :=
  (List.range (l.word.length - n)).flatMap fun i => if Shown key l (n + i) then [l.word] else []

theorem eq_word_of_mem_copies {key w : List α} {n : ℕ} {l : Ending ι α} (h : w ∈ copies key n l) : w = l.word := by
  rw [copies, List.mem_flatMap] at h
  obtain ⟨i, -, hi⟩ := h
  split_ifs at hi
  · exact List.mem_singleton.mp hi
  · exact absurd hi List.not_mem_nil

/-- Copies are of words. -/
theorem mem_words_of_mem_copies {key u w : List α} {A : List ℕ} {n : ℕ} {F : Forest ι α}
    (h : w ∈ (F.leaves u A).flatMap (copies key n)) : w ∈ F.words u := by
  obtain ⟨l, hl, hw⟩ := List.mem_flatMap.mp h
  rw [eq_word_of_mem_copies hw, ← map_word_leaves u A]
  exact List.mem_map_of_mem hl

/-- A leaf with no leaf above it: one copy for each occurrence. -/
theorem count_copies (key : List α) {l : Ending ι α} (hcuts : l.cuts = []) (w : List α) :
    (copies key 0 l).count w =
      if l.word = w then ((List.range w.length).filter fun p => key <+: w.drop p).length else 0 := by
  have hcopies : copies key 0 l = ((List.range l.word.length).filter fun p => key <+: l.word.drop p).map fun _ => l.word := by
    rw [copies, Nat.sub_zero]
    simp only [Shown, hcuts, List.not_mem_nil, not_false_eq_true, and_true, Nat.zero_add]
    generalize List.range l.word.length = is
    induction is with
    | nil => rfl
    | cons i is ih =>
      rw [List.flatMap_cons, List.filter_cons, ih]
      by_cases h : key <+: l.word.drop i <;> simp [h]
  rw [hcopies, List.map_const', List.count_replicate]
  split_ifs with h₁ h₂ h₂
  · rw [← h₂]
  · exact absurd (by simpa using h₁) h₂
  · exact absurd (by simpa using h₂) h₁
  · rfl

/-- Where no leaf has children every word is copied once for each occurrence. -/
theorem count_flatMap_copies {key w : List α} {F : Forest ι α} (hF : F.WF) (hn : F.ids.Nodup)
    (hleaf : ∀ S ∈ F.sites [], S.leaf = true → S.children = nil) (hw : w ∈ F.words []) :
    ((F.leaves [] []).flatMap (copies key 0)).count w = ((List.range w.length).filter fun p => key <+: w.drop p).length := by
  have hcuts : ∀ l ∈ F.leaves [] [], l.cuts = [] := by
    intro l hl
    refine List.eq_nil_iff_forall_not_mem.mpr fun n hm => ?_
    rcases (mem_cuts_iff hn hl).mp hm with h0 | ⟨B, hB, hBl, hBm, -⟩
    · simp at h0
    · rw [hleaf B hB hBl] at hBm
      simp [ids] at hBm
  have hnodup := hF.words_nodup hleaf
  rw [← map_word_leaves [] []] at hw hnodup
  obtain ⟨l, hl, rfl⟩ := List.mem_map.mp hw
  obtain ⟨l₁, l₂, he⟩ := List.append_of_mem hl
  rw [he, List.map_append, List.map_cons] at hnodup
  -- the other leaves have other words
  have hzero : ∀ ls : List (Ending ι α), l.word ∉ ls.map Ending.word → (ls.flatMap (copies key 0)).count l.word = 0 := by
    intro ls hnot
    refine List.count_eq_zero.mpr fun hm => hnot ?_
    obtain ⟨l', hl', hm'⟩ := List.mem_flatMap.mp hm
    rw [eq_word_of_mem_copies hm']
    exact List.mem_map_of_mem hl'
  obtain ⟨-, hnd, hdis⟩ := List.nodup_append.mp hnodup
  have h₁ := hzero l₁ fun hm => hdis _ hm _ List.mem_cons_self rfl
  have h₂ := hzero l₂ (List.nodup_cons.mp hnd).1
  rw [he, List.flatMap_append, List.flatMap_cons, List.count_append, List.count_append, h₁, h₂, count_copies key (hcuts l hl)]
  simp

/-- Two loops can be exchanged, up to order. -/
theorem flatMap_comm_perm {β γ δ : Type*} (l₁ : List β) (l₂ : List γ) (f : β → γ → List δ) :
    (l₁.flatMap fun b => l₂.flatMap (f b)).Perm (l₂.flatMap fun c => l₁.flatMap (f · c)) := by
  induction l₁ with
  | nil => simp
  | cons b l₁ ih =>
    simp only [List.flatMap_cons]
    exact (ih.append_left _).trans (List.flatMap_append_perm l₂ (f b) _)

/-- What a search answers from one position: the words below in which the key
occurs there. -/
theorem answers_startAt {key u : List α} {A : List ℕ} {id : ι} {t : List α} {leaf : Bool} {cs : Forest ι α} {i : ℕ}
    (hne : key ≠ []) (hWF : (node id t leaf cs nil).WF) (hA : ∀ q ∈ A, q ≤ u.length) (hi : i < t.length) :
    (startAt u id t leaf cs i).answers key =
      ((node id t leaf cs nil).leaves u A).flatMap fun l => if Shown key l (u.length + i) then [l.word] else [] := by
  have hWF' : (node id (t.drop i) leaf cs nil).WF :=
    WF.single (fun h => absurd (List.drop_eq_nil_iff.mp h) (by omega)) hWF.2.1 hWF.2.2.2.1
  have hpos : 0 < key.length := List.length_pos_iff.mpr hne
  -- the leaves below, seen from the position
  have hl : (node id t leaf cs nil).leaves u A = ((node id (t.drop i) leaf cs nil).leaves [] []).map fun l =>
      ⟨l.id, u ++ t.take i ++ l.word, A ++ l.cuts.map ((u ++ t.take i).length + ·)⟩ := by
    rw [← leaves_append]
    have hcut : cut leaf (u ++ t) = cut leaf (u ++ t.take i ++ t.drop i) := by
      rw [List.append_assoc, List.take_append_drop]
    simp [leaves, hcut]
  have hlen : (u ++ t.take i).length = u.length + i := by simp; omega
  have hshown (l : Ending ι α) : Shown key ⟨l.id, u ++ t.take i ++ l.word, A ++ l.cuts.map ((u ++ t.take i).length + ·)⟩
      (u.length + i) ↔ Shown key l 0 := by
    simp only [Shown, ← hlen, List.drop_left, List.drop_zero, Nat.zero_add, List.mem_append, List.mem_map, not_or]
    refine and_congr_right fun _ => ⟨fun h hq => h.2 ⟨_, hq, rfl⟩, fun h => ⟨fun hq => ?_, ?_⟩⟩
    · have := hA _ hq
      rw [hlen] at this; omega
    · rintro ⟨q, hq, he⟩
      rw [Nat.add_left_cancel he] at hq
      exact h hq
  rw [Start.answers, Start.tree, startAt, found_eq hWF' hne, hl, List.flatMap_map, List.map_map]
  simp only [hshown]
  simp only [List.append_assoc]
  generalize (node id (t.drop i) leaf cs nil).leaves [] [] = L
  induction L with
  | nil => rfl
  | cons l L ih =>
    rw [List.filter_cons, List.flatMap_cons]
    by_cases h : Shown key l 0
    · obtain ⟨s, hs⟩ : key <+: l.word := by simpa using h.1
      simp [h, ih, ← hs]
    · simp [h, ih]

/-- **Every occurrence once**: the answers from all positions are one copy of the
word for each leaf and each occurrence of the key that no leaf above cuts off. -/
theorem hits_perm {key u : List α} {A : List ℕ} {F : Forest ι α} (hne : key ≠ []) (hF : F.WF)
    (hA : ∀ q ∈ A, q ≤ u.length) : (F.hits key u).Perm ((F.leaves u A).flatMap (copies key u.length)) := by
  induction F generalizing u A with
  | nil => simp [hits, leaves]
  | node id t leaf cs sib ihc ihs =>
    have hF' := hF.tree
    obtain ⟨-, -, -, h4, h5⟩ := hF
    have hA' : ∀ q ∈ A ++ cut leaf (u ++ t), q ≤ (u ++ t).length := by
      intro q hq
      rw [List.mem_append] at hq
      rcases hq with hq | hq
      · have := hA q hq
        simp; omega
      · cases leaf <;> simp [cut] at hq ⊢
        omega
    -- the occurrences that start in this tail, of every leaf below
    have hown : ((List.range t.length).flatMap fun i => (startAt u id t leaf cs i).answers key).Perm
        (((node id t leaf cs nil).leaves u A).flatMap fun l =>
          (List.range t.length).flatMap fun i => if Shown key l (u.length + i) then [l.word] else []) := by
      rw [List.flatMap_congr fun i hi => answers_startAt hne hF' hA (List.mem_range.mp hi)]
      exact flatMap_comm_perm _ _ _
    -- a leaf further below has the occurrences in this tail and those after it
    have hsplit : ∀ l ∈ cs.leaves (u ++ t) (A ++ cut leaf (u ++ t)), copies key u.length l =
        ((List.range t.length).flatMap fun i => if Shown key l (u.length + i) then [l.word] else []) ++
          copies key (u ++ t).length l := by
      intro l hl
      have hle := (prefix_of_mem_leaves hl).length_le
      rw [List.length_append] at hle
      have hr : l.word.length - u.length = t.length + (l.word.length - (u ++ t).length) := by simp; omega
      rw [copies, hr, List.range_add, List.flatMap_append, List.flatMap_map, copies]
      simp [Nat.add_assoc]
    have hsingle : (node id t leaf cs nil).leaves u A =
        (if leaf then [⟨id, u ++ t, A⟩] else []) ++ cs.leaves (u ++ t) (A ++ cut leaf (u ++ t)) := by simp [leaves]
    rw [hsingle, List.flatMap_append] at hown
    have hself : (if leaf then [(⟨id, u ++ t, A⟩ : Ending ι α)] else []).flatMap (copies key u.length) =
        (if leaf then [(⟨id, u ++ t, A⟩ : Ending ι α)] else []).flatMap fun l =>
          (List.range t.length).flatMap fun i => if Shown key l (u.length + i) then [l.word] else [] := by
      cases leaf <;> simp [copies]
    rw [hits, leaves, List.flatMap_append, List.flatMap_append, List.flatMap_congr hsplit, hself,
      ← List.append_assoc, ← List.append_assoc]
    refine List.Perm.append ?_ (ihs h5 hA)
    refine (hown.append (ihc h4 hA')).trans ?_
    rw [List.append_assoc]
    exact (List.flatMap_append_perm _ _ _).append_left _

/-- **The answers to a key**: with no leaf at the start above the forest, the starts
that a key's first two symbols select answer with one copy of the word for each
leaf and each occurrence of the key that no leaf above cuts off. -/
theorem answers_perm {a b : α} {key : List α} {up : Start ι α} {F : Forest ι α} (hF : F.WF)
    (hup : up.rest.head? ≠ some a) :
    ((selected a (some b) (F.starts [] up)).flatMap (Start.answers (a :: b :: key))).Perm
      ((F.leaves [] []).flatMap (copies (a :: b :: key) 0)) := by
  refine (flatMap_selected_perm [] up hF).trans ?_
  rw [if_neg fun h => hup h.1, List.nil_append]
  exact hits_perm (by simp) hF (by simp)

end InfixSearch.Library.Forest
