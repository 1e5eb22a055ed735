import Mathlib

/-!
# Trees of words

A set of words, each with a value, is kept as a tree in which siblings form a list: the end of
a word, with its value, or a letter with the tree of what may follow it. In an ordered tree the
end of a word comes before every letter and the letters ascend, so the words stand in
lexicographic order (`sorted_entries`), a word is found letter by letter (`find_eq_some_iff`),
and two trees with the same words are the same tree (`Ordered.eq_of_entries_eq`).

A path from the root to the end of the last word is a list of frames, each with the siblings
that come before the path and the letter it takes. The words of the tree that is plugged
together from the frames are those before the path and those at its end (`entries_plug`).
-/

namespace InfixSearch.Library

universe u v

/-- A list of siblings. -/
inductive WordTree (κ : Type u) (ν : Type v) where
  /-- No sibling. -/
  | nil
  /-- The end of a word, with its value. -/
  | leaf (v : ν) (next : WordTree κ ν)
  /-- A letter, and what may follow it. -/
  | edge (c : κ) (down next : WordTree κ ν)
  deriving DecidableEq

namespace WordTree

variable {κ : Type u} {ν : Type v}

/-- A letter before the words of a list. -/
def under (k : List κ) (es : List (List κ × ν)) : List (List κ × ν) := es.map fun e => (k ++ e.1, e.2)

/-- The words, with their values. -/
def entries : WordTree κ ν → List (List κ × ν)
  | nil => []
  | leaf v next => ([], v) :: next.entries
  | edge c down next => under [c] down.entries ++ next.entries

/-- How many letters there are in it. -/
def edges : WordTree κ ν → ℕ
  | nil => 0
  | leaf _ next => next.edges
  | edge _ down next => 1 + down.edges + next.edges

/-- What the siblings begin with: the end of a word is below every letter. -/
def heads : WordTree κ ν → List (WithBot κ)
  | nil => []
  | leaf _ next => ⊥ :: next.heads
  | edge c _ next => c :: next.heads

/-- What a word begins with. -/
def head : List κ → WithBot κ
  | [] => ⊥
  | c :: _ => c

/-- More siblings at the end. -/
def append : WordTree κ ν → WordTree κ ν → WordTree κ ν
  | nil, t => t
  | leaf v next, t => leaf v (next.append t)
  | edge c down next, t => edge c down (next.append t)

@[simp] theorem under_nil (k : List κ) : under k ([] : List (List κ × ν)) = [] := rfl

@[simp] theorem under_append (k : List κ) (es es' : List (List κ × ν)) : under k (es ++ es') = under k es ++ under k es' :=
  List.map_append

@[simp] theorem under_empty (es : List (List κ × ν)) : under [] es = es := by simp [under]

theorem under_under (k k' : List κ) (es : List (List κ × ν)) : under k (under k' es) = under (k ++ k') es := by
  simp [under, Function.comp_def]

theorem under_injective (k : List κ) : Function.Injective (under k : List (List κ × ν) → List (List κ × ν)) := by
  refine List.map_injective_iff.mpr fun e e' h => ?_
  rw [Prod.mk.injEq, List.append_cancel_left_eq] at h
  exact Prod.ext h.1 h.2

theorem mem_under {k : List κ} {es : List (List κ × ν)} {e : List κ × ν} :
    e ∈ under k es ↔ ∃ k', e.1 = k ++ k' ∧ (k', e.2) ∈ es := by
  simp only [under, List.mem_map]
  constructor
  · rintro ⟨a, ha, rfl⟩
    exact ⟨a.1, rfl, ha⟩
  · rintro ⟨k', hk, hm⟩
    exact ⟨(k', e.2), hm, by rw [← hk]⟩

@[simp] theorem entries_append (s t : WordTree κ ν) : (s.append t).entries = s.entries ++ t.entries := by
  induction s with
  | nil => rfl
  | leaf v next ih => rw [append, entries, ih, entries, List.cons_append]
  | edge c down next _ ih => rw [append, entries, ih, entries, List.append_assoc]

@[simp] theorem heads_append (s t : WordTree κ ν) : (s.append t).heads = s.heads ++ t.heads := by
  induction s with
  | nil => rfl
  | leaf v next ih => rw [append, heads, ih, heads, List.cons_append]
  | edge c down next _ ih => rw [append, heads, ih, heads, List.cons_append]

@[simp] theorem append_nil (t : WordTree κ ν) : t.append nil = t := by
  induction t with
  | nil => rfl
  | leaf v next ih => rw [append, ih]
  | edge c down next _ ih => rw [append, ih]

theorem append_ne_nil_right {s t : WordTree κ ν} (h : t ≠ nil) : s.append t ≠ nil := by
  cases s with
  | nil => exact h
  | leaf v next => exact fun he => nomatch he
  | edge c down next => exact fun he => nomatch he

/-- A word begins as one of the siblings. -/
theorem head_mem_heads {t : WordTree κ ν} {e : List κ × ν} (h : e ∈ t.entries) : head e.1 ∈ t.heads := by
  induction t with
  | nil => cases h
  | leaf v next ih =>
    rw [entries, List.mem_cons] at h
    rw [heads, List.mem_cons]
    rcases h with rfl | h
    · exact .inl rfl
    · exact .inr (ih h)
  | edge c down next _ ih =>
    rw [entries, List.mem_append, mem_under] at h
    rw [heads, List.mem_cons]
    rcases h with ⟨k', hk, _⟩ | h
    · refine .inl ?_
      rw [hk]
      rfl
    · exact .inr (ih h)

/-! ### Order -/

section Order

variable [LinearOrder κ]

/-- The siblings ascend, and a letter is followed by something. -/
def Ordered : WordTree κ ν → Prop
  | nil => True
  | leaf _ next => (∀ x ∈ next.heads, ⊥ < x) ∧ next.Ordered
  | edge c down next => (down ≠ nil ∧ down.Ordered) ∧ (∀ x ∈ next.heads, (c : WithBot κ) < x) ∧ next.Ordered

theorem ordered_append {s t : WordTree κ ν} :
    (s.append t).Ordered ↔ s.Ordered ∧ t.Ordered ∧ ∀ x ∈ s.heads, ∀ y ∈ t.heads, x < y := by
  induction s with
  | nil => simp [append, heads, Ordered]
  | leaf v next ih =>
    simp only [append, Ordered, heads, heads_append, ih, List.mem_append, List.forall_mem_cons, or_imp, forall_and]
    tauto
  | edge c down next _ ih =>
    simp only [append, Ordered, heads, heads_append, ih, List.mem_append, List.forall_mem_cons, or_imp, forall_and]
    tauto

/-- The siblings ascend. -/
theorem Ordered.pairwise_heads {t : WordTree κ ν} (h : t.Ordered) : t.heads.Pairwise (· < ·) := by
  induction t with
  | nil => exact .nil
  | leaf v next ih => exact .cons h.1 (ih h.2)
  | edge c down next _ ih => exact .cons h.2.1 (ih h.2.2)

theorem lt_of_head_lt {k k' : List κ} (h : head k < head k') : k < k' := by
  cases k' with
  | nil => exact absurd h not_lt_bot
  | cons d k' =>
    cases k with
    | nil => exact List.nil_lt_cons d k'
    | cons c k =>
      rw [List.cons_lt_cons_iff]
      exact .inl (WithBot.coe_lt_coe.mp h)

/-- The words stand in lexicographic order, each once. -/
theorem sorted_entries {t : WordTree κ ν} (h : t.Ordered) : t.entries.Pairwise fun a b => a.1 < b.1 := by
  induction t with
  | nil => exact .nil
  | leaf v next ih =>
    refine .cons (fun e he => ?_) (ih h.2)
    exact lt_of_head_lt (k := []) (h.1 _ (head_mem_heads he))
  | edge c down next ihd ih =>
    rw [entries, List.pairwise_append]
    refine ⟨?_, ih h.2.2, fun e he e' he' => ?_⟩
    · rw [under, List.pairwise_map]
      refine (ihd h.1.2).imp fun hlt => ?_
      simpa using hlt
    · obtain ⟨k', hk, -⟩ := mem_under.mp he
      rw [hk]
      exact lt_of_head_lt (h.2.1 _ (head_mem_heads he'))

end Order

/-! ### Following letters -/

section Search

variable [LinearOrder κ]

/-- What may follow a letter. -/
def child : WordTree κ ν → κ → Option (WordTree κ ν)
  | nil, _ => none
  | leaf _ next, c => next.child c
  | edge d down next, c => if d = c then some down else next.child c

/-- The value of the word that ends here. -/
def value : WordTree κ ν → Option ν
  | nil => none
  | leaf v _ => some v
  | edge _ _ next => next.value

/-- What may follow the letters of a word. -/
def descend (t : WordTree κ ν) (k : List κ) : Option (WordTree κ ν) := k.foldlM child t

/-- The value of a word. -/
def find (t : WordTree κ ν) (k : List κ) : Option ν := (t.descend k).bind value

@[simp] theorem descend_nil (t : WordTree κ ν) : t.descend [] = some t := rfl

theorem descend_cons (t : WordTree κ ν) (c : κ) (k : List κ) : t.descend (c :: k) = (t.child c).bind (descend · k) := by
  simp only [descend, List.foldlM_cons]
  rfl

theorem child_eq_none {t : WordTree κ ν} {c : κ} (h : (c : WithBot κ) ∉ t.heads) : t.child c = none := by
  induction t with
  | nil => rfl
  | leaf v next ih =>
    rw [heads, List.mem_cons, not_or] at h
    exact ih h.2
  | edge d down next _ ih =>
    rw [heads, List.mem_cons, not_or, WithBot.coe_inj] at h
    rw [child, if_neg (Ne.symm h.1)]
    exact ih h.2

theorem Ordered.child {t d : WordTree κ ν} {c : κ} (h : t.Ordered) (hc : t.child c = some d) : d.Ordered ∧ d ≠ nil := by
  induction t with
  | nil => cases hc
  | leaf v next ih => exact ih h.2 hc
  | edge e down next _ ih =>
    rw [WordTree.child] at hc
    split_ifs at hc with he
    · obtain rfl := Option.some.inj hc
      exact ⟨h.1.2, h.1.1⟩
    · exact ih h.2.2 hc

theorem Ordered.descend {t d : WordTree κ ν} {k : List κ} (h : t.Ordered) (hk : t.descend k = some d) : d.Ordered := by
  induction k generalizing t with
  | nil => exact Option.some.inj hk ▸ h
  | cons c k ih =>
    rw [descend_cons, Option.bind_eq_some_iff] at hk
    obtain ⟨t', ht', hk⟩ := hk
    exact ih (h.child ht').1 hk

theorem Ordered.descend_ne_nil {t d : WordTree κ ν} {k : List κ} (h : t.Ordered) (hne : t ≠ nil)
    (hk : t.descend k = some d) : d ≠ nil := by
  induction k generalizing t with
  | nil => exact Option.some.inj hk ▸ hne
  | cons c k ih =>
    rw [descend_cons, Option.bind_eq_some_iff] at hk
    obtain ⟨t', ht', hk⟩ := hk
    exact ih (h.child ht').1 (h.child ht').2 hk

/-- The words that begin with a letter are those of its child. -/
theorem filter_entries_head {t : WordTree κ ν} (h : t.Ordered) (c : κ) :
    t.entries.filter (fun e => head e.1 = (c : WithBot κ)) = under [c] (((t.child c).map entries).getD []) := by
  induction t with
  | nil => rfl
  | leaf v next ih =>
    rw [entries, List.filter_cons_of_neg (by simp [head])]
    exact ih h.2
  | edge d down next _ ih =>
    rw [entries, List.filter_append, ih h.2.2, WordTree.child]
    by_cases hdc : d = c
    · subst hdc
      have hnext : next.child d = none := child_eq_none fun hm => lt_irrefl _ (h.2.1 _ hm)
      have hall : (under [d] down.entries).filter (fun e => head e.1 = (d : WithBot κ)) = under [d] down.entries := by
        rw [List.filter_eq_self]
        intro e he
        obtain ⟨k', hk, -⟩ := mem_under.mp he
        rw [hk]
        exact decide_eq_true rfl
      rw [if_pos rfl, hnext, hall]
      simp
    · have hnone : (under [d] down.entries).filter (fun e => head e.1 = (c : WithBot κ)) = [] := by
        rw [List.filter_eq_nil_iff]
        intro e he
        obtain ⟨k', hk, -⟩ := mem_under.mp he
        rw [hk, decide_eq_true_iff]
        exact fun hd => hdc (WithBot.coe_inj.mp hd)
      rw [if_neg hdc, hnone, List.nil_append]

/-- The words that begin with `k` are those of what may follow it. -/
theorem filter_entries_prefix {t : WordTree κ ν} (h : t.Ordered) (k : List κ) :
    t.entries.filter (fun e => k <+: e.1) = under k (((t.descend k).map entries).getD []) := by
  induction k generalizing t with
  | nil => simp
  | cons c k ih =>
    have hsplit : t.entries.filter (fun e => c :: k <+: e.1) =
        (t.entries.filter (fun e => head e.1 = (c : WithBot κ))).filter (fun e => c :: k <+: e.1) := by
      rw [List.filter_filter]
      refine List.filter_congr fun e _ => ?_
      cases he : e.1 with
      | nil => simp [head]
      | cons d k' =>
        rw [← Bool.decide_and]
        refine decide_eq_decide.mpr ⟨fun hp => ⟨hp, ?_⟩, fun hp => hp.1⟩
        rw [(List.cons_prefix_cons.mp hp).1]
        rfl
    rw [hsplit, filter_entries_head h, descend_cons]
    cases hc : t.child c with
    | none => rfl
    | some d =>
      have hfilter : (under [c] d.entries).filter (fun e => c :: k <+: e.1) = under [c] (d.entries.filter fun e => k <+: e.1) := by
        simp only [under, List.filter_map]
        congr 1
        refine List.filter_congr fun e _ => ?_
        exact decide_eq_decide.mpr (by simp)
      simp only [Option.map_some, Option.getD_some, Option.bind_some, hfilter, ih (h.child hc).1, under_under]
      rfl

/-- The end of a word comes before the words with letters. -/
theorem entries_eq_value {t : WordTree κ ν} (h : t.Ordered) :
    t.entries = (t.value.map fun v => ([], v)).toList ++ t.entries.filter fun e => e.1 ≠ [] := by
  have hall : ∀ {s : WordTree κ ν}, (∀ x ∈ s.heads, ⊥ < x) → s.entries.filter (fun e => e.1 ≠ []) = s.entries := by
    intro s hs
    rw [List.filter_eq_self]
    intro e he
    refine decide_eq_true fun h0 => ?_
    have hlt := hs _ (head_mem_heads he)
    rw [h0] at hlt
    exact lt_irrefl _ hlt
  induction t with
  | nil => rfl
  | leaf v next =>
    rw [entries, List.filter_cons_of_neg (by simp), hall h.1]
    rfl
  | edge c down next _ ih =>
    have hnext : next.value = none := by
      have hentries := ih h.2.2
      rw [hall fun x hx => (WithBot.bot_lt_coe c).trans (h.2.1 x hx), List.self_eq_append_left, Option.toList_eq_nil_iff,
        Option.map_eq_none_iff] at hentries
      exact hentries
    rw [value, hnext]
    refine (hall fun x hx => ?_).symm
    rw [heads, List.mem_cons] at hx
    rcases hx with rfl | hx
    · exact WithBot.bot_lt_coe c
    · exact (WithBot.bot_lt_coe c).trans (h.2.1 x hx)

/-- The words that some letters begin with: the one that ends here, and those with letters. -/
theorem filter_entries_within {t : WordTree κ ν} (h : t.Ordered) (k : List κ) :
    t.entries.filter (fun e => e.1 <+: k) =
      (t.value.map fun v => ([], v)).toList ++ t.entries.filter fun e => e.1 ≠ [] ∧ e.1 <+: k := by
  have hsplit := congrArg (List.filter fun e => e.1 <+: k) (entries_eq_value h)
  rw [List.filter_append, List.filter_filter] at hsplit
  refine hsplit.trans (congrArg₂ _ ?_ (List.filter_congr fun e _ => ?_))
  · cases t.value <;> simp
  · rw [Bool.and_comm, ← Bool.decide_and]

/-- The words with letters that some letters begin with are those of the child. -/
theorem filter_entries_cons {t : WordTree κ ν} (h : t.Ordered) (c : κ) (k : List κ) :
    t.entries.filter (fun e => e.1 ≠ [] ∧ e.1 <+: c :: k) =
      under [c] (((t.child c).map fun d => d.entries.filter fun e => e.1 <+: k).getD []) := by
  have hsplit : t.entries.filter (fun e => e.1 ≠ [] ∧ e.1 <+: c :: k) =
      (t.entries.filter (fun e => head e.1 = (c : WithBot κ))).filter (fun e => e.1 <+: c :: k) := by
    rw [List.filter_filter]
    refine List.filter_congr fun e _ => ?_
    cases he : e.1 with
    | nil => simp [head]
    | cons d k' =>
      rw [← Bool.decide_and]
      refine decide_eq_decide.mpr ⟨fun hp => ⟨hp.2, ?_⟩, fun hp => ⟨List.cons_ne_nil d k', hp.1⟩⟩
      rw [(List.cons_prefix_cons.mp hp.2).1]
      rfl
  rw [hsplit, filter_entries_head h]
  cases t.child c with
  | none => rfl
  | some d =>
    simp only [Option.map_some, Option.getD_some, under, List.filter_map]
    congr 1
    refine List.filter_congr fun e _ => ?_
    exact decide_eq_decide.mpr (by simp)

/-- What follows `k` in the words that begin with it. -/
def residual (es : List (List κ × ν)) (k : List κ) : List (List κ × ν) :=
  (es.filter fun e => k <+: e.1).map fun e => (e.1.drop k.length, e.2)

theorem residual_entries {t : WordTree κ ν} (h : t.Ordered) (k : List κ) :
    residual t.entries k = ((t.descend k).map entries).getD [] := by
  rw [residual, filter_entries_prefix h, under, List.map_map]
  simp [Function.comp_def]

/-- The word that ends here comes first. -/
theorem value_eq_some_iff {t : WordTree κ ν} (h : t.Ordered) {v : ν} : t.value = some v ↔ ([], v) ∈ t.entries := by
  induction t with
  | nil => simp [value, entries]
  | leaf w next ih =>
    have hnot : ([], v) ∉ next.entries := fun hm => lt_irrefl _ (h.1 _ (head_mem_heads hm))
    simp [value, entries, hnot, eq_comm]
  | edge c down next _ ih =>
    rw [value, ih h.2.2, entries, List.mem_append, mem_under]
    simp

/-- A word is found with the value it has. -/
theorem find_eq_some_iff {t : WordTree κ ν} (h : t.Ordered) {k : List κ} {v : ν} :
    t.find k = some v ↔ (k, v) ∈ t.entries := by
  have hmem : (k, v) ∈ t.entries ↔ (k, v) ∈ t.entries.filter (fun e => k <+: e.1) := by simp
  rw [hmem, filter_entries_prefix h, find]
  cases hd : t.descend k with
  | none => simp
  | some d =>
    rw [Option.bind_some, value_eq_some_iff (h.descend hd), mem_under]
    simp

end Search

/-! ### A tree is known by its words -/

section Words

variable [LinearOrder κ]

/-- What the first word begins with. -/
theorem head_entries {t : WordTree κ ν} (h : t.Ordered) : t.entries.head?.map (fun e => head e.1) = t.heads.head? := by
  induction t with
  | nil => rfl
  | leaf v next _ => rfl
  | edge c down next ihd _ =>
    have hne : down.entries ≠ [] := by
      intro he
      have hd := ihd h.1.2
      rw [he] at hd
      cases down with
      | nil => exact h.1.1 rfl
      | leaf v n => cases hd
      | edge d dn n => cases hd
    obtain ⟨e, es, hes⟩ := List.exists_cons_of_ne_nil hne
    rw [entries, hes]
    rfl

/-- A tree with no words is empty. -/
theorem Ordered.entries_ne_nil {t : WordTree κ ν} (h : t.Ordered) (hne : t ≠ nil) : t.entries ≠ [] := by
  intro he
  have hhead := head_entries h
  rw [he] at hhead
  cases t with
  | nil => exact hne rfl
  | leaf v next => cases hhead
  | edge c down next => cases hhead

/-- The letters of a word are followed if and only if a word begins with them. -/
theorem descend_isSome_iff {t : WordTree κ ν} (h : t.Ordered) (hne : t ≠ nil) {k : List κ} :
    (t.descend k).isSome = true ↔ ∃ e ∈ t.entries, k <+: e.1 := by
  have hwords : (∃ e ∈ t.entries, k <+: e.1) ↔ t.entries.filter (fun e => k <+: e.1) ≠ [] := by
    rw [ne_eq, List.filter_eq_nil_iff]
    simp
  rw [hwords, filter_entries_prefix h]
  cases hk : t.descend k with
  | none => simp
  | some d =>
    have hentries := (h.descend hk).entries_ne_nil (h.descend_ne_nil hne hk)
    simpa [under] using hentries

/-- There are no more letters than the words have. -/
theorem edges_le {t : WordTree κ ν} (h : t.Ordered) : t.edges ≤ (t.entries.map fun e => e.1.length).sum := by
  induction t with
  | nil => exact Nat.zero_le _
  | leaf v next ih => simpa [edges, entries] using ih h.2
  | edge c down next ihd ih =>
    have hpos := List.length_pos_iff.mpr (h.1.2.entries_ne_nil h.1.1)
    have hunder : ((under [c] down.entries).map fun e => e.1.length).sum =
        down.entries.length + (down.entries.map fun e => e.1.length).sum := by
      simp [under, Function.comp_def, List.sum_map_add, Nat.add_comm]
    have hd := ihd h.1.2
    have hn := ih h.2.2
    rw [edges, entries, List.map_append, List.sum_append, hunder]
    omega

/-- Two ordered trees with the same words are the same. -/
theorem Ordered.eq_of_entries_eq {s t : WordTree κ ν} (hs : s.Ordered) (ht : t.Ordered) (h : s.entries = t.entries) :
    s = t := by
  induction s generalizing t with
  | nil =>
    have hhead := head_entries ht
    rw [← h] at hhead
    cases t with
    | nil => rfl
    | leaf v next => cases hhead
    | edge c down next => cases hhead
  | leaf v next ih =>
    have hhead := head_entries ht
    rw [← h] at hhead
    cases t with
    | nil => cases hhead
    | edge c down next' => cases hhead
    | leaf w next' =>
      rw [entries, entries, List.cons.injEq, Prod.mk.injEq] at h
      rw [h.1.2, ih hs.2 ht.2 h.2]
  | edge c down next ihd ih =>
    have hhead := (head_entries hs).symm.trans ((congrArg (fun es => es.head?.map fun e => head e.1) h).trans (head_entries ht))
    cases t with
    | nil => cases hhead
    | leaf v next' => cases hhead
    | edge c' down' next' =>
      obtain rfl : c = c' := WithBot.coe_inj.mp (Option.some.inj hhead)
      have hdown : down.entries = down'.entries := by
        have hfilter := congrArg (List.filter fun e => head e.1 = (c : WithBot κ)) h
        rw [filter_entries_head hs, filter_entries_head ht, WordTree.child, WordTree.child, if_pos rfl,
          if_pos rfl] at hfilter
        exact under_injective [c] hfilter
      rw [entries, entries, hdown] at h
      rw [ihd hs.1.2 ht.1.2 hdown, ih hs.2.2 ht.2.2 (List.append_cancel_left h)]

end Words

/-! ### The path to the last word -/

/-- The siblings before a path, and the letter it takes. -/
structure Frame (κ : Type u) (ν : Type v) where
  /-- The siblings before it. -/
  older : WordTree κ ν
  /-- The letter. -/
  label : κ

/-- The letters of a path. -/
def word (fs : List (Frame κ ν)) : List κ := fs.map Frame.label

/-- The tree around what stands at the end of a path. -/
def plug : List (Frame κ ν) → WordTree κ ν → WordTree κ ν
  | [], t => t
  | f :: fs, t => f.older.append (edge f.label (plug fs t) nil)

/-- The words before a path. -/
def past : List (Frame κ ν) → List (List κ × ν)
  | [] => []
  | f :: fs => f.older.entries ++ under [f.label] (past fs)

theorem plug_append (fs gs : List (Frame κ ν)) (t : WordTree κ ν) : plug (fs ++ gs) t = plug fs (plug gs t) := by
  induction fs with
  | nil => rfl
  | cons f fs ih => rw [List.cons_append, plug, ih, plug]

theorem past_append (fs gs : List (Frame κ ν)) : past (fs ++ gs) = past fs ++ under (word fs) (past gs) := by
  induction fs with
  | nil => simp [past, word]
  | cons f fs ih =>
    rw [List.cons_append, past, ih, under_append, under_under, ← List.append_assoc, past]
    rfl

/-- The words before the path and those at its end. -/
theorem entries_plug (fs : List (Frame κ ν)) (t : WordTree κ ν) :
    (plug fs t).entries = past fs ++ under (word fs) t.entries := by
  induction fs with
  | nil => simp [plug, past, word]
  | cons f fs ih =>
    rw [plug, entries_append, entries, entries, List.append_nil, ih, under_append, under_under, ← List.append_assoc, past]
    rfl

theorem plug_ne_nil {fs : List (Frame κ ν)} {t : WordTree κ ν} (h : t ≠ nil) : plug fs t ≠ nil := by
  cases fs with
  | nil => exact h
  | cons f fs => exact append_ne_nil_right fun he => nomatch he

/-- A path without siblings. -/
def bare (k : List κ) : List (Frame κ ν) := k.map fun c => ⟨nil, c⟩

@[simp] theorem word_bare (k : List κ) : word (bare k : List (Frame κ ν)) = k := by
  simp [word, bare, Function.comp_def]

@[simp] theorem past_bare (k : List κ) : past (bare k : List (Frame κ ν)) = [] := by
  induction k with
  | nil => rfl
  | cons c k ih => exact congrArg (under [c]) ih

@[simp] theorem word_append (fs gs : List (Frame κ ν)) : word (fs ++ gs) = word fs ++ word gs := List.map_append

@[simp] theorem word_cons (f : Frame κ ν) (fs : List (Frame κ ν)) : word (f :: fs) = f.label :: word fs := rfl

@[simp] theorem word_reverse (fs : List (Frame κ ν)) : word fs.reverse = (word fs).reverse := by
  rw [word, word, List.map_reverse]

/-- What stood at the end of a path comes before the path of a new word. -/
theorem past_turn (fs : List (Frame κ ν)) (t : WordTree κ ν) (c : κ) (k : List κ) :
    past (fs ++ ⟨t, c⟩ :: bare k) = (plug fs t).entries := by
  rw [past_append, past, past_bare, under_nil, List.append_nil, entries_plug]

section Order

variable [LinearOrder κ]

/-- The siblings before a path are ordered, and come before its letters. -/
def OrderedPath (fs : List (Frame κ ν)) : Prop := ∀ f ∈ fs, f.older.Ordered ∧ ∀ x ∈ f.older.heads, x < (f.label : WithBot κ)

theorem ordered_plug {fs : List (Frame κ ν)} {t : WordTree κ ν} (hfs : OrderedPath fs) (ht : t.Ordered) (hne : t ≠ nil) :
    (plug fs t).Ordered := by
  induction fs with
  | nil => exact ht
  | cons f fs ih =>
    obtain ⟨hf, hfs⟩ := List.forall_mem_cons.mp hfs
    rw [plug, ordered_append]
    refine ⟨hf.1, ⟨⟨plug_ne_nil hne, ih hfs⟩, by simp [heads], trivial⟩, fun x hx y hy => ?_⟩
    rw [heads, heads, List.mem_singleton] at hy
    exact hy ▸ hf.2 x hx

theorem orderedPath_bare (k : List κ) : OrderedPath (bare k : List (Frame κ ν)) := by
  intro f hf
  obtain ⟨c, -, rfl⟩ := List.mem_map.mp hf
  exact ⟨trivial, fun x hx => nomatch hx⟩

end Order

end WordTree

end InfixSearch.Library
