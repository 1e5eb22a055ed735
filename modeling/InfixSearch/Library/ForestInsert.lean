import InfixSearch.Library.Forest
import InfixSearch.Library.Agree

/-!
# Insertion into a radix forest

`Forest.insert a b r F` puts the word `r` into `F`: it goes down the tree whose
key is the first symbol of `r`, past as much of its tail as agrees with `r`,
and either marks a leaf, splits a tail in two (`a` names the lower half, `b` the
new leaf) or adds a new leaf (named `a`).

This insertion follows a child whenever there is one under the next symbol of
the word, even where the word has parted from the tail before its end. `Strays`
says that it does so on its way, and `filed` is the word it stores in any case:
the words after the insertion are those before and that one (`mem_words_insert`),
which is `r` itself exactly when the insertion does not stray
(`filed_eq_iff`).
-/

namespace InfixSearch.Library.Forest

universe u v

variable {ι : Type u} {α : Type v} [DecidableEq α]

/-- The word `r` parts from the tail `t` inside it, and none of the children `cs`
has the key that `r` goes on with: the tail is split. -/
def Forks (t r : List α) (cs : Forest ι α) : Prop :=
  agree t r < t.length ∧ (r.drop (agree t r)).head? ∉ cs.keys

instance (t r : List α) (cs : Forest ι α) : Decidable (Forks t r cs) := inferInstanceAs (Decidable (_ ∧ _))

/-- Insertion of the word `r`, with the names `a` and `b` for new nodes. -/
def insert (a b : ι) : List α → Forest ι α → Forest ι α
  | r, nil => node a r true nil nil
  | r, node id t leaf cs sib =>
    if t.head? = r.head? then
      if r = t then node id t true cs sib
      else if Forks t r cs then
        node id (t.take (agree t r)) false
          (node a (t.drop (agree t r)) leaf cs (node b (r.drop (agree t r)) true nil nil)) sib
      else node id t leaf (cs.insert a b (r.drop (agree t r))) sib
    else node id t leaf cs (sib.insert a b r)

/-- How many new nodes the insertion makes. -/
def grown : List α → Forest ι α → ℕ
  | _, nil => 1
  | r, node _ t _ cs sib =>
    if t.head? = r.head? then
      if r = t then 0 else if Forks t r cs then 2 else cs.grown (r.drop (agree t r))
    else sib.grown r

/-- The word that the insertion of `r` stores. -/
def filed : List α → Forest ι α → List α
  | r, nil => r
  | r, node _ t _ cs sib =>
    if t.head? = r.head? then
      if r = t then r else if Forks t r cs then r else t ++ cs.filed (r.drop (agree t r))
    else sib.filed r

/-- On its way the insertion follows a child of a node inside whose tail `r` has
parted from it. -/
def Strays : List α → Forest ι α → Prop
  | _, nil => False
  | r, node _ t _ cs sib =>
    if t.head? = r.head? then
      r ≠ t ∧ ¬ Forks t r cs ∧ (agree t r < t.length ∨ cs.Strays (r.drop (agree t r)))
    else sib.Strays r

/-- The insertion adds no child to a node that has `cap` of them. -/
def Room (cap : ℕ) : List α → Forest ι α → Prop
  | _, nil => True
  | r, node _ t _ cs sib =>
    if t.head? = r.head? then
      r = t ∨ Forks t r cs ∨
        (((r.drop (agree t r)).head? ∉ cs.keys → cs.width < cap) ∧ cs.Room cap (r.drop (agree t r)))
    else sib.Room cap r

section Equations

variable (a b id : ι) (t r : List α) (leaf : Bool) (cs sib : Forest ι α)

theorem insert_skip (h : t.head? ≠ r.head?) :
    (node id t leaf cs sib).insert a b r = node id t leaf cs (sib.insert a b r) := by
  simp [insert, h]

theorem insert_self : (node id t leaf cs sib).insert a b t = node id t true cs sib := by
  simp [insert]

theorem insert_fork (h : t.head? = r.head?) (hne : r ≠ t) (hf : Forks t r cs) :
    (node id t leaf cs sib).insert a b r =
      node id (t.take (agree t r)) false
        (node a (t.drop (agree t r)) leaf cs (node b (r.drop (agree t r)) true nil nil)) sib := by
  simp [insert, h, hne, hf]

theorem insert_down (h : t.head? = r.head?) (hne : r ≠ t) (hf : ¬ Forks t r cs) :
    (node id t leaf cs sib).insert a b r = node id t leaf (cs.insert a b (r.drop (agree t r))) sib := by
  simp [insert, h, hne, hf]

end Equations

/-- How the insertion goes on at a node: past it, or into it in one of three ways. -/
theorem insert_cases {P : Prop} (t r : List α) (cs : Forest ι α) (skip : t.head? ≠ r.head? → P)
    (self : r = t → P) (fork : t.head? = r.head? → r ≠ t → Forks t r cs → P)
    (down : t.head? = r.head? → r ≠ t → ¬ Forks t r cs → P) : P := by
  by_cases h : t.head? = r.head?
  · by_cases hne : r = t
    · exact self hne
    · by_cases hf : Forks t r cs
      · exact fork h hne hf
      · exact down h hne hf
  · exact skip h

/-! ### Names, keys and roots -/

/-- A word whose key is not there yet is added at the end. -/
theorem insert_of_notMem {a b : ι} {r : List α} {F : Forest ι α} (h : r.head? ∉ F.keys) :
    (F.insert a b r).roots = F.roots ++ [a] ∧ (F.insert a b r).keys = F.keys ++ [r.head?] ∧
      F.grown r = 1 ∧ F.filed r = r ∧ ¬ F.Strays r := by
  induction F with
  | nil => simp [insert, roots, keys, grown, filed, Strays]
  | node id t leaf cs sib _ ih =>
    rw [keys, List.mem_cons, not_or] at h
    obtain ⟨hr, hk, hg, hf, hs⟩ := ih h.2
    rw [insert_skip _ _ _ _ _ _ _ _ (Ne.symm h.1)]
    simp [roots, keys, grown, filed, Strays, Ne.symm h.1, hr, hk, hg, hf, hs]

theorem rootOf_insert_of_notMem {a b : ι} {r : List α} {F : Forest ι α} (h : r.head? ∉ F.keys) (k : Option α) :
    (F.insert a b r).rootOf k = if r.head? = k then some a else F.rootOf k := by
  induction F with
  | nil => rfl
  | node id t leaf cs sib _ ih =>
    rw [keys, List.mem_cons, not_or] at h
    rw [insert_skip _ _ _ _ _ _ _ _ (Ne.symm h.1), rootOf, rootOf, ih h.2]
    split_ifs with h₁ h₂ <;> first | rfl | exact absurd (h₂.trans h₁.symm) h.1

theorem room_of_notMem {cap : ℕ} {r : List α} {F : Forest ι α} (h : r.head? ∉ F.keys) : F.Room cap r := by
  induction F with
  | nil => trivial
  | node id t leaf cs sib _ ih =>
    rw [keys, List.mem_cons, not_or] at h
    simpa [Room, Ne.symm h.1] using ih h.2

/-- Where every node has room for all nodes there is room. -/
theorem room_of_le {cap : ℕ} {F : Forest ι α} (h : F.ids.length ≤ cap) (r : List α) : F.Room cap r := by
  induction F generalizing r with
  | nil => trivial
  | node id t leaf cs sib ihc ihs =>
    simp only [ids, List.length_cons, List.length_append] at h
    have hwidth := cs.width_le_length_ids
    rw [Room]
    split_ifs
    · exact .inr (.inr ⟨fun _ => by omega, ihc (by omega) _⟩)
    · exact ihs (by omega) r

/-- A word whose key is there already changes neither roots nor keys. -/
theorem insert_of_mem {a b : ι} {r : List α} {F : Forest ι α} (h : r.head? ∈ F.keys) :
    (F.insert a b r).roots = F.roots ∧ (F.insert a b r).keys = F.keys := by
  induction F with
  | nil => simp [keys] at h
  | node id t leaf cs sib _ ih =>
    refine insert_cases t r cs (fun hh => ?_) (fun hrt => ?_) (fun hh hne hf => ?_) (fun hh hne hf => ?_)
    · rw [keys, List.mem_cons] at h
      obtain ⟨hr, hk⟩ := ih (h.resolve_left (Ne.symm hh))
      rw [insert_skip _ _ _ _ _ _ _ _ hh]
      simp [roots, keys, hr, hk]
    · subst hrt
      rw [insert_self]
      exact ⟨rfl, rfl⟩
    · rw [insert_fork _ _ _ _ _ _ _ _ hh hne hf]
      have hpos := agree_pos hh (Ne.symm hne)
      refine ⟨rfl, ?_⟩
      simp only [keys, List.cons.injEq, and_true]
      cases t with
      | nil => simp at hpos
      | cons c t => rw [← Nat.succ_pred_eq_of_pos hpos]; rfl
    · rw [insert_down _ _ _ _ _ _ _ _ hh hne hf]
      exact ⟨rfl, rfl⟩

theorem rootOf_insert_of_mem {a b : ι} {r : List α} {F : Forest ι α} (h : r.head? ∈ F.keys) (k : Option α) :
    (F.insert a b r).rootOf k = F.rootOf k := by
  induction F with
  | nil => cases h
  | node id t leaf cs sib _ ih =>
    refine insert_cases t r cs (fun hh => ?_) (fun hrt => ?_) (fun hh hne hfk => ?_) (fun hh hne hfk => ?_)
    · rw [keys, List.mem_cons] at h
      rw [insert_skip _ _ _ _ _ _ _ _ hh, rootOf, rootOf, ih (h.resolve_left (Ne.symm hh))]
    · rw [hrt, insert_self, rootOf, rootOf]
    · have hpos := agree_pos hh (Ne.symm hne)
      rw [insert_fork _ _ _ _ _ _ _ _ hh hne hfk, rootOf, rootOf, List.head?_take, if_neg (Nat.ne_of_gt hpos)]
    · rw [insert_down _ _ _ _ _ _ _ _ hh hne hfk, rootOf, rootOf]

theorem width_le_insert (a b : ι) (r : List α) (F : Forest ι α) : F.width ≤ (F.insert a b r).width := by
  rw [← length_roots, ← length_roots]
  by_cases h : r.head? ∈ F.keys
  · rw [(insert_of_mem h).1]
  · rw [(insert_of_notMem h).1]; simp

theorem grown_le (r : List α) (F : Forest ι α) : F.grown r ≤ 2 := by
  induction F generalizing r with
  | nil => simp [grown]
  | node id t leaf cs sib ihc ihs =>
    simp only [grown]
    split_ifs
    · omega
    · omega
    · exact ihc _
    · exact ihs _

/-- The names after an insertion: those before and the new ones. -/
theorem ids_insert (a b : ι) (r : List α) (F : Forest ι α) :
    (F.insert a b r).ids.Perm (F.ids ++ [a, b].take (F.grown r)) := by
  induction F generalizing r with
  | nil => simp [insert, grown, ids]
  | node id t leaf cs sib ihc ihs =>
    refine insert_cases t r cs (fun hh => ?_) (fun hrt => ?_) (fun hh hne hf => ?_) (fun hh hne hf => ?_)
    · rw [insert_skip _ _ _ _ _ _ _ _ hh]
      simp only [ids, grown, hh, if_false, List.cons_append, List.append_assoc]
      exact ((ihs r).append_left _).cons _
    · subst hrt
      rw [insert_self]
      simp [ids, grown]
    · rw [insert_fork _ _ _ _ _ _ _ _ hh hne hf]
      simp only [ids, grown, hh, hne, hf, if_true, if_false, List.nil_append, List.append_nil, List.cons_append,
        List.append_assoc]
      -- the new names stand around the children of the split node
      have h1 : (a :: (cs.ids ++ b :: sib.ids)).Perm (cs.ids ++ (a :: b :: sib.ids)) := List.perm_middle.symm
      have h2 : ([a, b] ++ sib.ids).Perm (sib.ids ++ [a, b]) := List.perm_append_comm
      exact (h1.trans (h2.append_left _)).cons _
    · rw [insert_down _ _ _ _ _ _ _ _ hh hne hf]
      simp only [ids, grown, hh, hne, hf, if_true, if_false, List.cons_append, List.append_assoc]
      refine List.Perm.cons _ (((ihc _).append_right _).trans ?_)
      rw [List.append_assoc]
      exact List.perm_append_comm.append_left _

/-! ### Well-formedness -/

theorem WF.insert {a b : ι} {F : Forest ι α} (h : F.WF) (r : List α) : (F.insert a b r).WF := by
  induction F generalizing r with
  | nil => simp [Forest.insert, WF, keys]
  | node id t leaf cs sib ihc ihs =>
    obtain ⟨h1, h2, h3, h4, h5⟩ := h
    refine insert_cases t r cs (fun hh => ?_) (fun hrt => ?_) (fun hh hne hf => ?_) (fun hh hne hf => ?_)
    · rw [insert_skip _ _ _ _ _ _ _ _ hh]
      refine ⟨h1, h2, ?_, h4, ihs h5 r⟩
      by_cases hm : r.head? ∈ sib.keys
      · rwa [(insert_of_mem hm).2]
      · rw [(insert_of_notMem hm).2.1, List.mem_append, not_or]
        exact ⟨h3, by simpa using hh⟩
    · subst hrt
      rw [insert_self]
      exact ⟨fun ht => ⟨rfl, (h1 ht).2⟩, .inl rfl, h3, h4, h5⟩
    · rw [insert_fork _ _ _ _ _ _ _ _ hh hne hf]
      have hpos := agree_pos hh (Ne.symm hne)
      have hlt := hf.1
      have hkey : (t.take (agree t r)).head? = t.head? := by
        cases t with
        | nil => simp at hpos
        | cons c t => rw [← Nat.succ_pred_eq_of_pos hpos]; rfl
      refine ⟨fun ht => ?_, .inr (by simp [width]), hkey ▸ h3, ⟨fun ht => ?_, h2, ?_, h4, ?_⟩, h5⟩
      · rw [List.take_eq_nil_iff] at ht
        rcases ht with h0 | h0
        · omega
        · simp [h0] at hlt
      · rw [List.drop_eq_nil_iff] at ht; omega
      · simpa [keys] using head?_drop_agree_ne (Ne.symm hne)
      · exact ⟨fun _ => ⟨rfl, rfl⟩, .inl rfl, by simp [keys], trivial, trivial⟩
    · rw [insert_down _ _ _ _ _ _ _ _ hh hne hf]
      refine ⟨fun ht => ?_, h2.imp_right fun h => h.trans (width_le_insert ..), h3, ihc h4 _, h5⟩
      -- an empty tail is followed by the empty word only, which is the tail itself
      subst ht
      cases r with
      | nil => exact absurd rfl hne
      | cons c r => simp at hh

theorem TailsLe.insert {a b : ι} {n : ℕ} {F : Forest ι α} (h : F.TailsLe n) {r : List α} (hr : r.length ≤ n) :
    (F.insert a b r).TailsLe n := by
  induction F generalizing r with
  | nil => exact ⟨hr, trivial, trivial⟩
  | node id t leaf cs sib ihc ihs =>
    obtain ⟨h1, h2, h3⟩ := h
    refine insert_cases t r cs (fun hh => ?_) (fun hrt => ?_) (fun hh hne hf => ?_) (fun hh hne hf => ?_)
    · rw [insert_skip _ _ _ _ _ _ _ _ hh]
      exact ⟨h1, h2, ihs h3 hr⟩
    · subst hrt
      rw [insert_self]
      exact ⟨h1, h2, h3⟩
    · rw [insert_fork _ _ _ _ _ _ _ _ hh hne hf]
      refine ⟨?_, ⟨?_, h2, ?_, trivial, trivial⟩, h3⟩
      · exact (List.length_take_le' _ _).trans h1
      · rw [List.length_drop]; omega
      · rw [List.length_drop]; omega
    · rw [insert_down _ _ _ _ _ _ _ _ hh hne hf]
      exact ⟨h1, ihc h2 (by rw [List.length_drop]; omega), h3⟩

/-! ### Words -/

/-- The words after an insertion: those before and the one it files. -/
theorem mem_words_insert {a b : ι} {r u w : List α} {F : Forest ι α} :
    w ∈ (F.insert a b r).words u ↔ w ∈ F.words u ∨ w = u ++ F.filed r := by
  induction F generalizing r u with
  | nil => simp [insert, words, filed]
  | node id t leaf cs sib ihc ihs =>
    refine insert_cases t r cs (fun hh => ?_) (fun hrt => ?_) (fun hh hne hf => ?_) (fun hh hne hf => ?_)
    · rw [insert_skip _ _ _ _ _ _ _ _ hh, mem_words_node, mem_words_node, ihs]
      simp only [filed, hh, if_false]
      tauto
    · subst hrt
      rw [insert_self, mem_words_node, mem_words_node]
      simp only [filed, if_true, true_and]
      tauto
    · rw [insert_fork _ _ _ _ _ _ _ _ hh hne hf]
      have ht : u ++ t.take (agree t r) ++ t.drop (agree t r) = u ++ t := by
        rw [List.append_assoc, List.take_append_drop]
      have hr : u ++ t.take (agree t r) ++ r.drop (agree t r) = u ++ r := by
        rw [List.append_assoc, take_agree_append_drop]
      simp only [words, filed, hh, hne, hf, if_true, if_false, ht, hr]
      simp
      tauto
    · rw [insert_down _ _ _ _ _ _ _ _ hh hne hf, mem_words_node, mem_words_node, ihc]
      simp only [filed, hh, hne, hf, if_true, if_false, List.append_assoc]
      tauto

/-- An insertion that does not stray stores its word. -/
theorem filed_of_not_strays {r : List α} {F : Forest ι α} (h : ¬ F.Strays r) : F.filed r = r := by
  induction F generalizing r with
  | nil => rfl
  | node id t leaf cs sib ihc ihs =>
    simp only [filed]
    split_ifs with hh hne hf
    · rfl
    · rfl
    · simp only [Strays, hh, if_true, not_and, not_or] at h
      obtain ⟨hlt, hs⟩ := h hne hf
      rw [ihc hs, drop_agree_of_length hlt]
    · exact ihs (by simpa [Strays, hh] using h)

/-- An insertion that strays stores another word. -/
theorem filed_ne_of_strays {r : List α} {F : Forest ι α} (h : F.Strays r) : F.filed r ≠ r := by
  induction F generalizing r with
  | nil => exact h.elim
  | node id t leaf cs sib ihc ihs =>
    simp only [filed]
    simp only [Strays] at h
    split_ifs at h ⊢ with hh hne hf
    · exact absurd hne h.1
    · exact absurd hf h.2.1
    · intro he
      have hp : t <+: r := he ▸ List.prefix_append _ _
      have hk := agree_eq_length_left_iff.mpr hp
      rcases h.2.2 with hlt | hs
      · omega
      · refine ihc hs (List.append_cancel_left (show t ++ _ = t ++ _ from ?_))
        rw [he, drop_agree_of_length (by omega)]
    · exact ihs h

theorem filed_eq_iff {r : List α} {F : Forest ι α} : F.filed r = r ↔ ¬ F.Strays r :=
  ⟨fun h hs => filed_ne_of_strays hs h, filed_of_not_strays⟩

/-- A stored word is inserted without straying, and nothing new is stored. -/
theorem not_strays_of_mem {r : List α} {F : Forest ι α} (h : F.WF) (hr : r ∈ F.words []) : ¬ F.Strays r := by
  induction F generalizing r with
  | nil => simp [words] at hr
  | node id t leaf cs sib ihc ihs =>
    obtain ⟨h1, -, h3, h4, h5⟩ := h
    simp only [Strays]
    rw [mem_words_node, List.nil_append] at hr
    split_ifs with hh
    · rintro ⟨hne, hf, hs⟩
      rcases hr with ⟨-, rfl⟩ | hr | hr
      · exact hne rfl
      · obtain ⟨x, hx, rfl⟩ := exists_of_mem_words hr
        have hk : agree t (t ++ x) = t.length := agree_eq_length_left_iff.mpr (List.prefix_append _ _)
        rw [hk, List.drop_left] at hs
        exact hs.elim (by omega) (ihc h4 hx)
      · exact h3 (hh ▸ h5.head?_mem_keys hr)
    · rcases hr with ⟨-, rfl⟩ | hr | hr
      · exact absurd rfl hh
      · obtain ⟨x, hx, rfl⟩ := exists_of_mem_words hr
        cases t with
        | nil => rw [(h1 rfl).2] at hx; simp [words] at hx
        | cons c t => exact absurd rfl hh
      · exact ihs h5 hr

end InfixSearch.Library.Forest
