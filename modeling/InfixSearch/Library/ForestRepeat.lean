import InfixSearch.Library.ForestInsert

/-!
# Inserting a word again

A word that is inserted a second time mostly finds its way to the leaf that the first
insertion left (`settled_insert`). The exception is a word that ended inside a tail
(`RunsOut`): the first insertion marks its end by a child with an empty tail, the second finds
that it ends with the upper half of the tail, and marks that node (`exists_leaf_raised`).
-/

namespace InfixSearch.Library.Forest

universe u v

variable {ι : Type u} {α : Type v} [DecidableEq α] {a b a' b' : ι}

/-- The insertion of `r` comes to a leaf, and changes nothing on the way. -/
def Settled : List α → Forest ι α → Prop
  | _, nil => False
  | r, node _ t leaf cs sib =>
    if t.head? = r.head? then (r = t ∧ leaf = true) ∨ (r ≠ t ∧ ¬ Forks t r cs ∧ cs.Settled (r.drop (agree t r)))
    else sib.Settled r

/-- The word `r` ends inside the tail of a node that has no child with an empty tail. -/
def RunsOut : List α → Forest ι α → Prop
  | _, nil => False
  | r, node _ t _ cs sib =>
    if t.head? = r.head? then
      r ≠ t ∧ ((r <+: t ∧ none ∉ cs.keys) ∨ (¬ Forks t r cs ∧ cs.RunsOut (r.drop (agree t r))))
    else sib.RunsOut r

theorem head?_mem_keys_of_settled {r : List α} {F : Forest ι α} (h : F.Settled r) : r.head? ∈ F.keys := by
  induction F with
  | nil => exact h.elim
  | node id t leaf cs sib _ ihs =>
    rw [Settled] at h
    rw [keys, List.mem_cons]
    split_ifs at h with hh
    · exact .inl hh.symm
    · exact .inr (ihs h)

theorem head?_mem_keys_of_runsOut {r : List α} {F : Forest ι α} (h : F.RunsOut r) : r.head? ∈ F.keys := by
  induction F with
  | nil => exact h.elim
  | node id t leaf cs sib _ ihs =>
    rw [RunsOut] at h
    rw [keys, List.mem_cons]
    split_ifs at h with hh
    · exact .inl hh.symm
    · exact .inr (ihs h)

/-- An insertion leaves it to be seen that the word does not fork. -/
theorem not_forks_insert {t r : List α} {cs : Forest ι α} (hf : ¬ Forks t r cs) :
    ¬ Forks t r (cs.insert a b (r.drop (agree t r))) := by
  rintro ⟨hlt, hkey⟩
  refine hf ⟨hlt, fun hm => hkey ?_⟩
  rwa [(insert_of_mem hm).2]

/-- The word parts from the upper half of a split tail at its end. -/
theorem agree_take_agree (t r : List α) : agree (t.take (agree t r)) r = agree t r := by
  have hlen : (t.take (agree t r)).length = agree t r := List.length_take_of_le (agree_le_left t r)
  have hp : t.take (agree t r) <+: r := by
    rw [take_agree]
    exact List.take_prefix _ _
  rw [agree_eq_length_left_iff.mpr hp, hlen]

theorem head?_take_agree {t r : List α} (hh : t.head? = r.head?) (hne : r ≠ t) : (t.take (agree t r)).head? = r.head? := by
  have hpos := agree_pos hh (Ne.symm hne)
  rw [← hh]
  cases t with
  | nil => simp at hpos
  | cons c t => rw [← Nat.succ_pred_eq_of_pos hpos]; rfl

/-- Of two words that agree to the end of one, that is the beginning of the other. -/
theorem drop_agree_eq_nil_iff {t r : List α} : r.drop (agree t r) = [] ↔ r <+: t := by
  rw [← agree_eq_length_right_iff, List.drop_eq_nil_iff]
  have := agree_le_right t r
  omega

/-- After the first insertion the second changes nothing, unless the word ended inside a tail. -/
theorem settled_insert {r : List α} {F : Forest ι α} (h : ¬ F.RunsOut r) : (F.insert a b r).Settled r := by
  induction F generalizing r with
  | nil => simp [insert, Settled]
  | node id t leaf cs sib ihc ihs =>
    rw [RunsOut] at h
    refine insert_cases t r cs (fun hh => ?_) (fun hrt => ?_) (fun hh hne hf => ?_) (fun hh hne hf => ?_)
    · rw [if_neg hh] at h
      rw [insert_skip _ _ _ _ _ _ _ _ hh, Settled, if_neg hh]
      exact ihs h
    · subst hrt
      rw [insert_self, Settled, if_pos rfl]
      exact .inl ⟨rfl, rfl⟩
    · -- the rest of the word is not empty, and is the tail of the new leaf
      have hrest : r.drop (agree t r) ≠ [] := by
        intro h0
        rw [if_pos hh] at h
        have hkey := hf.2
        rw [h0] at hkey
        exact h ⟨hne, .inl ⟨drop_agree_eq_nil_iff.mp h0, hkey⟩⟩
      have hhead := head?_drop_agree_ne (Ne.symm hne)
      rw [insert_fork _ _ _ _ _ _ _ _ hh hne hf, Settled, if_pos (head?_take_agree hh hne), agree_take_agree]
      refine .inr ⟨fun he => hrest ?_, fun hf' => ?_, ?_⟩
      · have := congrArg List.length he
        rw [List.length_take] at this
        rw [List.drop_eq_nil_iff]
        omega
      · have := hf'.1
        rw [agree_take_agree, List.length_take] at this
        omega
      · rw [Settled, if_neg hhead, Settled, if_pos rfl]
        exact .inl ⟨rfl, rfl⟩
    · rw [if_pos hh] at h
      rw [insert_down _ _ _ _ _ _ _ _ hh hne hf, Settled, if_pos hh]
      exact .inr ⟨hne, not_forks_insert hf, ihc fun hcs => h ⟨hne, .inr ⟨hf, hcs⟩⟩⟩

/-- The second insertion makes no child. -/
theorem room_insert (cap : ℕ) (r : List α) (F : Forest ι α) : (F.insert a b r).Room cap r := by
  induction F generalizing r with
  | nil => simp [insert, Room]
  | node id t leaf cs sib ihc ihs =>
    refine insert_cases t r cs (fun hh => ?_) (fun hrt => ?_) (fun hh hne hf => ?_) (fun hh hne hf => ?_)
    · rw [insert_skip _ _ _ _ _ _ _ _ hh, Room, if_neg hh]
      exact ihs r
    · subst hrt
      rw [insert_self, Room, if_pos rfl]
      exact .inl rfl
    · rw [insert_fork _ _ _ _ _ _ _ _ hh hne hf, Room, if_pos (head?_take_agree hh hne), agree_take_agree]
      refine .inr (.inr ⟨fun hkey => absurd ?_ hkey, ?_⟩)
      · simp [keys]
      · rw [Room, if_neg (head?_drop_agree_ne (Ne.symm hne)), Room, if_pos rfl]
        exact .inl rfl
    · rw [insert_down _ _ _ _ _ _ _ _ hh hne hf, Room, if_pos hh]
      refine .inr (.inr ⟨fun hkey => absurd ?_ hkey, ihc _⟩)
      by_cases hm : (r.drop (agree t r)).head? ∈ cs.keys
      · rwa [(insert_of_mem hm).2]
      · rw [(insert_of_notMem hm).2.1]
        simp

/-- A word that ended inside a tail marks another leaf the second time. -/
theorem exists_leaf_raised {r u : List α} {F : Forest ι α} (a b a' b' : ι) (h : F.RunsOut r) :
    ∃ S ∈ (F.insert a b r).sites u, S.leaf = false ∧
      ∃ S' ∈ ((F.insert a b r).insert a' b' r).sites u, S'.id = S.id ∧ S'.leaf = true := by
  induction F generalizing r u with
  | nil => exact h.elim
  | node id t leaf cs sib ihc ihs =>
    rw [RunsOut] at h
    split_ifs at h with hh
    · obtain ⟨hne, ⟨hp, hnone⟩ | ⟨hf, hcs⟩⟩ := h
      · -- the upper half of the tail is the word
        have hk : agree t r = r.length := agree_eq_length_right_iff.mpr hp
        have hlt : r.length < t.length := lt_of_le_of_ne hp.length_le fun he => hne (hp.eq_of_length he)
        have hf : Forks t r cs := by
          refine ⟨by omega, ?_⟩
          rw [drop_agree_eq_nil_iff.mpr hp]
          exact hnone
        have htake : t.take (agree t r) = r := by rw [take_agree, hk, List.take_length]
        rw [insert_fork _ _ _ _ _ _ _ _ hh hne hf, htake, insert_self]
        exact ⟨_, mem_sites_node.mpr (.inl rfl), rfl, _, mem_sites_node.mpr (.inl rfl), rfl, rfl⟩
      · obtain ⟨S, hS, hl, S', hS', he⟩ := ihc (u := u ++ t) hcs
        rw [insert_down _ _ _ _ _ _ _ _ hh hne hf, insert_down _ _ _ _ _ _ _ _ hh hne (not_forks_insert hf)]
        exact ⟨S, mem_sites_node.mpr (.inr (.inl hS)), hl, S', mem_sites_node.mpr (.inr (.inl hS')), he⟩
    · obtain ⟨S, hS, hl, S', hS', he⟩ := ihs (u := u) h
      rw [insert_skip _ _ _ _ _ _ _ _ hh, insert_skip _ _ _ _ _ _ _ _ hh]
      exact ⟨S, mem_sites_node.mpr (.inr (.inr hS)), hl, S', mem_sites_node.mpr (.inr (.inr hS')), he⟩

end InfixSearch.Library.Forest
