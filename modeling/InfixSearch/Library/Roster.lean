import Mathlib

/-!
# Rosters

Who is present is kept in a list: a name that joins comes last, unless it is there already,
and a name that leaves is taken out. After any history of such changes the names on the list
are those whose last change was to join, each once (`mem_roster`, `nodup_roster`), in the
order of the changes at which they came to be present (`roster_pairwise`).
-/

namespace InfixSearch.Library

variable {κ : Type*} [DecidableEq κ]

/-- Joining or leaving. -/
inductive Change (κ : Type*) where
  /-- `k` joins. -/
  | join (k : κ)
  /-- `k` leaves. -/
  | leave (k : κ)
  deriving DecidableEq

namespace Change

/-- Who joins or leaves. -/
def name : Change κ → κ
  | join k => k
  | leave k => k

/-- What a change does to the list. -/
def apply (ks : List κ) : Change κ → List κ
  | join k => if k ∈ ks then ks else ks ++ [k]
  | leave k => ks.filter (· ≠ k)

end Change

variable {cs : List (Change κ)} {c : Change κ} {k : κ} {i j : ℕ}

/-- The list after a history of changes. -/
def roster (cs : List (Change κ)) : List κ := cs.foldl Change.apply []

/-- The last change that names `k` was to join. -/
def Joined (cs : List (Change κ)) (k : κ) : Prop := (cs.filter (·.name = k)).getLast? = some (.join k)

instance : Decidable (Joined cs k) := inferInstanceAs (Decidable (_ = _))

/-- At the change `i` the name `k` came to be present, and it did not leave since. -/
structure Starts (cs : List (Change κ)) (k : κ) (i : ℕ) : Prop where
  /-- It joined. -/
  join : cs[i]? = some (.join k)
  /-- It was not present. -/
  absent : ¬ Joined (cs.take i) k
  /-- It did not leave. -/
  stays : ∀ j, i < j → cs[j]? ≠ some (.leave k)

theorem roster_concat (cs : List (Change κ)) (c : Change κ) : roster (cs ++ [c]) = c.apply (roster cs) := by
  simp only [roster, List.foldl_append, List.foldl_cons, List.foldl_nil]

theorem not_joined_nil : ¬ Joined [] k := by simp [Joined]

theorem joined_concat : Joined (cs ++ [c]) k ↔ if c.name = k then c = .join k else Joined cs k := by
  by_cases h : c.name = k
  · simp [Joined, List.filter_append, h]
  · simp [Joined, List.filter_append, h]

/-! ### Who is on the list -/

/-- The names on the list are those whose last change was to join. -/
theorem mem_roster : k ∈ roster cs ↔ Joined cs k := by
  induction cs using List.reverseRecOn with
  | nil => simp [roster, not_joined_nil]
  | append_singleton cs c ih =>
    rw [roster_concat, joined_concat, ← ih]
    cases c with
    | join k' =>
      by_cases hk : k' = k
      · subst hk
        by_cases hmem : k' ∈ roster cs
        · simp [Change.apply, Change.name, hmem]
        · simp [Change.apply, Change.name, hmem]
      · by_cases hmem : k' ∈ roster cs
        · simp [Change.apply, Change.name, hk, hmem]
        · simp [Change.apply, Change.name, hk, hmem, Ne.symm hk]
    | leave k' =>
      by_cases hk : k' = k
      · simp [Change.apply, Change.name, hk]
      · simp [Change.apply, Change.name, hk, Ne.symm hk]

theorem nodup_roster (cs : List (Change κ)) : (roster cs).Nodup := by
  induction cs using List.reverseRecOn with
  | nil => exact List.nodup_nil
  | append_singleton cs c ih =>
    rw [roster_concat]
    cases c with
    | join k =>
      rw [Change.apply]
      split_ifs with hmem
      · exact ih
      · rw [← List.concat_eq_append]
        exact ih.concat hmem
    | leave k => exact ih.filter _

theorem count_roster [BEq κ] [LawfulBEq κ] (cs : List (Change κ)) (k : κ) :
    (roster cs).count k = if Joined cs k then 1 else 0 := by
  by_cases h : Joined cs k
  · rw [if_pos h]
    exact List.count_eq_one_of_mem (nodup_roster cs) (mem_roster.mpr h)
  · rw [if_neg h]
    exact List.count_eq_zero_of_not_mem (mt mem_roster.mp h)

/-! ### In which order -/

namespace Starts

theorem lt (h : Starts cs k i) : i < cs.length := (List.getElem?_eq_some_iff.mp h.join).1

/-- Who came to be present stays so until it leaves. -/
theorem concat (h : Starts cs k i) (hc : c ≠ .leave k) : Starts (cs ++ [c]) k i where
  join := by rw [List.getElem?_append_left h.lt, h.join]
  absent := by rw [List.take_append_of_le_length h.lt.le]; exact h.absent
  stays j hj := by
    rcases lt_trichotomy j cs.length with hlt | rfl | hgt
    · rw [List.getElem?_append_left hlt]
      exact h.stays j hj
    · simpa using hc
    · rw [List.getElem?_eq_none (by simp; omega)]
      exact nofun

/-- Who was not present comes to be. -/
theorem last (h : ¬ Joined cs k) : Starts (cs ++ [.join k]) k cs.length where
  join := by simp
  absent := by simpa using h
  stays j hj := by
    rw [List.getElem?_eq_none (by simp; omega)]
    exact nofun

end Starts

/-- Who is present came to be so at some change. -/
theorem exists_starts (h : Joined cs k) : ∃ i, Starts cs k i := by
  induction cs using List.reverseRecOn with
  | nil => exact absurd h not_joined_nil
  | append_singleton cs c ih =>
    rw [joined_concat] at h
    split_ifs at h with hname
    · subst h
      by_cases hjoined : Joined cs k
      · obtain ⟨i, hi⟩ := ih hjoined
        exact ⟨i, hi.concat nofun⟩
      · exact ⟨_, .last hjoined⟩
    · obtain ⟨i, hi⟩ := ih h
      refine ⟨i, hi.concat ?_⟩
      rintro rfl
      exact hname rfl

/-- Who came to be present, and did not leave, is present. -/
theorem Starts.joined (h : Starts cs k i) (hj : i < j) : Joined (cs.take j) k := by
  induction j with
  | zero => omega
  | succ j ih =>
    by_cases hlt : j < cs.length
    · rw [List.take_succ_eq_append_getElem hlt, joined_concat]
      rcases Nat.lt_succ_iff_lt_or_eq.mp hj with hij | rfl
      · have hne := h.stays j hij
        rw [List.getElem?_eq_getElem hlt] at hne
        split_ifs with hname
        · cases hc : cs[j] with
          | join k' => rw [hc] at hname; exact congrArg Change.join hname
          | leave k' => rw [hc] at hname hne; exact absurd (congrArg (some ∘ Change.leave) hname) hne
        · exact ih hij
      · have hjoin := h.join
        rw [List.getElem?_eq_getElem hlt] at hjoin
        rw [Option.some.inj hjoin]
        exact (if_pos rfl).mpr rfl
    · rw [List.take_of_length_le (by omega)]
      rw [List.take_of_length_le (by omega)] at ih
      exact ih (by have := h.lt; omega)

/-- It did so at one change only. -/
theorem Starts.unique (hi : Starts cs k i) (hj : Starts cs k j) : i = j := by
  rcases lt_trichotomy i j with hlt | rfl | hgt
  · exact absurd (hi.joined hlt) hj.absent
  · rfl
  · exact absurd (hj.joined hgt) hi.absent

/-- **The order of the list**: who came to be present earlier comes before. -/
theorem roster_pairwise (cs : List (Change κ)) :
    (roster cs).Pairwise fun k l => ∃ i j, Starts cs k i ∧ Starts cs l j ∧ i < j := by
  induction cs using List.reverseRecOn with
  | nil => exact .nil
  | append_singleton cs c ih =>
    rw [roster_concat]
    cases c with
    | join k =>
      have hkeep : (roster cs).Pairwise fun k' l =>
          ∃ i j, Starts (cs ++ [.join k]) k' i ∧ Starts (cs ++ [.join k]) l j ∧ i < j := by
        refine ih.imp ?_
        rintro k' l ⟨i, j, hi, hj, hlt⟩
        exact ⟨i, j, hi.concat nofun, hj.concat nofun, hlt⟩
      rw [Change.apply]
      split_ifs with hmem
      · exact hkeep
      · rw [List.pairwise_append]
        refine ⟨hkeep, List.pairwise_singleton _ _, ?_⟩
        intro k' hk' l hl
        obtain rfl := List.mem_singleton.mp hl
        obtain ⟨i, hi⟩ := exists_starts (mem_roster.mp hk')
        exact ⟨i, cs.length, hi.concat nofun, .last (mt mem_roster.mpr hmem), hi.lt⟩
    | leave k =>
      rw [Change.apply]
      refine (ih.filter _).imp_of_mem ?_
      rintro k' l hk' hl ⟨i, j, hi, hj, hlt⟩
      have hk'ne : k' ≠ k := by simpa using List.of_mem_filter hk'
      have hlne : l ≠ k := by simpa using List.of_mem_filter hl
      exact ⟨i, j, hi.concat fun h => hk'ne (Change.leave.inj h).symm, hj.concat fun h => hlne (Change.leave.inj h).symm, hlt⟩

end InfixSearch.Library
