import Mathlib

/-!
# How far two words agree

`agree t r` is the length of the longest common prefix of `t` and `r`: where a
loop that compares them symbol by symbol stops.
-/

namespace InfixSearch.Library

universe u

variable {α : Type u} [DecidableEq α]

/-- The length of the longest common prefix. -/
def agree : List α → List α → ℕ
  | a :: t, b :: r => if a = b then agree t r + 1 else 0
  | _, _ => 0

@[simp] theorem agree_nil_left (r : List α) : agree [] r = 0 := by simp [agree]

@[simp] theorem agree_nil_right (t : List α) : agree t [] = 0 := by cases t <;> simp [agree]

theorem agree_le_left (t r : List α) : agree t r ≤ t.length := by
  induction t generalizing r with
  | nil => simp
  | cons a t ih =>
    cases r with
    | nil => simp
    | cons b r =>
      simp only [agree]
      split_ifs
      · simpa using ih r
      · simp

theorem agree_le_right (t r : List α) : agree t r ≤ r.length := by
  induction t generalizing r with
  | nil => simp
  | cons a t ih =>
    cases r with
    | nil => simp
    | cons b r =>
      simp only [agree]
      split_ifs
      · simpa using ih r
      · simp

theorem take_agree (t r : List α) : t.take (agree t r) = r.take (agree t r) := by
  induction t generalizing r with
  | nil => simp
  | cons a t ih =>
    cases r with
    | nil => simp
    | cons b r =>
      simp only [agree]
      split_ifs with h
      · simp [h, ih r]
      · simp

theorem take_agree_append_drop (t r : List α) : t.take (agree t r) ++ r.drop (agree t r) = r := by
  rw [take_agree, List.take_append_drop]

/-- The words part after the symbols they agree on. -/
theorem head?_drop_agree_ne {t r : List α} (h : t ≠ r) :
    (t.drop (agree t r)).head? ≠ (r.drop (agree t r)).head? := by
  induction t generalizing r with
  | nil => cases r with
    | nil => exact absurd rfl h
    | cons b r => simp
  | cons a t ih =>
    cases r with
    | nil => simp
    | cons b r =>
      simp only [agree]
      split_ifs with hab
      · subst hab
        exact ih fun he => h (by rw [he])
      · simpa using hab

theorem agree_eq_length_left_iff {t r : List α} : agree t r = t.length ↔ t <+: r := by
  constructor
  · intro h
    have := take_agree t r
    rw [h, List.take_length] at this
    exact this ▸ List.take_prefix _ _
  · rintro ⟨s, rfl⟩
    induction t with
    | nil => simp
    | cons a t ih => simpa [agree] using ih

@[simp] theorem agree_self (t : List α) : agree t t = t.length := agree_eq_length_left_iff.mpr List.prefix_rfl

theorem agree_eq_length_right_iff {t r : List α} : agree t r = r.length ↔ r <+: t := by
  constructor
  · intro h
    have := take_agree t r
    rw [h, List.take_length] at this
    exact this ▸ List.take_prefix _ _
  · rintro ⟨s, rfl⟩
    induction r with
    | nil => simp
    | cons a r ih => simpa [agree] using ih

/-- Different words with the same first symbol agree on it. -/
theorem agree_pos {t r : List α} (h : t.head? = r.head?) (hne : t ≠ r) : 0 < agree t r := by
  cases t with
  | nil =>
    cases r with
    | nil => exact absurd rfl hne
    | cons b r => simp at h
  | cons a t =>
    cases r with
    | nil => simp at h
    | cons b r =>
      simp only [List.head?_cons, Option.some.injEq] at h
      simp [agree, h]

/-- Words with different first symbols do not agree. -/
theorem agree_eq_zero {t r : List α} (h : t.head? ≠ r.head?) : agree t r = 0 := by
  cases t with
  | nil => simp
  | cons a t =>
    cases r with
    | nil => simp
    | cons b r =>
      have hab : a ≠ b := fun he => h (by rw [he]; rfl)
      simp [agree, hab]

theorem drop_agree_of_length {t r : List α} (h : ¬ agree t r < t.length) : t ++ r.drop (agree t r) = r := by
  have hk : agree t r = t.length := le_antisymm (agree_le_left t r) (Nat.le_of_not_lt h)
  have := take_agree_append_drop t r
  rwa [hk, List.take_length, ← hk] at this

/-- Reading on past what agrees stays inside the word. -/
theorem add_agree_le {t w : List α} {i : ℕ} (hi : i ≤ w.length) : i + agree t (w.drop i) ≤ w.length := by
  have hle := agree_le_right t (w.drop i)
  rw [List.length_drop] at hle
  omega

/-- Where a word goes on as a different tail starts there is something to read on past. -/
theorem agree_bounds {t w : List α} {i : ℕ} (hh : t.head? = (w.drop i).head?) (hne : w.drop i ≠ t) :
    0 < agree t (w.drop i) ∧ i + agree t (w.drop i) ≤ w.length := by
  have hpos := agree_pos hh hne.symm
  have hle := agree_le_right t (w.drop i)
  rw [List.length_drop] at hle
  exact ⟨hpos, by omega⟩

/-- A word read from position `i` and a tail end together only if they are the same. -/
theorem agree_ends_iff {t w : List α} {i : ℕ} (hi : i ≤ w.length) :
    i + agree t (w.drop i) = w.length ∧ agree t (w.drop i) = t.length ↔ w.drop i = t := by
  constructor
  · rintro ⟨h₁, h₂⟩
    refine (List.IsPrefix.eq_of_length (agree_eq_length_left_iff.mp h₂) ?_).symm
    rw [List.length_drop]
    omega
  · rintro rfl
    rw [agree_self, List.length_drop]
    omega

end InfixSearch.Library
