import Mathlib

/-!
# The fields of a text

A text is split at a separator, and fields are joined with one in between. `splitOn` and
`intercalate` undo each other, but a split that leaves out the empty fields at the end loses
the separators there: what stands behind the first separator is what the other fields are
joined to, if and only if it does not end with a separator and there is a field at all
(`fields_cons_iff`).
-/

namespace InfixSearch.Library

variable {α : Type*} [DecidableEq α] {sep : α} {s k v : List α}

/-- The fields of a text, without the empty ones at the end; all of the text, if the separator does not occur in it. -/
def fields (sep : α) (s : List α) : List (List α) :=
  if sep ∈ s then (s.splitOn sep).rdropWhile List.isEmpty else [s]

/-- There is no separator in a field. -/
theorem not_mem_of_mem_splitOn {f : List α} (h : f ∈ s.splitOn sep) : sep ∉ f := by
  induction s generalizing f with
  | nil =>
    obtain rfl := List.mem_singleton.mp h
    exact List.not_mem_nil
  | cons c s ih =>
    rw [List.splitOn_cons_eq_if_modifyHead] at h
    split_ifs at h with hc
    · rcases List.mem_cons.mp h with rfl | h
      · exact List.not_mem_nil
      · exact ih h
    · obtain ⟨f', fs, hfs⟩ := List.exists_cons_of_ne_nil (List.splitOn_ne_nil sep s)
      rw [hfs] at h ih
      rcases List.mem_cons.mp h with rfl | h
      · have hf' := ih List.mem_cons_self
        simp only [List.mem_cons, not_or]
        exact ⟨fun he => hc (by simp [he]), hf'⟩
      · exact ih (List.mem_cons_of_mem _ h)

omit [DecidableEq α] in
theorem intercalate_concat_nil {ls : List (List α)} (h : ls ≠ []) :
    [sep].intercalate (ls ++ [[]]) = [sep].intercalate ls ++ [sep] := by
  induction ls with
  | nil => exact absurd rfl h
  | cons l ls ih =>
    cases ls with
    | nil => simp
    | cons l' ls =>
      have h' := ih (List.cons_ne_nil _ _)
      rw [List.cons_append] at h'
      rw [List.cons_append, List.cons_append, List.intercalate_cons_cons, h', List.intercalate_cons_cons,
        List.append_assoc _ _ [sep]]

/-- The last field is empty if the text is, or ends with a separator. -/
theorem getLast_splitOn_eq_nil_iff :
    (s.splitOn sep).getLast (List.splitOn_ne_nil sep s) = [] ↔ s = [] ∨ [sep] <:+ s := by
  constructor
  · intro hlast
    have hsplit := List.dropLast_append_getLast (List.splitOn_ne_nil sep s)
    have hs : [sep].intercalate (s.splitOn sep) = s := List.intercalate_splitOn sep
    rw [← hsplit, hlast] at hs
    by_cases hne : (s.splitOn sep).dropLast = []
    · rw [hne] at hs
      exact .inl hs.symm
    · rw [intercalate_concat_nil hne] at hs
      exact .inr ⟨_, hs⟩
  · rintro (rfl | ⟨t, rfl⟩)
    · simp
    · simp [List.splitOn_append_cons_self t []]

theorem fields_cons (hk : sep ∉ k) : fields sep (k ++ sep :: v) = (k :: v.splitOn sep).rdropWhile List.isEmpty := by
  rw [fields, if_pos (by simp), List.splitOn_append_cons_self_of_not_mem hk]

theorem not_mem_of_mem_fields {f : List α} (h : f ∈ fields sep s) : sep ∉ f := by
  rw [fields] at h
  split_ifs at h with hsep
  · exact not_mem_of_mem_splitOn ((List.rdropWhile_prefix List.isEmpty (s.splitOn sep)).subset h)
  · exact List.mem_singleton.mp h ▸ hsep

/-- No field is left out if the last one is not empty. -/
theorem fields_cons_eq_iff (hk : sep ∉ k) :
    fields sep (k ++ sep :: v) = k :: v.splitOn sep ↔ v ≠ [] ∧ ¬ [sep] <:+ v := by
  have hlast : (k :: v.splitOn sep).getLast (List.cons_ne_nil _ _) = (v.splitOn sep).getLast (List.splitOn_ne_nil sep v) :=
    List.getLast_cons _
  rw [fields_cons hk, List.rdropWhile_eq_self_iff, ← not_or, ← getLast_splitOn_eq_nil_iff, ← hlast]
  simp only [List.isEmpty_iff, ne_eq, reduceCtorEq, not_false_eq_true, forall_true_left]

/-- **What the fields are joined to**: the first of them is `k` and the others are joined to `v`,
if and only if `v` does not end with a separator and not both are empty. -/
theorem fields_cons_iff (hk : sep ∉ k) :
    (∃ fs, fields sep (k ++ sep :: v) = k :: fs ∧ [sep].intercalate fs = v) ↔
      ¬ [sep] <:+ v ∧ (k ≠ [] ∨ v ≠ []) := by
  constructor
  · rintro ⟨fs, hfs, hv⟩
    rcases eq_or_ne fs [] with rfl | hne
    · obtain rfl : v = [] := hv.symm
      rw [fields_cons hk] at hfs
      have hlast := List.rdropWhile_last_not List.isEmpty (k :: List.splitOn sep []) (by rw [hfs]; exact List.cons_ne_nil _ _)
      simp only [hfs, List.getLast_singleton, List.isEmpty_iff] at hlast
      exact ⟨by simp, .inl hlast⟩
    · -- the fields that are left stand among those of `v`, and have no separator in them
      have hpre : fs <+: v.splitOn sep := by
        have h := List.rdropWhile_prefix List.isEmpty (k :: v.splitOn sep)
        rw [← fields_cons hk, hfs] at h
        exact (List.prefix_cons_inj k).mp h
      have hall := List.splitOn_intercalate sep (fun f hf => not_mem_of_mem_splitOn (hpre.subset hf)) hne
      rw [hv] at hall
      obtain ⟨hvne, hsuffix⟩ := (fields_cons_eq_iff hk).mp (hall ▸ hfs)
      exact ⟨hsuffix, .inr hvne⟩
  · rintro ⟨hsuffix, hne⟩
    rcases eq_or_ne v [] with rfl | hvne
    · have hkne := hne.resolve_right (not_not.mpr rfl)
      refine ⟨[], ?_, rfl⟩
      rw [fields_cons hk, List.splitOn_nil, ← List.singleton_append, List.rdropWhile_concat_pos _ _ _ (by rfl),
        List.rdropWhile_singleton, if_neg (by simpa using hkne)]
    · exact ⟨v.splitOn sep, (fields_cons_eq_iff hk).mpr ⟨hvne, hsuffix⟩, List.intercalate_splitOn sep⟩

/-- What the fields but the first are joined to does not end with a separator. -/
theorem not_suffix_intercalate {fs : List (List α)} (h : fields sep s = k :: fs) : ¬ [sep] <:+ [sep].intercalate fs := by
  rcases eq_or_ne fs [] with rfl | hne
  · simp
  · have hsplit : ([sep].intercalate fs).splitOn sep = fs :=
      List.splitOn_intercalate sep (fun f hf => not_mem_of_mem_fields (h ▸ List.mem_cons_of_mem _ hf)) hne
    have hlast : fs.getLast hne ≠ [] := by
      rw [fields] at h
      split_ifs at h with hsep
      · have hnot := List.rdropWhile_last_not List.isEmpty (s.splitOn sep) (by rw [h]; exact List.cons_ne_nil _ _)
        simpa only [h, List.getLast_cons hne, List.isEmpty_iff] using hnot
      · exact absurd (List.cons.inj h).2.symm hne
    intro hsuffix
    have hnil := getLast_splitOn_eq_nil_iff.mpr (.inr hsuffix)
    simp only [hsplit] at hnil
    exact hlast hnil

end InfixSearch.Library
