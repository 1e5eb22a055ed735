import InfixSearch.Library.Block
import InfixSearch.Library.Fields
import InfixSearch.Library.Run

/-!
# The sort job

The Hadoop job `Sorter` sorts the dictionary by its first column. Its record reader cuts
each line twice: `extractKey` splits it at tabs and takes the first part, `extractValue`
splits it at `Constants.FIELD_DELIM` and joins the other parts. The records are sorted and
written back, each as its key, a tab and its value.

`String.split` leaves out empty strings at the end, so that a line is written back as it was
if and only if it has a tab, is not just that, and what follows its first tab does not end
with one (`extract_iff`). What is written is always such a line, or else just a tab, of which
there is no key: the job writes the lines that it read if and only if all are such lines
(`written_iff`).

A `Text` is modelled by the string that `toString` makes of it. `StringUtils.join` is a
parameter, of which what its documentation says is used (`Joins`).
-/

namespace InfixSearch

open Library

/-- A `char` of Java. -/
abbrev JChar := UInt16

/-- A `String` of Java. -/
abbrev JString := List JChar

/-- A string literal. -/
def jstring (s : String) : JString := s.toList.map fun c => UInt16.ofNat c.toNat

/-- `'\t'`. -/
def tab : JChar := 9

/-- What is thrown. -/
inductive JavaException where
  /-- `ArrayIndexOutOfBoundsException`. -/
  | arrayIndexOutOfBounds
  deriving DecidableEq

/-- `split`, at a character that stands for itself in a regular expression. -/
def split (s : JString) (delim : JChar) : List JString := fields delim s

/-- What `StringUtils.join` is documented to do: the strings of the array from `startIndex` up to `endIndex`, without
that one, are joined, with the separator in between. -/
def Joins (join : List JString → JString → ℕ → ℕ → JString) : Prop :=
  ∀ array separator startIndex endIndex, endIndex ≤ array.length →
    join array separator startIndex endIndex = separator.intercalate ((array.take endIndex).drop startIndex)

/-- `extractKey`. -/
def extractKey (value : JString) : Except JavaException JString :=
  match split value tab with
  | [] => throw .arrayIndexOutOfBounds
  | part :: _ => pure part

/-- `extractValue`; `join` is `StringUtils.join`, and `fieldDelim` is `Constants.FIELD_DELIM`. -/
def extractValue (join : List JString → JString → ℕ → ℕ → JString) (fieldDelim : JChar) (value : JString) : JString :=
  let tokens := split value fieldDelim
  join tokens [fieldDelim] 1 tokens.length

/-! ### One line -/

variable {join : List JString → JString → ℕ → ℕ → JString} {line : JString} {fieldDelim : JChar}

/-- What precedes the first tab. -/
def beforeTab (line : JString) : JString := line.takeWhile (· ≠ tab)

/-- What follows the first tab. -/
def afterTab (line : JString) : JString := (line.dropWhile (· ≠ tab)).tail

theorem not_mem_beforeTab : tab ∉ beforeTab line := by
  intro h
  simpa using List.mem_takeWhile_imp h

theorem beforeTab_append (h : tab ∈ line) : beforeTab line ++ tab :: afterTab line = line := by
  have hne : line.dropWhile (· ≠ tab) ≠ [] := by
    rw [ne_eq, List.dropWhile_eq_nil_iff]
    intro hall
    simpa using hall tab h
  have hcons : tab :: afterTab line = line.dropWhile (· ≠ tab) := by
    have hhead := List.head_dropWhile_not (· ≠ tab) hne
    rw [decide_eq_false_iff_not, not_not] at hhead
    calc tab :: afterTab line = (line.dropWhile (· ≠ tab)).head hne :: afterTab line := by rw [hhead]
      _ = line.dropWhile (· ≠ tab) := List.cons_head_tail hne
  rw [hcons]
  exact List.takeWhile_append_dropWhile

theorem afterTab_of_append {key value : JString} (h : tab ∉ key) : afterTab (key ++ tab :: value) = value := by
  have hall : ∀ c ∈ key, decide (c ≠ tab) = true := fun c hc => decide_eq_true (ne_of_mem_of_not_mem hc h)
  rw [afterTab, List.dropWhile_append_of_pos hall, List.dropWhile_cons_of_neg (by simp), List.tail_cons]

/-- Key and value are the first field and what the others are joined to. -/
theorem extract_eq_iff (hjoin : Joins join) {key value : JString} :
    extractKey line = .ok key ∧ extractValue join tab line = value ↔
      ∃ fs, fields tab line = key :: fs ∧ [tab].intercalate fs = value := by
  rw [extractKey, extractValue, split]
  cases fields tab line with
  | nil => simp
  | cons f fs =>
    have hrest := hjoin (f :: fs) [tab] 1 (f :: fs).length le_rfl
    rw [List.take_length, List.drop_one, List.tail_cons] at hrest
    simp only [hrest, pure_ok, Except.ok.injEq, List.cons.injEq]
    constructor
    · rintro ⟨rfl, hvalue⟩
      exact ⟨fs, ⟨rfl, rfl⟩, hvalue⟩
    · rintro ⟨_, ⟨rfl, rfl⟩, hvalue⟩
      exact ⟨rfl, hvalue⟩

/-- Of a line that is just a tab there is no key. -/
theorem extractKey_tab : extractKey [tab] = .error .arrayIndexOutOfBounds := by
  decide

/-- A line that is cut at its first tab. -/
theorem extract_tab_iff (hjoin : Joins join) (htab : tab ∈ line) :
    extractKey line = .ok (beforeTab line) ∧ extractValue join tab line = afterTab line ↔
      line ≠ [tab] ∧ ¬ [tab] <:+ afterTab line := by
  have hne : line ≠ [tab] ↔ beforeTab line ≠ [] ∨ afterTab line ≠ [] := by
    rw [← not_and_or, not_iff_not]
    constructor
    · rintro rfl
      exact ⟨rfl, rfl⟩
    · rintro ⟨hbefore, hafter⟩
      rw [← beforeTab_append htab, hbefore, hafter, List.nil_append]
  have hfields := fields_cons_iff (v := afterTab line) (show tab ∉ beforeTab line from not_mem_beforeTab)
  rw [beforeTab_append htab] at hfields
  rw [extract_eq_iff hjoin, hfields, hne, and_comm]

/-- **What the record reader keeps.** Of a line with a tab, the key is what precedes the first
tab, and key, tab and value make up the line, if and only if the line is not just a tab and what
follows its first tab does not end with one. -/
theorem extract_iff (hjoin : Joins join) (hdelim : fieldDelim = tab) (htab : tab ∈ line) :
    extractKey line = .ok (beforeTab line) ∧ beforeTab line ++ tab :: extractValue join fieldDelim line = line ↔
      line ≠ [tab] ∧ ¬ [tab] <:+ afterTab line := by
  have hvalue : beforeTab line ++ tab :: extractValue join tab line = line ↔ extractValue join tab line = afterTab line := by
    constructor
    · intro h
      have hcons := List.append_cancel_left (h.trans (beforeTab_append htab).symm)
      exact (List.cons.inj hcons).2
    · intro h
      rw [h, beforeTab_append htab]
  rw [hdelim, hvalue, extract_tab_iff hjoin htab]

/-- A `join` as documented. -/
def joinRange (array : List JString) (separator : JString) (startIndex endIndex : ℕ) : JString :=
  separator.intercalate ((array.take endIndex).drop startIndex)

theorem joins_joinRange : Joins joinRange := fun _ _ _ _ _ => rfl

/-- A line of three columns, of which the second is empty. -/
theorem extract_iff_abc : extractKey (jstring "a\t\tc") = .ok (beforeTab (jstring "a\t\tc")) ∧
      beforeTab (jstring "a\t\tc") ++ tab :: extractValue joinRange tab (jstring "a\t\tc") = jstring "a\t\tc" ↔
    jstring "a\t\tc" ≠ [tab] ∧ ¬ [tab] <:+ afterTab (jstring "a\t\tc") :=
  extract_iff joins_joinRange rfl (by decide)

/-- A line whose last column is empty is not kept, and of a line that is just a tab there is no key. -/
theorem not_extract_ab : tab ∈ jstring "a\tb\t" ∧
    ¬ (extractKey (jstring "a\tb\t") = .ok (beforeTab (jstring "a\tb\t")) ∧
      beforeTab (jstring "a\tb\t") ++ tab :: extractValue joinRange tab (jstring "a\tb\t") = jstring "a\tb\t") ∧
    extractKey (jstring "\t") = .error .arrayIndexOutOfBounds := by
  decide

/-! ### All lines -/

/-- `SortRecordReader`. -/
structure SortRecordReader where
  /-- `reader`: the lines that it has not read yet. -/
  reader : List JString
  /-- `currentKey`. -/
  currentKey : JString
  /-- `currentValue`. -/
  currentValue : JString

namespace SortRecordReader

/-- The constructor. -/
def construct (reader : List JString) : SortRecordReader := ⟨reader, [], []⟩

/-- `nextKeyValue`. -/
def nextKeyValue (join : List JString → JString → ℕ → ℕ → JString) (fieldDelim : JChar) (r : SortRecordReader) :
    Except JavaException (Bool × SortRecordReader) :=
  match r.reader with
  | [] => pure (false, r)
  | line :: rest => do
    let key ← extractKey line
    pure (true, ⟨rest, key, extractValue join fieldDelim line⟩)

section
variable (join : List JString → JString → ℕ → ℕ → JString) (fieldDelim : JChar)

/-- A record is read: the current key and value after `nextKeyValue`. -/
def Next (r : SortRecordReader) (record : JString × JString) (r' : SortRecordReader) : Prop :=
  r.nextKeyValue join fieldDelim = .ok (true, r') ∧ record = (r'.currentKey, r'.currentValue)

/-- All records are read. -/
def ReadsAll (r : SortRecordReader) (records : List (JString × JString)) : Prop :=
  ∃ r', Run (Next join fieldDelim) r records r' ∧ r'.nextKeyValue join fieldDelim = .ok (false, r')

/-- The record of a line. -/
def Record (line : JString) (record : JString × JString) : Prop :=
  extractKey line = .ok record.1 ∧ extractValue join fieldDelim line = record.2

end

/-- A record as it is written. -/
def written (record : JString × JString) : JString := record.1 ++ tab :: record.2

/-- A line that is written back as it was. -/
def Kept (line : JString) : Prop := tab ∈ line ∧ line ≠ [tab] ∧ ¬ [tab] <:+ afterTab line

variable {r r' : SortRecordReader} {records : List (JString × JString)} {record : JString × JString}

/-- Reading the next record of a line. -/
theorem next_iff {rest : List JString} (h : r.reader = line :: rest) :
    Next join fieldDelim r record r' ↔ Record join fieldDelim line record ∧ r' = ⟨rest, record.1, record.2⟩ := by
  obtain ⟨key, value⟩ := record
  simp only [Next, nextKeyValue, Record, h]
  cases extractKey line with
  | error e => simp
  | ok key' =>
    simp only [ok_bind, pure_ok, Except.ok.injEq, Prod.mk.injEq, true_and]
    constructor
    · rintro ⟨rfl, rfl, rfl⟩
      exact ⟨⟨rfl, rfl⟩, rfl⟩
    · rintro ⟨⟨rfl, rfl⟩, rfl⟩
      exact ⟨rfl, rfl, rfl⟩

/-- All records are read: one of every line. -/
theorem readsAll_iff : r.ReadsAll join fieldDelim records ↔ List.Forall₂ (Record join fieldDelim) r.reader records := by
  generalize hlines : r.reader = lines
  induction lines generalizing r records with
  | nil =>
    rw [List.forall₂_nil_left_iff]
    constructor
    · rintro ⟨r', hrun, -⟩
      cases hrun with
      | nil => rfl
      | cons hnext hrun => simp [Next, nextKeyValue, hlines] at hnext
    · rintro rfl
      exact ⟨r, .nil, by rw [nextKeyValue, hlines]; rfl⟩
  | cons line lines ih =>
    rw [List.forall₂_cons_left_iff]
    constructor
    · rintro ⟨r', hrun, hend⟩
      cases hrun with
      | nil =>
        rw [nextKeyValue, hlines] at hend
        cases hkey : extractKey line <;> simp [hkey] at hend
      | cons hnext hrun =>
        obtain ⟨hrecord, rfl⟩ := (next_iff hlines).mp hnext
        exact ⟨_, _, hrecord, (ih rfl).mp ⟨r', hrun, hend⟩, rfl⟩
    · rintro ⟨record, records, hrecord, hrecords, rfl⟩
      obtain ⟨r', hrun, hend⟩ := (ih (r := ⟨lines, record.1, record.2⟩) rfl).mpr hrecords
      exact ⟨r', .cons ((next_iff hlines).mpr ⟨hrecord, rfl⟩) hrun, hend⟩

/-- The record of a line that is kept is written as the line that it was read from. -/
theorem Kept.record_written (hjoin : Joins join) (h : Kept line) :
    Record join tab line (beforeTab line, afterTab line) ∧ written (beforeTab line, afterTab line) = line :=
  ⟨(extract_tab_iff hjoin h.1).mpr h.2, beforeTab_append h.1⟩

/-- What is written of any line is a line that is kept, or just a tab. -/
theorem Record.written_kept (hjoin : Joins join) (h : Record join tab line record) :
    Kept (written record) ∨ written record = [tab] := by
  obtain ⟨fs, hfs, hvalue⟩ := (extract_eq_iff hjoin).mp h
  have hkey : tab ∉ record.1 := not_mem_of_mem_fields (hfs ▸ List.mem_cons_self)
  refine or_iff_not_imp_right.mpr fun hne => ⟨by simp [written], hne, ?_⟩
  rw [written, afterTab_of_append hkey, ← hvalue]
  exact not_suffix_intercalate hfs

/-- **What the job keeps.** All records are read, and the lines that are written are those that were read, however
the records are sorted, if and only if every line is one that is kept. -/
theorem written_iff (hjoin : Joins join) (lines : List JString) :
    (∃ records, (construct lines).ReadsAll join tab records ∧
        ∀ sorted : List (JString × JString), sorted.Perm records → (sorted.map written).Perm lines) ↔
      ∀ line ∈ lines, Kept line := by
  simp only [readsAll_iff, construct]
  constructor
  · rintro ⟨records, hread, hsorted⟩ line hline
    -- a line that is there is written for some record, and it has a key itself
    obtain ⟨record, hrecord, rfl⟩ := List.mem_map.mp ((hsorted records (.refl _)).mem_iff.mpr hline)
    obtain ⟨i, hi, rfl⟩ := List.getElem_of_mem hrecord
    have hof := Record.written_kept hjoin (hread.get (hread.length_eq ▸ hi) hi)
    rw [List.get_eq_getElem] at hof
    refine hof.resolve_right fun htab => ?_
    obtain ⟨j, hj, hline⟩ := List.getElem_of_mem hline
    have hkey := (hread.get hj (hread.length_eq ▸ hj)).1
    rw [List.get_eq_getElem, hline, htab, extractKey_tab] at hkey
    cases hkey
  · intro hkept
    refine ⟨lines.map fun line => (beforeTab line, afterTab line), ?_, fun sorted hperm => ?_⟩
    · rw [List.forall₂_map_right_iff, List.forall₂_same]
      exact fun line hline => ((hkept line hline).record_written hjoin).1
    · have hmap := List.map_congr_left (g := id) fun line hline => ((hkept line hline).record_written hjoin).2
      rw [List.map_id] at hmap
      have hwritten := hperm.map written
      rwa [List.map_map, show written ∘ _ = fun line => written (beforeTab line, afterTab line) from rfl, hmap] at hwritten

/-- Two lines, one of three columns. -/
theorem written_iff_ab : (∃ records, (construct [jstring "b\t1", jstring "a\t\tc"]).ReadsAll joinRange tab records ∧
      ∀ sorted : List (JString × JString), sorted.Perm records →
        (sorted.map written).Perm [jstring "b\t1", jstring "a\t\tc"]) ↔
    ∀ line ∈ [jstring "b\t1", jstring "a\t\tc"], Kept line :=
  written_iff joins_joinRange _

end SortRecordReader

end InfixSearch
