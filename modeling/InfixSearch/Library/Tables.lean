import Mathlib

/-!
# Tables of records

A table is written to a stream of bytes as its size, a word with the lowest byte first, and then
its records, all of one width. A stream is accepted if and only if a table stands at its front,
and what comes after the table is left (`readTable_eq_some_iff`).
-/

namespace InfixSearch.Library

/-- A record: its bytes, and what is read of some bytes. -/
structure Record (α : Type) where
  /-- How many bytes there are. -/
  width : ℕ
  /-- The bytes. -/
  encode : α → List UInt8
  /-- What is read. -/
  decode : List UInt8 → α
  /-- All are of this width. -/
  length_encode : ∀ a, (encode a).length = width
  /-- What is written is read. -/
  decode_encode : ∀ a, decode (encode a) = a
  /-- No other bytes are read so. -/
  encode_decode : ∀ bytes, bytes.length = width → encode (decode bytes) = bytes

/-- The bytes of a word, the lowest first. -/
def encodeWord (w : BitVec 32) : List UInt8 :=
  [UInt8.ofNat w.toNat, UInt8.ofNat (w.toNat / 2 ^ 8), UInt8.ofNat (w.toNat / 2 ^ 16), UInt8.ofNat (w.toNat / 2 ^ 24)]

/-- The word of four bytes. -/
def decodeWord : List UInt8 → BitVec 32
  | [a, b, c, d] => BitVec.ofNat 32 (a.toNat + 2 ^ 8 * b.toNat + 2 ^ 16 * c.toNat + 2 ^ 24 * d.toNat)
  | _ => 0

theorem decodeWord_encodeWord (w : BitVec 32) : decodeWord (encodeWord w) = w := by
  refine BitVec.eq_of_toNat_eq ?_
  have hlt := w.isLt
  simp only [encodeWord, decodeWord, BitVec.toNat_ofNat, UInt8.toNat_ofNat']
  omega

theorem encodeWord_decodeWord (bytes : List UInt8) (h : bytes.length = 4) : encodeWord (decodeWord bytes) = bytes := by
  obtain ⟨a, b, c, d, rfl⟩ : ∃ a b c d, bytes = [a, b, c, d] := by
    match bytes, h with
    | [a, b, c, d], _ => exact ⟨a, b, c, d, rfl⟩
  have ha := a.toNat_lt
  have hb := b.toNat_lt
  have hc := c.toNat_lt
  have hd := d.toNat_lt
  simp only [encodeWord, decodeWord, BitVec.toNat_ofNat, List.cons.injEq, and_true, ← UInt8.toNat_inj, UInt8.toNat_ofNat']
  refine ⟨?_, ?_, ?_, ?_⟩ <;> omega

/-- Some bytes of a stream, if there are so many, and what comes after them. -/
def readBytes (n : ℕ) (input : List UInt8) : Option (List UInt8 × List UInt8) :=
  if n ≤ input.length then some (input.take n, input.drop n) else none

theorem readBytes_eq_some_iff {n : ℕ} {input bytes rest : List UInt8} :
    readBytes n input = some (bytes, rest) ↔ bytes.length = n ∧ input = bytes ++ rest := by
  rw [readBytes]
  constructor
  · intro h
    split_ifs at h with hn
    obtain ⟨rfl, rfl⟩ := Prod.mk.injEq _ _ _ _ ▸ Option.some.inj h
    exact ⟨List.length_take_of_le hn, (List.take_append_drop n input).symm⟩
  · rintro ⟨rfl, rfl⟩
    rw [if_pos (by simp), List.take_left, List.drop_left]

namespace Record

variable {α : Type} (r : Record α)

/-- The records that some bytes are. -/
def records : ℕ → List UInt8 → List α
  | 0, _ => []
  | n + 1, bytes => r.decode (bytes.take r.width) :: records n (bytes.drop r.width)

/-- A table in a stream. -/
def writeTable (table : List α) : List UInt8 := encodeWord (BitVec.ofNat 32 table.length) ++ table.flatMap r.encode

/-- The table at the front of a stream, if there is one, and what comes after it. -/
def readTable (input : List UInt8) : Option (List α × List UInt8) :=
  (readBytes 4 input).bind fun head =>
    let size := (decodeWord head.1).toNat
    (readBytes (r.width * size) head.2).map fun body => (r.records size body.1, body.2)

theorem length_flatMap_encode (table : List α) : (table.flatMap r.encode).length = r.width * table.length := by
  induction table with
  | nil => rfl
  | cons a table ih => rw [List.flatMap_cons, List.length_append, r.length_encode, ih, List.length_cons, Nat.mul_succ, Nat.add_comm]

theorem records_flatMap_encode (table : List α) : r.records table.length (table.flatMap r.encode) = table := by
  induction table with
  | nil => rfl
  | cons a table ih =>
    rw [List.length_cons, List.flatMap_cons, records, ← r.length_encode a, List.take_left, List.drop_left,
      r.decode_encode, ih]

theorem flatMap_encode_records {n : ℕ} {bytes : List UInt8} (h : bytes.length = r.width * n) :
    (r.records n bytes).length = n ∧ (r.records n bytes).flatMap r.encode = bytes := by
  induction n generalizing bytes with
  | zero => exact ⟨rfl, (List.length_eq_zero_iff.mp h).symm⟩
  | succ n ih =>
    rw [Nat.mul_succ] at h
    obtain ⟨hlen, hrest⟩ := ih (show (bytes.drop r.width).length = r.width * n by rw [List.length_drop]; omega)
    rw [records, List.length_cons, hlen, List.flatMap_cons, hrest, r.encode_decode _ (by rw [List.length_take]; omega)]
    exact ⟨rfl, List.take_append_drop _ _⟩

/-- What is accepted is a table, and nothing but what is written for it. -/
theorem readTable_eq_some_iff {input rest : List UInt8} {table : List α} :
    r.readTable input = some (table, rest) ↔ table.length < 2 ^ 32 ∧ input = r.writeTable table ++ rest := by
  have hword : ∀ w, (encodeWord w).length = 4 := fun _ => rfl
  rw [readTable, Option.bind_eq_some_iff]
  constructor
  · rintro ⟨⟨head, tail⟩, hhead, hbody⟩
    obtain ⟨⟨body, rest'⟩, hbody, he⟩ := Option.map_eq_some_iff.mp hbody
    obtain ⟨hlen, rfl⟩ := readBytes_eq_some_iff.mp hhead
    obtain ⟨hbytes, rfl⟩ := readBytes_eq_some_iff.mp hbody
    obtain ⟨rfl, rfl⟩ := Prod.mk.injEq _ _ _ _ ▸ he
    obtain ⟨hsize, hrecords⟩ := r.flatMap_encode_records hbytes
    dsimp only at hsize hrecords ⊢
    refine ⟨by rw [hsize]; exact (decodeWord head).isLt, ?_⟩
    rw [writeTable, hsize, hrecords, BitVec.ofNat_toNat, BitVec.setWidth_eq, encodeWord_decodeWord head hlen,
      List.append_assoc]
  · rintro ⟨hlt, rfl⟩
    have hsize : (decodeWord (encodeWord (BitVec.ofNat 32 table.length))).toNat = table.length := by
      rw [decodeWord_encodeWord, BitVec.toNat_ofNat, Nat.mod_eq_of_lt hlt]
    refine ⟨(encodeWord (BitVec.ofNat 32 table.length), table.flatMap r.encode ++ rest),
      readBytes_eq_some_iff.mpr ⟨hword _, by rw [writeTable, List.append_assoc]⟩, ?_⟩
    dsimp only
    rw [hsize, Option.map_eq_some_iff]
    refine ⟨(table.flatMap r.encode, rest), readBytes_eq_some_iff.mpr ⟨r.length_flatMap_encode table, rfl⟩, ?_⟩
    rw [r.records_flatMap_encode]

end Record

end InfixSearch.Library
