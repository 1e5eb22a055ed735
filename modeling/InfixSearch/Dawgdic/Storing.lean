import InfixSearch.Dawgdic.Guide
import InfixSearch.Library.Tables

/-!
# Storing dictionaries and guides

A dictionary is written as a table of its units, and so is a guide. A stream is accepted if and
only if it begins with what is written for one, so a guide that is written after a dictionary is
read after it (`readBoth_eq_some_iff`).
-/

namespace InfixSearch.Dawgdic

open Library

/-- The bytes of a unit of a dictionary, those of `base_`. -/
def DictionaryUnit.record : Record DictionaryUnit where
  width := 4
  encode u := encodeWord u.base
  decode bytes := ⟨decodeWord bytes⟩
  length_encode _ := rfl
  decode_encode u := by rw [decodeWord_encodeWord]
  encode_decode bytes h := encodeWord_decodeWord bytes h

/-- The unit of two bytes. -/
def GuideUnit.ofBytes : List UInt8 → GuideUnit
  | [child, sibling] => ⟨child, sibling⟩
  | _ => construct

/-- The bytes of a unit of a guide, `child_` and `sibling_`. -/
def GuideUnit.record : Record GuideUnit where
  width := 2
  encode u := [u.child, u.sibling]
  decode := ofBytes
  length_encode _ := rfl
  decode_encode _ := rfl
  encode_decode bytes h := by
    match bytes, h with
    | [child, sibling], _ => rfl

/-- `Write` of a dictionary. -/
def Dictionary.write (dic : Dictionary) : List UInt8 := DictionaryUnit.record.writeTable dic.units

/-- `Read` of a dictionary: it, and what is left of the stream. -/
def Dictionary.read (input : List UInt8) : Option (Dictionary × List UInt8) :=
  (DictionaryUnit.record.readTable input).map fun r => (⟨r.1⟩, r.2)

/-- `Write` of a guide. -/
def Guide.write (guide : Guide) : List UInt8 := GuideUnit.record.writeTable guide.units

/-- `Read` of a guide. -/
def Guide.read (input : List UInt8) : Option (Guide × List UInt8) :=
  (GuideUnit.record.readTable input).map fun r => (⟨r.1⟩, r.2)

variable {input rest : List UInt8} {dic : Dictionary} {guide : Guide}

/-- What is accepted as a dictionary is what is written for one. -/
theorem Dictionary.read_eq_some_iff :
    Dictionary.read input = some (dic, rest) ↔ dic.size < 2 ^ 32 ∧ input = dic.write ++ rest := by
  rw [Dictionary.read, Option.map_eq_some_iff, size, write, ← Record.readTable_eq_some_iff]
  constructor
  · rintro ⟨r, hr, he⟩
    obtain ⟨rfl, rfl⟩ := Prod.mk.injEq _ _ _ _ ▸ he
    exact hr
  · exact fun h => ⟨(dic.units, rest), h, rfl⟩

theorem Guide.read_eq_some_iff :
    Guide.read input = some (guide, rest) ↔ guide.size < 2 ^ 32 ∧ input = guide.write ++ rest := by
  rw [Guide.read, Option.map_eq_some_iff, size, write, ← Record.readTable_eq_some_iff]
  constructor
  · rintro ⟨r, hr, he⟩
    obtain ⟨rfl, rfl⟩ := Prod.mk.injEq _ _ _ _ ▸ he
    exact hr
  · exact fun h => ⟨(guide.units, rest), h, rfl⟩

/-- A dictionary and a guide, one after the other. -/
def readBoth (input : List UInt8) : Option (Dictionary × Guide × List UInt8) :=
  (Dictionary.read input).bind fun r => (Guide.read r.2).map fun r' => (r.1, r'.1, r'.2)

/-- **A file is read as what was written to it.** A dictionary and a guide are read from a stream, with some rest,
if and only if the stream is what is written for them, one after the other, and the rest. -/
theorem readBoth_eq_some_iff (input rest : List UInt8) (dic : Dictionary) (guide : Guide) :
    readBoth input = some (dic, guide, rest) ↔
      dic.size < 2 ^ 32 ∧ guide.size < 2 ^ 32 ∧ input = dic.write ++ guide.write ++ rest := by
  rw [readBoth, Option.bind_eq_some_iff]
  constructor
  · rintro ⟨⟨dic', tail⟩, hdic, hmap⟩
    obtain ⟨⟨guide', rest'⟩, hguide, he⟩ := Option.map_eq_some_iff.mp hmap
    cases he
    obtain ⟨hd, rfl⟩ := Dictionary.read_eq_some_iff.mp hdic
    obtain ⟨hg, rfl⟩ := Guide.read_eq_some_iff.mp hguide
    exact ⟨hd, hg, (List.append_assoc _ _ _).symm⟩
  · rintro ⟨hd, hg, rfl⟩
    rw [List.append_assoc]
    refine ⟨(dic, guide.write ++ rest), Dictionary.read_eq_some_iff.mpr ⟨hd, rfl⟩, ?_⟩
    rw [Option.map_eq_some_iff]
    exact ⟨(guide, rest), Guide.read_eq_some_iff.mpr ⟨hg, rfl⟩, rfl⟩

end InfixSearch.Dawgdic
