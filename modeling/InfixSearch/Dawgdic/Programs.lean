import InfixSearch.Dawgdic.Completing
import InfixSearch.Dawgdic.Storing
import InfixSearch.Library.Lines

/-!
# Building and finding from files

The program `dawgdic-build` makes a dictionary, and a guide if it is asked for one, of the lines
of a lexicon and writes them to a file; `dawgdic-find` reads them and goes over the lines of a
text. With a guide, what it prints for a line are the keys of the lexicon that begin with it
(`findMain_buildMain`), and without one the keys that the line begins with
(`findPrefixMain_buildDictionaryMain`).
-/

namespace InfixSearch.Dawgdic

open Library WordTree

/-! ### `dawgdic-build` -/

/-- What `isspace` accepts. -/
def isSpace (c : UInt8) : Bool := c == 32 || (9 ≤ c && c ≤ 13)

/-- The digits at the front of a string. -/
def strtollDigits (n : ℕ) : List UInt8 → ℕ
  | [] => n
  | c :: s => if 48 ≤ c && c ≤ 57 then strtollDigits (10 * n + (c - 48).toNat) s else n

/-- `strtoll` with base 10: blanks, a sign and digits, for the nearest number that fits in a `long long`. -/
def strtoll (s : List UInt8) : ℤ :=
  match s.dropWhile isSpace with
  | [] => 0
  | c :: s =>
    if c = 45 then max (-2 ^ 63) (-strtollDigits 0 s)
    else if c = 43 then min (2 ^ 63 - 1) (strtollDigits 0 s)
    else min (2 ^ 63 - 1) (strtollDigits 0 (c :: s))

/-- The value of a record. -/
def recordValue (record : ℤ) : ℤ := if record < 0 then 0 else if record > 2 ^ 31 - 1 then 2 ^ 31 - 1 else record

/-- Where the key ends, if there is a tab that counts. -/
def delimPos (tabOn : Bool) (key : List UInt8) : Option ℕ := if tabOn then key.findIdx? (· == 9) else none

/-- What the loop of `BuildDawg` inserts for a line. -/
def insertLine (tabOn : Bool) (s : DawgBuilder) (key : List UInt8) : Except Fault (Bool × DawgBuilder) :=
  match delimPos tabOn key with
  | none => s.insertString (some (Block.starting key [some 0])) 0
  | some pos => s.insert (some (key.take pos)) (recordValue (strtoll (cut (key.drop (pos + 1)))))

/-- The loop of `BuildDawg`, up to the first key that is not taken. -/
def insertLines (tabOn : Bool) : DawgBuilder → List (List UInt8) → Except Fault (Option DawgBuilder)
  | s, [] => pure (some s)
  | s, key :: keys => do
    let (taken, s) ← insertLine tabOn s key
    if taken then insertLines tabOn s keys else pure none

/-- `BuildDawg`. -/
def buildDawg (tabOn : Bool) (lexicon : List UInt8) : Except Fault (Option Dawg) := do
  match ← insertLines tabOn (DawgBuilder.construct DawgBuilder.defaultInitialHashTableSize) (lines 10 lexicon) with
  | none => pure none
  | some s => do
    let (dawg, _) ← s.finish
    pure (some dawg)

/-- `main` of `dawgdic-build` with the option `-g`: what is written, if it returns 0. -/
def buildMain (tabOn : Bool) (lexicon : List UInt8) : Except Fault (Option (List UInt8)) := do
  match ← buildDawg tabOn lexicon with
  | none => pure none
  | some dawg => do
    match ← DictionaryBuilder.build dawg with
    | none => pure none
    | some (dic, _) => do
      match ← GuideBuilder.build dawg dic Guide.construct with
      | none => pure none
      | some guide => pure (some (dic.write ++ guide.write))

/-- `main` of `dawgdic-build` without an option for a guide: what is written, if it returns 0. -/
def buildDictionaryMain (tabOn : Bool) (lexicon : List UInt8) : Except Fault (Option (List UInt8)) := do
  match ← buildDawg tabOn lexicon with
  | none => pure none
  | some dawg => do
    match ← DictionaryBuilder.build dawg with
    | none => pure none
    | some (dic, _) => pure (some dic.write)

/-! ### `dawgdic-find` -/

/-- The key that ends at an index, if there is one, and its value. -/
def keyAt (dic : Dictionary) (key : List UInt8) (index : ℕ) : Except Fault (List (List UInt8 × ℤ)) := do
  if ← dic.hasValue index then do pure [(key, ← dic.value index)] else pure []

/-- The loop of `FindPrefixKeys` over the characters of a line. -/
def prefixKeys (dic : Dictionary) : List UInt8 → ℕ → List UInt8 → Except Fault (List (List UInt8 × ℤ))
  | _, _, [] => pure []
  | before, index, c :: line => do
    match ← dic.follow c index with
    | none => pure []
    | some index => do
      let found ← keyAt dic (before ++ [c]) index
      let rest ← prefixKeys dic (before ++ [c]) index line
      pure (found ++ rest)

/-- `FindPrefixKeys`: what is printed for each line. -/
def findPrefixKeys (dic : Dictionary) : List (List UInt8) → Except Fault (List (List UInt8 × List (List UInt8 × ℤ)))
  | [] => pure []
  | line :: rest => do
    let found ← prefixKeys dic [] dic.root line
    let printed ← findPrefixKeys dic rest
    pure ((line, found) :: printed)

/-- `main` of `dawgdic-find` without an option: what is printed, if it returns 0. -/
def findPrefixMain (dicFile text : List UInt8) : Except Fault (Option (List (List UInt8 × List (List UInt8 × ℤ)))) :=
  match Dictionary.read dicFile with
  | none => pure none
  | some (dic, _) => some <$> findPrefixKeys dic (lines 10 text)

/-- The loop of `CompleteKeys` over the keys that go on from a line: `key()` and the value of each. -/
def completions (dic : Dictionary) (guide : Guide) : ℕ → Completer → Except Fault (List (List UInt8 × ℤ) × Completer)
  | 0, _ => .error .diverges
  | fuel + 1, s => do
    let (found, s) ← s.next dic guide
    if found then do
      let value ← s.value dic
      let (rest, s') ← completions dic guide fuel s
      pure ((cut s.keyChars, value) :: rest, s')
    else pure ([], s)

/-- The keys that go on from a line. -/
def completeLine (dic : Dictionary) (guide : Guide) (fuel : ℕ) (s : Completer) (line : List UInt8) :
    Except Fault (List (List UInt8 × ℤ) × Completer) := do
  let (all, index, _) ← dic.follows line dic.root
  if all then completions dic guide fuel (s.start dic guide index []) else pure ([], s)

/-- `CompleteKeys`: what is printed for each line. -/
def completeKeys (dic : Dictionary) (guide : Guide) (fuel : ℕ) : Completer → List (List UInt8) →
    Except Fault (List (List UInt8 × List (List UInt8 × ℤ)))
  | _, [] => pure []
  | s, line :: rest => do
    let (found, s) ← completeLine dic guide fuel s line
    let printed ← completeKeys dic guide fuel s rest
    pure ((line, found.map fun e => (line ++ e.1, e.2)) :: printed)

/-- `main` of `dawgdic-find` with the option `-g`: what is printed, if it returns 0. -/
def findMain (fuel : ℕ) (dicFile text : List UInt8) : Except Fault (Option (List (List UInt8 × List (List UInt8 × ℤ)))) :=
  match Dictionary.read dicFile with
  | none => pure none
  | some (dic, dicFile) =>
    match Guide.read dicFile with
    | none => pure none
    | some (guide, _) => some <$> completeKeys dic guide fuel Completer.construct (lines 10 text)

/-! ### The lexicon of some lines -/

/-- The call of `Insert` that a line stands for. -/
def lineCall (tabOn : Bool) (key : List UInt8) : Call :=
  match delimPos tabOn key with
  | none => (some (cut key), 0)
  | some pos => (some (key.take pos), recordValue (strtoll (cut (key.drop (pos + 1)))))

theorem insertString_eq (s : DawgBuilder) (key : List UInt8) (value : ℤ) :
    s.insertString (some (Block.starting key [some 0])) value = s.insert (some (cut key)) value := by
  have hcstr : cstr (Block.starting key [some 0]) = .ok (cut key) := by
    have hmap : Block.starting key [some 0] = (key ++ [0]).map some := by simp [Block.starting]
    rw [hmap, cstr_map_some, if_pos (by simp), cut, List.takeWhile_append]
    split_ifs with hlen
    · rw [(List.takeWhile_prefix _).eq_of_length hlen]
      simp
    · rfl
  have hfree : 0 ∉ cut key := nulFree_cut key
  rw [DawgBuilder.insertString, DawgBuilder.insert]
  cases key with
  | nil => simp [Block.starting, Block.read, cut, ok_bind]
  | cons c key =>
    have hread : (Block.starting (c :: key) [some 0]).read 0 = .ok c := rfl
    rw [hread, ok_bind, hcstr, ok_bind]
    by_cases hc : c = 0
    · rw [if_pos (.inl hc), if_pos (.inl (by simp [cut, hc]))]
    · have hlen : (cut (c :: key)).length ≠ 0 := by simp [cut, hc]
      by_cases hv : value < 0
      · rw [if_pos (.inr hv), if_pos (.inr (.inl hv))]
      · rw [if_neg (not_or.mpr ⟨hc, hv⟩), if_neg (not_or.mpr ⟨hlen, not_or.mpr ⟨hv, hfree⟩⟩)]

theorem insertLine_eq (tabOn : Bool) (s : DawgBuilder) (key : List UInt8) :
    insertLine tabOn s key = s.insert (lineCall tabOn key).1 (lineCall tabOn key).2 := by
  rw [insertLine, lineCall]
  cases delimPos tabOn key with
  | none => exact insertString_eq s key 0
  | some pos => rfl

theorem recordValue_lt (record : ℤ) : recordValue record < 2 ^ 31 := by
  rw [recordValue]
  split_ifs <;> omega

theorem lineCall_lt (tabOn : Bool) (key : List UInt8) : (lineCall tabOn key).2 < 2 ^ 31 := by
  rw [lineCall]
  cases delimPos tabOn key with
  | none => exact (by decide : (0 : ℤ) < 2 ^ 31)
  | some pos => exact recordValue_lt _

/-- The lines are inserted up to the first that is not taken. -/
theorem insertLines_eq {tabOn : Bool} {keys : List (List UInt8)} {s s' : DawgBuilder} {bs : List Bool}
    (h : s.inserts (keys.map (lineCall tabOn)) = .ok (bs, s')) :
    insertLines tabOn s keys = .ok (if bs.all id then some s' else none) := by
  induction keys generalizing s bs with
  | nil =>
    cases h
    rfl
  | cons key keys ih =>
    rw [List.map_cons, DawgBuilder.inserts, bind_eq_ok] at h
    obtain ⟨⟨b, s₁⟩, hinsert, h⟩ := h
    rw [bind_eq_ok] at h
    obtain ⟨⟨bs', s₂⟩, hrest, h⟩ := h
    cases h
    rw [insertLines, insertLine_eq, hinsert, ok_bind]
    cases b with
    | true =>
      have htrue := ih hrest
      exact htrue
    | false => rfl

/-! ### Completing the lines of a text -/

variable {dic : Dictionary} {guide : Guide} {es : List (List UInt8 × ℕ)} {fuel : ℕ}

theorem completions_eq {l : List (List UInt8 × ℤ)} {s : Completer}
    (h : Completer.outcomes dic guide (l.length + 1) s = .ok (l.map some ++ [none])) (hkeys : ∀ e ∈ l, 0 ∉ e.1)
    (hfuel : l.length < fuel) :
    ∃ s', completions dic guide fuel s = .ok (l, s') := by
  induction l generalizing s fuel with
  | nil =>
    obtain ⟨fuel, rfl⟩ := Nat.exists_eq_succ_of_ne_zero (Nat.ne_zero_of_lt hfuel)
    rw [List.length_nil, Completer.outcomes, bind_eq_ok] at h
    obtain ⟨⟨found, s₁⟩, hnext, h⟩ := h
    refine ⟨s₁, ?_⟩
    rw [completions, hnext, ok_bind]
    cases found with
    | false => rfl
    | true =>
      dsimp only at h
      rw [if_pos rfl, bind_eq_ok] at h
      obtain ⟨value, -, h⟩ := h
      exact absurd (Except.ok.inj h) (by simp)
  | cons e l ih =>
    obtain ⟨fuel, rfl⟩ := Nat.exists_eq_succ_of_ne_zero (Nat.ne_zero_of_lt hfuel)
    rw [List.forall_mem_cons] at hkeys
    rw [List.length_cons, Completer.outcomes, bind_eq_ok] at h
    obtain ⟨⟨found, s₁⟩, hnext, h⟩ := h
    cases found with
    | false =>
      dsimp only at h
      rw [if_neg Bool.false_ne_true, pure_ok, ok_bind, bind_eq_ok] at h
      obtain ⟨rest, -, h⟩ := h
      exact absurd (Except.ok.inj h) (by simp)
    | true =>
      dsimp only at h
      rw [if_pos rfl, bind_eq_ok] at h
      obtain ⟨value, hvalue, h⟩ := h
      rw [pure_ok, ok_bind, bind_eq_ok] at h
      obtain ⟨rest, hrest, h⟩ := h
      have he := Except.ok.inj h
      rw [List.map_cons, List.cons_append, List.cons.injEq, Option.some.injEq] at he
      obtain ⟨rfl, rfl⟩ := he
      obtain ⟨s', hrun⟩ := ih hrest hkeys.2 (Nat.lt_of_succ_lt_succ hfuel)
      refine ⟨s', ?_⟩
      rw [completions, hnext, ok_bind]
      dsimp only
      rw [if_pos rfl, hvalue, ok_bind, hrun, ok_bind, cut_of_nulFree hkeys.1]
      rfl

/-- What should be printed for a line: the keys that begin with it, and their values. -/
def keysFrom (es : List (List UInt8 × ℕ)) (line : List UInt8) : List (List UInt8 × ℤ) :=
  (es.filter fun e => line <+: e.1).map fun e => (e.1, (e.2 : ℤ))

theorem keysFrom_eq (es : List (List UInt8 × ℕ)) (line : List UInt8) :
    keysFrom es line = (WordTree.residual es line).map fun e => (line ++ e.1, (e.2 : ℤ)) := by
  rw [keysFrom, WordTree.residual, List.map_map]
  refine List.map_congr_left fun e he => ?_
  have hprefix : line <+: e.1 := of_decide_eq_true (List.mem_filter.mp he).2
  exact Prod.ext (List.prefix_iff_eq_append.mp hprefix).symm rfl

theorem exists_completeLine (hfollows : dic.Follows es) (hcompletes : GuideBuilder.Completes dic guide es)
    (hkeys : ∀ e ∈ es, 0 ∉ e.1) (hfuel : es.length < fuel) (s : Completer) (line : List UInt8) :
    ∃ s', completeLine dic guide fuel s line = .ok ((WordTree.residual es line).map fun e => (e.1, (e.2 : ℤ)), s') := by
  obtain ⟨all, index, count, hrun, hnone⟩ := hfollows line
  rw [completeLine, hrun, ok_bind]
  dsimp only
  cases all with
  | false =>
    rw [hnone rfl]
    exact ⟨s, rfl⟩
  | true =>
    rw [if_pos rfl]
    refine completions_eq ?_ ?_ ?_
    · rw [hcompletes line index count hrun, under_empty, Completer.expected, List.length_map, List.map_map]
      refine congrArg Except.ok ?_
      rw [List.replicate_succ, List.append_cons, List.take_left']
      · rfl
      · simp
    · intro e he
      obtain ⟨e', he', rfl⟩ := List.mem_map.mp he
      obtain ⟨e, hmem, rfl⟩ := List.mem_map.mp he'
      exact fun h0 => hkeys e (List.mem_filter.mp hmem).1 (List.mem_of_mem_drop h0)
    · rw [List.length_map, WordTree.residual, List.length_map]
      exact (List.length_filter_le _ _).trans_lt hfuel

theorem completeKeys_eq (hfollows : dic.Follows es) (hcompletes : GuideBuilder.Completes dic guide es)
    (hkeys : ∀ e ∈ es, 0 ∉ e.1) (hfuel : es.length < fuel) (s : Completer) (text : List (List UInt8)) :
    completeKeys dic guide fuel s text = .ok (text.map fun line => (line, keysFrom es line)) := by
  induction text generalizing s with
  | nil => rfl
  | cons line text ih =>
    obtain ⟨s', hfound⟩ := exists_completeLine hfollows hcompletes hkeys hfuel s line
    rw [completeKeys, hfound, ok_bind]
    dsimp only
    rw [ih, ok_bind, List.map_map, List.map_cons, keysFrom_eq]
    rfl

/-! ### The prefixes of the lines of a text -/

/-- What should be printed for a line: the keys that it begins with, and their values. -/
def keysWithin (es : List (List UInt8 × ℕ)) (line : List UInt8) : List (List UInt8 × ℤ) :=
  (es.filter fun e => e.1 ≠ [] ∧ e.1 <+: line).map fun e => (e.1, (e.2 : ℤ))

theorem prefixKeys_eq {nodes : List (List Item)} {p index : ℕ} {g : Placement ℕ} {t : WordTree UInt8 ℕ}
    (h : dic.Holds nodes p g) (hwf : WellFormed nodes) (hr : Reads dic nodes p g index t) (ht : t.Ordered)
    (before line : List UInt8) :
    prefixKeys dic before index line =
      .ok ((t.entries.filter fun e => e.1 ≠ [] ∧ e.1 <+: line).map fun e => (before ++ e.1, (e.2 : ℤ))) := by
  induction line generalizing before index t with
  | nil =>
    have hnone : t.entries.filter (fun e => e.1 ≠ [] ∧ e.1 <+: ([] : List UInt8)) = [] := by
      simp
    rw [hnone]
    rfl
  | cons c line ih =>
    rw [filter_entries_cons ht]
    rcases h.exists_follow hwf hr c with ⟨hfollow, hchild⟩ | ⟨j, t', hfollow, hchild, hr'⟩
    · rw [prefixKeys, hfollow, hchild]
      rfl
    · have ht' := (ht.child hchild).1
      have hfound : keyAt dic (before ++ [c]) j = .ok ((t'.value.map fun v => (before ++ [c], (v : ℤ))).toList) := by
        rw [keyAt, Dictionary.Holds.hasValue_eq hr', ok_bind]
        cases hv : t'.value with
        | none => rfl
        | some v =>
          rw [Option.isSome_some, if_pos rfl, h.value_eq hwf hr' hv]
          rfl
      rw [prefixKeys, hfollow, ok_bind]
      dsimp only
      rw [hfound, ok_bind, ih hr' ht', ok_bind, hchild, Option.map_some, Option.getD_some, filter_entries_within ht',
        under_append, List.map_append]
      refine congrArg Except.ok (congrArg₂ _ ?_ ?_)
      · cases t'.value <;> simp [under]
      · simp [under, Function.comp_def]

/-- In a dictionary with no words no key is found. -/
theorem prefixKeys_nil (hunits : ∀ i < 256, ∃ c r, r < 256 ∧ dic.units[i]? = some (DictionaryUnit.inner c false r))
    (before line : List UInt8) {index : ℕ} (hindex : index < 256) : prefixKeys dic before index line = .ok [] := by
  induction line generalizing before index with
  | nil => rfl
  | cons c line ih =>
    obtain ⟨r, hfollow, hr⟩ := exists_follow_nil hunits c hindex
    rw [prefixKeys, hfollow, ok_bind]
    cases r with
    | none => rfl
    | some j =>
      have hfound : keyAt dic (before ++ [c]) j = .ok [] := by
        rw [keyAt, hasValue_nil hunits (hr j rfl)]
        rfl
      dsimp only
      rw [hfound, ok_bind, ih (before ++ [c]) (hr j rfl)]
      rfl

theorem findPrefixKeys_eq (h : ∀ line, prefixKeys dic [] dic.root line = .ok (keysWithin es line))
    (text : List (List UInt8)) :
    findPrefixKeys dic text = .ok (text.map fun line => (line, keysWithin es line)) := by
  induction text with
  | nil => rfl
  | cons line text ih =>
    rw [findPrefixKeys, h, ok_bind, ih]
    rfl

/-! ### The programs -/

/-- The dawg of a lexicon, if all its lines are taken. -/
theorem exists_buildDawg (tabOn : Bool) (text : List UInt8)
    (hroom : 1 + (((lines 10 text).map (lineCall tabOn)).map cost).sum < 2 ^ 30) :
    ∃ r, buildDawg tabOn text = .ok r ∧
      (r = none → (lexicon [] ((lines 10 text).map (lineCall tabOn))).1.all id = false) ∧
      ∀ d, r = some d → (lexicon [] ((lines 10 text).map (lineCall tabOn))).1.all id = true ∧
        ∃ nodes t, d.Keeps nodes t ∧ t.entries = (lexicon [] ((lines 10 text).map (lineCall tabOn))).2 := by
  have hvalues : ∀ call ∈ (lines 10 text).map (lineCall tabOn), call.2 < 2 ^ 31 := by
    intro call hcall
    obtain ⟨key, -, rfl⟩ := List.mem_map.mp hcall
    exact lineCall_lt tabOn key
  obtain ⟨s, d, nodes, t, hinserts, hfinish, hkeeps, hentries⟩ :=
    DawgBuilder.exists_build (show 0 < DawgBuilder.defaultInitialHashTableSize by decide) hvalues hroom
  rw [buildDawg, insertLines_eq hinserts, ok_bind]
  cases hall : (lexicon [] ((lines 10 text).map (lineCall tabOn))).1.all id with
  | false => exact ⟨none, rfl, fun _ => rfl, fun d hd => absurd hd.symm (Option.some_ne_none d)⟩
  | true =>
    rw [if_pos rfl]
    dsimp only
    rw [hfinish, ok_bind]
    refine ⟨some d, rfl, fun hc => absurd hc (Option.some_ne_none d), fun d' hd => ⟨rfl, nodes, t, ?_, hentries⟩⟩
    exact Option.some.inj hd ▸ hkeeps

/-- **What is built is found.** Whatever the lexicon, building from it is no fault. If a file is written, then all
lines of the lexicon were taken and their keys ascend, and from that file the program that finds keys prints, for each
line of a text, the keys that begin with it, in order and with their values. If none is written, some line was not
taken, or there are at least 2^21 - 1 letters in the keys. -/
theorem findMain_buildMain (tabOn : Bool) (lexiconText : List UInt8)
    (hroom : 1 + (((lines 10 lexiconText).map (lineCall tabOn)).map cost).sum < 2 ^ 30) :
    ∃ r, buildMain tabOn lexiconText = .ok r ∧
      (r = none → (lexicon [] ((lines 10 lexiconText).map (lineCall tabOn))).1.all id = false ∨
        2 ^ 21 < ((lexicon [] ((lines 10 lexiconText).map (lineCall tabOn))).2.map fun e => e.1.length).sum + 2) ∧
      ∀ file, r = some file → (lexicon [] ((lines 10 lexiconText).map (lineCall tabOn))).1.all id = true ∧
        ((lexicon [] ((lines 10 lexiconText).map (lineCall tabOn))).2.Pairwise fun a b => a.1 < b.1) ∧
        ∀ text fuel, (lexicon [] ((lines 10 lexiconText).map (lineCall tabOn))).2.length < fuel →
          findMain fuel file text = .ok (some ((lines 10 text).map fun line =>
            (line, keysFrom (lexicon [] ((lines 10 lexiconText).map (lineCall tabOn))).2 line))) := by
  have hkeys : ∀ e ∈ (lexicon [] ((lines 10 lexiconText).map (lineCall tabOn))).2, e.1 ≠ [] ∧ 0 ∉ e.1 :=
    key_of_mem_lexicon fun e he => absurd he List.not_mem_nil
  obtain ⟨r, hdawg, hnone, hr⟩ := exists_buildDawg tabOn lexiconText hroom
  rw [buildMain, hdawg, ok_bind]
  cases r with
  | none => exact ⟨none, rfl, fun _ => .inl (hnone rfl), fun file hfile => absurd hfile.symm (Option.some_ne_none file)⟩
  | some d =>
    obtain ⟨hall, nodes, t, hkeeps, hentries⟩ := hr d rfl
    obtain ⟨r, hbuild, hfull, hr⟩ := DictionaryBuilder.exists_build hkeeps
    dsimp only
    rw [hbuild, ok_bind]
    rw [← hentries] at hkeys ⊢
    cases r with
    | none =>
      refine ⟨none, rfl, fun _ => .inr ?_, fun file hfile => absurd hfile.symm (Option.some_ne_none file)⟩
      exact (hfull rfl).trans_le (Nat.add_le_add_right (WordTree.edges_le hkeeps.ordered) 2)
    | some r =>
      obtain ⟨dic, k⟩ := r
      obtain ⟨-, hfollows, hsize, hdic, -⟩ := hr dic k rfl
      obtain ⟨guide, hguide, hle, hcompletes⟩ := GuideBuilder.exists_completes hkeeps (fun e he => (hkeys e he).1) hdic
      dsimp only
      rw [hguide, ok_bind]
      refine ⟨some (dic.write ++ guide.write), rfl, fun hc => absurd hc (Option.some_ne_none _), fun file hfile => ?_⟩
      refine ⟨hall, WordTree.sorted_entries hkeeps.ordered, fun text fuel hfuel => ?_⟩
      obtain rfl := Option.some.inj hfile
      have hreadGuide : Guide.read guide.write = some (guide, []) :=
        Guide.read_eq_some_iff.mpr ⟨by omega, (List.append_nil _).symm⟩
      rw [findMain, Dictionary.read_eq_some_iff.mpr ⟨by omega, rfl⟩]
      dsimp only
      rw [hreadGuide]
      dsimp only
      rw [completeKeys_eq hfollows hcompletes (fun e he => (hkeys e he).2) hfuel]
      rfl

/-- The lexicon `ab` and `b`, each with the value 5. -/
theorem findMain_buildMain_ab_b :
    ∃ r, buildMain true [97, 98, 9, 53, 10, 98, 9, 53, 10] = .ok r ∧
      (r = none → [true, true].all id = false ∨ 2 ^ 21 < 2 + (1 + 0) + 2) ∧
      ∀ file, r = some file → [true, true].all id = true ∧
        ([([97, 98], 5), ([98], 5)] : List (List UInt8 × ℕ)).Pairwise (fun a b => a.1 < b.1) ∧
        ∀ text fuel, 2 < fuel → findMain fuel file text =
          .ok (some ((lines 10 text).map fun line => (line, keysFrom [([97, 98], 5), ([98], 5)] line))) := by
  have hlexicon : lexicon [] ((lines 10 [97, 98, 9, 53, 10, 98, 9, 53, 10]).map (lineCall true)) =
      ([true, true], [([97, 98], 5), ([98], 5)]) := by decide +kernel
  have h := findMain_buildMain true [97, 98, 9, 53, 10, 98, 9, 53, 10] (by decide +kernel)
  rw [hlexicon] at h
  exact h

/-- **Prefixes are found.** Whatever the lexicon, building from it is no fault. If a file is written, then all lines of
the lexicon were taken and their keys ascend, and from that file, whatever comes after the dictionary in it, the
program that finds keys prints, for each line of a text, the keys that the line begins with, in order and with their
values. If none is written, some line was not taken, or there are at least 2^21 - 1 letters in the keys. -/
theorem findPrefixMain_buildDictionaryMain (tabOn : Bool) (lexiconText : List UInt8)
    (hroom : 1 + (((lines 10 lexiconText).map (lineCall tabOn)).map cost).sum < 2 ^ 30) :
    ∃ r, buildDictionaryMain tabOn lexiconText = .ok r ∧
      (r = none → (lexicon [] ((lines 10 lexiconText).map (lineCall tabOn))).1.all id = false ∨
        2 ^ 21 < ((lexicon [] ((lines 10 lexiconText).map (lineCall tabOn))).2.map fun e => e.1.length).sum + 2) ∧
      ∀ file, r = some file → (lexicon [] ((lines 10 lexiconText).map (lineCall tabOn))).1.all id = true ∧
        ((lexicon [] ((lines 10 lexiconText).map (lineCall tabOn))).2.Pairwise fun a b => a.1 < b.1) ∧
        ∀ rest text, findPrefixMain (file ++ rest) text = .ok (some ((lines 10 text).map fun line =>
          (line, keysWithin (lexicon [] ((lines 10 lexiconText).map (lineCall tabOn))).2 line))) := by
  obtain ⟨r, hdawg, hnone, hr⟩ := exists_buildDawg tabOn lexiconText hroom
  rw [buildDictionaryMain, hdawg, ok_bind]
  cases r with
  | none => exact ⟨none, rfl, fun _ => .inl (hnone rfl), fun file hfile => absurd hfile.symm (Option.some_ne_none file)⟩
  | some d =>
    obtain ⟨hall, nodes, t, hkeeps, hentries⟩ := hr d rfl
    obtain ⟨r, hbuild, hfull, hr⟩ := DictionaryBuilder.exists_build hkeeps
    dsimp only
    rw [hbuild, ok_bind, ← hentries]
    cases r with
    | none =>
      refine ⟨none, rfl, fun _ => .inr ?_, fun file hfile => absurd hfile.symm (Option.some_ne_none file)⟩
      exact (hfull rfl).trans_le (Nat.add_le_add_right (WordTree.edges_le hkeeps.ordered) 2)
    | some r =>
      obtain ⟨dic, k⟩ := r
      obtain ⟨-, -, hsize, hdic, hnil⟩ := hr dic k rfl
      refine ⟨some dic.write, rfl, fun hc => absurd hc (Option.some_ne_none _), fun file hfile => ?_⟩
      refine ⟨hall, WordTree.sorted_entries hkeeps.ordered, fun rest text => ?_⟩
      obtain rfl := Option.some.inj hfile
      have hprefix : ∀ line, prefixKeys dic [] dic.root line = .ok (keysWithin t.entries line) := by
        intro line
        by_cases ht : t = .nil
        · subst ht
          exact prefixKeys_nil (hnil rfl) [] line (by rw [Dictionary.root]; decide)
        · obtain ⟨p, g, -, hholds, hreads⟩ := hdic ht
          exact prefixKeys_eq hholds hkeeps.wellFormed hreads hkeeps.ordered [] line
      rw [findPrefixMain, Dictionary.read_eq_some_iff.mpr ⟨by omega, rfl⟩]
      dsimp only
      rw [findPrefixKeys_eq hprefix]
      rfl

theorem findPrefixMain_buildDictionaryMain_ab_b :
    ∃ r, buildDictionaryMain true [97, 98, 9, 53, 10, 98, 9, 53, 10] = .ok r ∧
      (r = none → [true, true].all id = false ∨ 2 ^ 21 < 2 + (1 + 0) + 2) ∧
      ∀ file, r = some file → [true, true].all id = true ∧
        ([([97, 98], 5), ([98], 5)] : List (List UInt8 × ℕ)).Pairwise (fun a b => a.1 < b.1) ∧
        ∀ rest text, findPrefixMain (file ++ rest) text =
          .ok (some ((lines 10 text).map fun line => (line, keysWithin [([97, 98], 5), ([98], 5)] line))) := by
  have hlexicon : lexicon [] ((lines 10 [97, 98, 9, 53, 10, 98, 9, 53, 10]).map (lineCall true)) =
      ([true, true], [([97, 98], 5), ([98], 5)]) := by decide +kernel
  have h := findPrefixMain_buildDictionaryMain true [97, 98, 9, 53, 10, 98, 9, 53, 10] (by decide +kernel)
  rw [hlexicon] at h
  exact h

end InfixSearch.Dawgdic
