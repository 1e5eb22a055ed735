import InfixSearch.Search.Answers
import InfixSearch.Search.Rows

/-!
# Writes past the end of the scratch arrays

Nothing bounds what `find_path_util` writes to its arrays of 100 bytes, neither when a
file is read nor when a key is searched for. For a given file and key it stays inside
them exactly when what is found from each entry of the index that the search comes to
fits, and none of these entries has a position that the `char` made negative: such an
entry has `find_path_util` read the tail before its first character, and what it does
from there on, in this entry and in those after it, is undefined (`scratch_lt_iff`).
-/

namespace InfixSearch

open Library

namespace SearchT

variable {s : SearchT Node2T} {T : Trie}

/-- The entries that a search for the key comes to: up to one from which a whole word is
read, or up to one with a negative position. -/
def comesTo (key : Str) : List (Option (Forest.Start Ptr Byte)) → List (Option (Forest.Start Ptr Byte))
  | [] => []
  | none :: _ => [none]
  | some st :: es => some st :: if st.exact key then [] else comesTo key es

/-- The start positions that the search for a key reads from, one after the other; `none`
stands for an entry with a negative position. The entries are those for the first two
characters of the key, where NUL, like the end of the key, is the character of the node in
which a word ends. -/
def tried (T : Trie) : Str → List (Option (Forest.Start Ptr Byte))
  | [] => []
  | a :: key => comesTo (a :: key)
      ((Forest.selected a (key.head?.filter (· ≠ 0)) T.starts).map fun st => startOf T (startVal st))

/-! ### Keys with a NUL -/

/-- Whatever the character, a child that is found is one of the children. -/
theorem getChild_mem_roots {id : Ptr} {t : Str} {leaf : Bool} {par : Option Ptr} {cs : Forest Ptr Byte}
    (hid : s.heap.At id ⟨t, leaf, par, cs.roots⟩) (hc : Rep s.heap (some id) cs) (c : Byte) :
    ∃ o, s.heap.getChild id c = .ok o ∧ ∀ q, o = some q → q ∈ cs.roots := by
  by_cases h0 : c = 0
  · subst h0
    exact ⟨_, Rep.getChild hid hc nulFree_nil, fun q hq => Forest.rootOf_mem_roots hq⟩
  · exact ⟨_, Rep.getChild hid hc (nulFree_cons.mpr ⟨h0, nulFree_nil⟩), fun q hq => Forest.rootOf_mem_roots hq⟩

/-- Reading a key with a NUL from position `k` of a node, given that nothing comes of the calls for its children. -/
theorem findPathUtil_nul_node {start : TreePosValT} {origKey key : Str} {found : FoundT} {fuel k : ℕ} {id : Ptr} {t : Str}
    {leaf : Bool} {par : Option Ptr} {cs : Forest Ptr Byte} (hid : s.heap.At id ⟨t, leaf, par, cs.roots⟩)
    (hc : Rep s.heap (some id) cs) (hk : k ≤ t.length) (hnil : t.drop k = [] → cs = .nil) (hkey : ¬ NulFree key)
    (ih : ∀ key', ¬ NulFree key' → key'.length < key.length → ∀ c ∈ cs.roots,
      Scratch.findPathUtil s start origKey fuel c 0 key' found = pure found) :
    Scratch.findPathUtil s start origKey (fuel + 1) id k key found = pure found := by
  have hnul : NulFree (t.drop k) := hid.nulFree.drop k
  have hend : agree (t.drop k) key ≠ key.length := by
    intro h
    exact hkey fun h0 => hnul ((agree_eq_length_right_iff.mp h).subset h0)
  by_cases hlt : agree (t.drop k) key < (t.drop k).length
  · exact findPathUtil_part hid hk hend hlt
  · -- the key goes on after the tail, and the NUL is in what is left of it
    have hag : agree (t.drop k) key = (t.drop k).length := le_antisymm (agree_le_left _ _) (not_lt.mp hlt)
    have hdrop := drop_agree_of_length hlt
    rw [hag] at hdrop
    have hleft : ¬ NulFree (key.drop (t.drop k).length) := fun h => hkey (hdrop ▸ nulFree_append.mpr ⟨hnul, h⟩)
    obtain ⟨c, newstr, e⟩ : ∃ c newstr, key.drop (t.drop k).length = c :: newstr :=
      List.exists_cons_of_ne_nil fun h => hleft (h ▸ nulFree_nil)
    obtain ⟨o, ho, hroots⟩ := getChild_mem_roots hid hc c
    have hpos : ¬ key.length < 1 := by
      have := congrArg List.length e
      rw [List.length_drop, List.length_cons] at this
      omega
    rw [Scratch.findPathUtil, if_neg hpos]
    simp only [hid.getTail, Logged.lift_ok_bind, matchTail_eq hk, hag, e]
    rw [if_neg (by rw [List.length_drop]; omega), ho, Logged.lift_ok_bind]
    cases o with
    | none => rfl
    | some q =>
      have hq := hroots q rfl
      refine ih (c :: newstr) (e ▸ hleft) ?_ q hq
      have hne : t.drop k ≠ [] := fun h0 => absurd (hnil h0 ▸ hq) List.not_mem_nil
      have := List.length_pos_iff.mpr hne
      rw [← e, List.length_drop]
      omega

/-- Nothing comes of reading a key with a NUL from a root. -/
theorem findPathUtil_nul_root {start : TreePosValT} {origKey key : Str} {found : FoundT} {fuel : ℕ} {F : Forest Ptr Byte}
    {par : Option Ptr} (hr : Rep s.heap par F) (hwf : F.WF) (hkey : ¬ NulFree key) (hfuel : key.length < fuel) :
    ∀ c ∈ F.roots, Scratch.findPathUtil s start origKey fuel c 0 key found = pure found := by
  induction F generalizing par key fuel with
  | nil => simp [Forest.roots]
  | node id t leaf cs sib ihc ihs =>
    obtain ⟨hid, hc, hs⟩ := hr
    intro c hm
    rcases List.mem_cons.mp hm with rfl | hm
    · obtain ⟨fuel, rfl⟩ := Nat.exists_eq_add_one_of_ne_zero (show fuel ≠ 0 by omega)
      exact findPathUtil_nul_node (k := 0) hid hc (Nat.zero_le _) (fun h0 => (hwf.1 h0).2) hkey
        fun key' hkey' hlt => ihc hc hwf.2.2.2.1 hkey' (by omega)
    · exact ihs hs hwf.2.2.2.2 hkey hfuel c hm

/-- Nothing comes of reading a key with a NUL from a start position. -/
theorem findPathUtil_nul {st : Forest.Start Ptr Byte} {key : Str} (h : s.Locates st) (hkey : ¬ NulFree key)
    (found : FoundT) :
    Scratch.findPathUtil s (startVal st) key (key.length + 1) (startVal st).1 (startVal st).2.toInt key found = pure found := by
  obtain ⟨t, par, hid, hrest⟩ := h.node
  have hidx : (startVal st).2.toInt = (st.idx : ℤ) := h.idx
  have hd : t.drop st.idx ≠ [] := by rw [hrest]; exact h.rest
  have hk : st.idx ≤ t.length := by
    by_contra hgt
    exact hd (List.drop_eq_nil_of_le (by omega))
  rw [hidx]
  exact findPathUtil_nul_node hid h.children hk (fun h0 => absurd h0 hd) hkey
    fun key' hkey' hlt => findPathUtil_nul_root h.children h.wf hkey' hlt

/-- A key that is read to its end has no NUL. -/
theorem Locates.nulFree_of_seek {st : Forest.Start Ptr Byte} {key : Str} {hit : Forest.Hit Ptr Byte} (h : s.Locates st)
    (hseek : st.tree.seek key = some hit) : NulFree key := by
  by_cases hne : key = []
  · rw [hne]
    exact nulFree_nil
  obtain ⟨t, par, ha, hrest⟩ := h.node
  have hnul : NulFree st.rest := by
    rw [← hrest]
    exact ha.nulFree.drop st.idx
  obtain ⟨S, hS, -, -, -, hword, -⟩ := Forest.exists_site_of_seek (u := []) hne hseek
  have hS' : NulFree S.word := by
    rw [Forest.Start.tree, Forest.mem_sites_node] at hS
    rcases hS with rfl | hS | hS
    · exact nulFree_append.mpr ⟨nulFree_nil, hnul⟩
    · obtain ⟨q, haS, -⟩ := h.children.site hS
      rw [← Forest.sitesBy_eq_sites (f := id) fun _ _ => rfl] at hS
      exact nulFree_append.mpr ⟨nulFree_pre (fun _ ht => ht) h.children (nulFree_append.mpr ⟨nulFree_nil, hnul⟩) hS, haS.nulFree⟩
    · cases hS
  rw [hword, nulFree_append, nulFree_append] at hS'
  exact hS'.1.2

/-! ### One entry -/

/-- From a start position: where what is found fits, the call succeeds, and where it does not, it is written past the
end of an array. -/
theorem Locates.findPathUtil_cases {st : Forest.Start Ptr Byte} {key : Str} (h : s.Locates st) (hne : key ≠ [])
    {found : FoundT} (hexact : found.exactMatch = false) :
    (Fits key st → ∃ found', (Scratch.findPathUtil s (startVal st) key (key.length + 1) (startVal st).1 (startVal st).2.toInt
        key found).result = .ok found' ∧ found'.exactMatch = st.exact key) ∧
      (¬ Fits key st → (Scratch.findPathUtil s (startVal st) key (key.length + 1) (startVal st).1 (startVal st).2.toInt
        key found).Overruns 100) := by
  by_cases hkey : NulFree key
  · refine ⟨fun hfit => ?_, overruns_findPathUtil h hne hkey found⟩
    exact ⟨_, (Scratch.result_findPathUtil ..).trans ((findPathUtil_start h hne hkey found hexact).1 hfit), rfl⟩
  · have hseek : st.tree.seek key = none := by
      cases hseek : st.tree.seek key with
      | none => rfl
      | some hit => exact absurd (h.nulFree_of_seek hseek) hkey
    refine ⟨fun _ => ⟨found, by rw [findPathUtil_nul h hkey found, Logged.result_pure], ?_⟩, fun hfit => ?_⟩
    · rw [hexact, Forest.Start.exact, hseek]
    · exact absurd (fun hit hhit => by rw [hseek] at hhit; cases hhit) hfit

/-- The node of an entry is in the heap. -/
theorem Indexed.getTail_entry (h : s.Indexed T) {e : StartEntry} (he : e ∈ T.starts) :
    ∃ t, s.heap.getTail (startVal e.2).1 = .ok t := by
  obtain ⟨S, hS, hid, -⟩ := exists_climb h.holds.owns.nodup_forest.2 he
  obtain ⟨ha, hc, -⟩ := h.holds.rep
  rw [show (startVal e.2).1 = S.id from hid.symm]
  rcases List.mem_cons.mp hS with rfl | hS
  · exact ⟨_, ha.getTail⟩
  · obtain ⟨w, hw⟩ := Forest.exists_site_of_mem_sitesBy hS []
    obtain ⟨q, haS, -⟩ := hc.site hw
    exact ⟨_, haS.getTail⟩

/-- From a negative position the tail is read before its start. -/
theorem Indexed.findPathUtil_of_neg (h : s.Indexed T) {e : StartEntry} (he : e ∈ T.starts)
    (hneg : (startVal e.2).2.toInt < 0) {key : Str} (hne : key ≠ []) (found : FoundT) :
    Scratch.findPathUtil s (startVal e.2) key (key.length + 1) (startVal e.2).1 (startVal e.2).2.toInt key found =
      liftM (Except.error Fault.beforeStart : Except Fault FoundT) := by
  obtain ⟨t, ht⟩ := h.getTail_entry he
  obtain ⟨c, key, rfl⟩ := List.exists_cons_of_ne_nil hne
  have hmatch : matchTail t (startVal e.2).2.toInt (c :: key) = .error .beforeStart := by
    rw [matchTail, if_pos (by omega), charAtInt, if_pos hneg, throw_error, error_bind]
  rw [Scratch.findPathUtil, if_neg (by simp), ht, Logged.lift_ok_bind, hmatch, Logged.lift_error_bind]

/-! ### Going through the entries -/

/-- The loop of `find_path` comes to its end if at each entry that it comes to what is found fits; else it writes past the
end of an array, or reads a tail before its start. -/
theorem Indexed.findPathLoop_cases (h : s.Indexed T) {key : Str} (hne : key ≠ []) {sts : List (Forest.Start Ptr Byte)}
    (hsts : ∀ st ∈ sts, ∃ e ∈ T.starts, e.2 = st) {found : FoundT} (hexact : found.exactMatch = false) :
    ((∀ o ∈ comesTo key (sts.map fun st => startOf T (startVal st)), ∃ st, o = some st ∧ Fits key st) →
      ∃ found', (Scratch.findPathLoop s key (sts.map startVal) found).result = .ok found') ∧
    ((¬ ∀ o ∈ comesTo key (sts.map fun st => startOf T (startVal st)), ∃ st, o = some st ∧ Fits key st) →
      (Scratch.findPathLoop s key (sts.map startVal) found).Overruns 100 ∨
        (Scratch.findPathLoop s key (sts.map startVal) found).result = .error .beforeStart) := by
  induction sts generalizing found with
  | nil => exact ⟨fun _ => ⟨found, rfl⟩, fun hno => absurd (fun o ho => absurd ho List.not_mem_nil) hno⟩
  | cons st₀ sts ih =>
    obtain ⟨e, he, rfl⟩ := hsts st₀ List.mem_cons_self
    have ih := fun {found} => @ih (fun st hst => hsts st (List.mem_cons_of_mem _ hst)) found
    rw [List.map_cons, List.map_cons, Scratch.findPathLoop, Logged.result_bind, Logged.overruns_bind]
    by_cases hneg : (startVal e.2).2.toInt < 0
    · -- the tail is read before its start
      have hnone : startOf T (startVal e.2) = none := if_pos hneg
      rw [h.findPathUtil_of_neg he hneg hne, hnone, comesTo, Logged.result_lift, error_bind]
      exact ⟨fun hall => by simpa using hall none, fun _ => .inr rfl⟩
    · obtain ⟨st, hst, hloc, hval⟩ := h.locates_startOf he (not_lt.mp hneg)
      rw [hst, ← hval, comesTo, List.forall_mem_cons]
      obtain ⟨hok, hover⟩ := hloc.findPathUtil_cases hne hexact
      by_cases hfit : Fits key st
      · obtain ⟨found', hok, hex⟩ := hok hfit
        have hhead : ∃ st', some st = some st' ∧ Fits key st' := ⟨st, rfl, hfit⟩
        rw [and_iff_right hhead, hok, ok_bind, hex]
        cases hst : st.exact key with
        | true => exact ⟨fun _ => ⟨found', rfl⟩, fun hno => absurd (fun o ho => absurd ho List.not_mem_nil) hno⟩
        | false =>
          obtain ⟨ihok, ihover⟩ := ih (hex.trans hst)
          refine ⟨ihok, fun hno => (ihover hno).imp_left fun ho => .inr ⟨found', rfl, ?_⟩⟩
          rwa [hex, hst]
      · refine ⟨fun hall => ?_, fun _ => .inl (.inl (hover hfit))⟩
        obtain ⟨st', hst', hfit'⟩ := hall.1
        exact absurd (Option.some.inj hst' ▸ hfit') hfit

/-- What `tpm` lists for the first two characters of a key, whatever these are. -/
theorem Indexed.at_head? (h : s.Indexed T) (a : Byte) (key : Str) :
    s.tpm.at (a, keyByte key.head?) = (Forest.selected a (key.head?.filter (· ≠ 0)) T.starts).map startVal := by
  have hbyte : keyByte key.head? = keyByte (key.head?.filter (· ≠ 0)) := by
    cases key with
    | nil => rfl
    | cons b key =>
      by_cases hb : b = 0
      · rw [hb]; rfl
      · simp [Option.filter, hb]
  rw [hbyte]
  exact h.at_eq (by cases key <;> simp [Option.filter_eq_some_iff])

/-- **When the scratch arrays are not overrun**, and no tail is read before its start: if at each entry that the search
comes to the position is not negative and what is found fits. -/
theorem Indexed.safe_findPath_iff (h : s.Indexed T) (key : Str) (foundKeys : List Str) :
    (¬ (Scratch.findPath s key foundKeys).Overruns 100 ∧ (Scratch.findPath s key foundKeys).result ≠ .error .beforeStart) ↔
      ∀ o ∈ tried T key, ∃ st, o = some st ∧ Fits key st := by
  cases key with
  | nil =>
    have hlift : Scratch.findPath s [] foundKeys = liftM (Except.error Fault.outOfBounds : Except Fault FoundT) := rfl
    rw [hlift, Logged.result_lift, tried]
    simp
  | cons a key =>
    rw [Scratch.findPath_cons, h.at_head?, tried]
    have hsts : ∀ st ∈ Forest.selected a (key.head?.filter (· ≠ 0)) T.starts, ∃ e ∈ T.starts, e.2 = st := by
      intro st hst
      obtain ⟨e, he, rfl⟩ := List.mem_map.mp hst
      exact ⟨e, List.mem_of_mem_filter he, rfl⟩
    have hexact : (⟨foundKeys, false, 0⟩ : FoundT).exactMatch = false := rfl
    obtain ⟨hok, hno⟩ := h.findPathLoop_cases (List.cons_ne_nil a key) hsts hexact
    constructor
    · rintro ⟨hstay, hstart⟩
      by_contra hall
      exact (hno hall).elim hstay hstart
    · intro hall
      obtain ⟨found', hok⟩ := hok hall
      refine ⟨fun hover => ?_, by rw [hok]; simp⟩
      rw [(Scratch.guards_findPathLoop ..).stops hover] at hok
      cases hok

/-- **When the scratch arrays are not overrun.** For a file that can be read and a key, every
index that `find_path_util` and `traverse_down_util` write to `buf` and `path` is below 100,
and this is not left to what is read before the start of a tail, if and only if each entry
that the search comes to has a position that is not negative, from which, if the key is read
to its end, what is collected before it has at most 99 bytes, and so has, unless a whole word
was read, the key with each of its continuations. -/
theorem scratch_lt_iff {file : List Byte} (hs : fresh.readInput (some file) = .ok s) (key : Str) (foundKeys : List Str) :
    ((∀ i ∈ (Scratch.findPath s key foundKeys).log, i < 100) ∧
        (Scratch.findPath s key foundKeys).result ≠ .error .beforeStart) ↔
      ∀ o ∈ tried (Trie.empty.adds ((lines newline file).map firstColumn)) key, ∃ st, o = some st ∧ Fits key st := by
  obtain ⟨h, -⟩ := hasRead_of_readInput ready_fresh rfl rfl hs
  rw [← Logged.not_overruns_iff]
  exact h.indexed.safe_findPath_iff key foundKeys

theorem scratch_lt_iff_ab : ∃ s, fresh.readInput (some (ascii "abc\nab\n")) = .ok s ∧
    (((∀ i ∈ (Scratch.findPath s (ascii "ab") []).log, i < 100) ∧
        (Scratch.findPath s (ascii "ab") []).result ≠ .error .beforeStart) ↔
      ∀ o ∈ tried (Trie.empty.adds ((lines newline (ascii "abc\nab\n")).map firstColumn)) (ascii "ab"),
        ∃ st, o = some st ∧ Fits (ascii "ab") st) := by
  have hok : (fresh.readInput (some (ascii "abc\nab\n"))).isOk = true := by decide +kernel
  obtain ⟨s, hs⟩ := exists_ok_of_isOk hok
  exact ⟨s, hs, scratch_lt_iff hs _ []⟩

/-- A first column of 100 bytes: the key `aa` is read from its start, and the NUL behind the
word is written to `path[100]`. -/
theorem not_scratch_lt_100 : ∃ s, fresh.readInput (some (List.replicate 100 'a'.toUInt8)) = .ok s ∧
    ¬ ∀ i ∈ (Scratch.findPath s (ascii "aa") []).log, i < 100 := by
  have hrun : (do
      let s ← fresh.readInput (some (List.replicate 100 'a'.toUInt8))
      pure (decide (100 ∈ (Scratch.findPath s (ascii "aa") []).log))) = .ok true := by decide +kernel
  obtain ⟨s, hs, hlog⟩ := bind_eq_ok.mp hrun
  exact ⟨s, hs, fun h => absurd (h 100 (of_decide_eq_true (Except.ok.inj hlog))) (lt_irrefl 100)⟩

end SearchT

end InfixSearch
