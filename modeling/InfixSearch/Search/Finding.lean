import InfixSearch.Search.Walks

/-!
# What `find_path` finds

`find_path_util` reads the key down from a start position as `Forest.seek` does, and
reports what `Forest.found` lists, each behind the word before the position
(`findPathUtil_start`). `find_path` does so for every entry of `tpm` under the first two
characters of the key, up to the first that reads the key from the start of a word to
its end (`findPathFound_eq`).
-/

namespace InfixSearch

open Library

namespace SearchT

variable {s : SearchT Node2T} {T : Trie}

/-! ### Reading the key -/

/-- The loop that matches the key against a tail. -/
theorem matchTail_eq {t : Str} {k : ℕ} (hk : k ≤ t.length) (key : Str) :
    matchTail t k key = .ok (((k + agree (t.drop k) key : ℕ) : ℤ), key.drop (agree (t.drop k) key)) := by
  induction key generalizing k with
  | nil => simp [matchTail]
  | cons c key ih =>
    rw [matchTail]
    by_cases hlt : k < t.length
    · have hch : charAtInt t k = .ok t[k] := by
        rw [charAtInt, if_neg (by omega)]
        simp [charAt, hlt]
      rw [if_pos (by omega), hch, ok_bind, List.drop_eq_getElem_cons hlt, agree]
      split_ifs with hc
      · have := ih (k := k + 1) hlt
        push_cast at this
        rw [this]
        simp
        omega
      · rfl
    · rw [if_neg (by omega), List.drop_eq_nil_of_le (by omega)]
      simp

/-- What a call of `find_path_util` comes to, where the key is read down to `o`: nothing,
or a report on the node where the key ends, at some position of its tail. -/
def Reads (s : SearchT Node2T) (start : TreePosValT) (origKey : Str) (found : FoundT) (o : Option (Forest.Hit Ptr Byte))
    (r : Except Fault FoundT) : Prop :=
  match o with
  | none => r = .ok found
  | some hit => ∃ (t : Str) (par : Option Ptr) (k : ℕ), s.heap.At hit.id ⟨t, hit.leaf, par, hit.children.roots⟩ ∧
      Rep s.heap (some hit.id) hit.children ∧ t.drop k = hit.rest ∧
      r = s.reportMatch (if hit.exact then none else some hit.id) k [] start origKey { found with exactMatch := hit.exact }

/-- The same, of the call that logs. -/
def Scratch.Reads (s : SearchT Node2T) (start : TreePosValT) (origKey : Str) (found : FoundT)
    (o : Option (Forest.Hit Ptr Byte)) (x : Logged ℕ Fault FoundT) : Prop :=
  match o with
  | none => x = pure found
  | some hit => ∃ (t : Str) (par : Option Ptr) (k : ℕ), s.heap.At hit.id ⟨t, hit.leaf, par, hit.children.roots⟩ ∧
      Rep s.heap (some hit.id) hit.children ∧ t.drop k = hit.rest ∧
      x = Scratch.reportMatch s (if hit.exact then none else some hit.id) k [] start origKey { found with exactMatch := hit.exact }

theorem Scratch.Reads.result {start : TreePosValT} {origKey : Str} {found : FoundT} {o : Option (Forest.Hit Ptr Byte)}
    {x : Logged ℕ Fault FoundT} (h : Scratch.Reads s start origKey found o x) : s.Reads start origKey found o x.result := by
  cases o with
  | none =>
    obtain rfl : x = pure found := h
    rfl
  | some hit =>
    obtain ⟨t, par, k, ha, hc, hrest, rfl⟩ := h
    exact ⟨t, par, k, ha, hc, hrest, Scratch.result_reportMatch ..⟩

section Read

variable {start : TreePosValT} {origKey : Str} {found : FoundT} {fuel : ℕ}

variable {id : Ptr} {t key : Str} {leaf : Bool} {par : Option Ptr} {cs : Forest Ptr Byte} {k : ℕ}

/-- The key ends in the tail. -/
theorem findPathUtil_end (hid : s.heap.At id ⟨t, leaf, par, cs.roots⟩) (hne : key ≠ []) (hk : k ≤ t.length)
    (h : agree (t.drop k) key = key.length) :
    Scratch.findPathUtil s start origKey (fuel + 1) id k key found =
      Scratch.reportMatch s (if leaf && (t.drop (k + key.length)).isEmpty then none else some id) (k + key.length : ℕ) [] start
        origKey { found with exactMatch := leaf && (t.drop (k + key.length)).isEmpty } := by
  have hpos : ¬ key.length < 1 := by
    have := List.length_pos_iff.mpr hne
    omega
  have hle : k + key.length ≤ t.length := by
    have := agree_le_left (t.drop k) key
    rw [h, List.length_drop] at this
    omega
  have hexact : (((k + key.length : ℕ) : ℤ) == (t.length : ℤ)) = (t.drop (k + key.length)).isEmpty := by
    rw [Bool.eq_iff_iff, beq_iff_eq, List.isEmpty_iff, List.drop_eq_nil_iff]
    omega
  rw [Scratch.findPathUtil, if_neg hpos]
  simp only [hid.getTail, Logged.lift_ok_bind, matchTail_eq hk, h, List.drop_length, hid.getIsLeaf, hexact]
  cases leaf && (t.drop (k + key.length)).isEmpty <;> rfl

/-- The key parts from the tail. -/
theorem findPathUtil_part (hid : s.heap.At id ⟨t, leaf, par, cs.roots⟩) (hk : k ≤ t.length)
    (h : agree (t.drop k) key ≠ key.length) (hlt : agree (t.drop k) key < (t.drop k).length) :
    Scratch.findPathUtil s start origKey (fuel + 1) id k key found = pure found := by
  have hle := agree_le_right (t.drop k) key
  rw [List.length_drop] at hlt
  obtain ⟨c, newstr, e⟩ : ∃ c newstr, key.drop (agree (t.drop k) key) = c :: newstr :=
    List.exists_cons_of_ne_nil (by rw [ne_eq, List.drop_eq_nil_iff]; omega)
  rw [Scratch.findPathUtil, if_neg (by omega)]
  simp only [hid.getTail, Logged.lift_ok_bind, matchTail_eq hk, e]
  rw [if_pos (by omega)]

/-- The key goes on after the tail. -/
theorem findPathUtil_down (hid : s.heap.At id ⟨t, leaf, par, cs.roots⟩) (hc : Rep s.heap (some id) cs)
    (hkey : NulFree key) (hk : k ≤ t.length) (h : agree (t.drop k) key ≠ key.length)
    (hlt : ¬ agree (t.drop k) key < (t.drop k).length) :
    Scratch.findPathUtil s start origKey (fuel + 1) id k key found =
      match cs.rootOf (key.drop (t.drop k).length).head? with
      | none => pure found
      | some child => Scratch.findPathUtil s start origKey fuel child 0 (key.drop (t.drop k).length) found := by
  have hle := agree_le_right (t.drop k) key
  have hag : agree (t.drop k) key = (t.drop k).length := le_antisymm (agree_le_left _ _) (Nat.le_of_not_lt hlt)
  have hchild := Rep.getChild hid hc (hkey.drop (t.drop k).length)
  obtain ⟨c, newstr, e⟩ : ∃ c newstr, key.drop (t.drop k).length = c :: newstr :=
    List.exists_cons_of_ne_nil (by rw [ne_eq, List.drop_eq_nil_iff]; omega)
  rw [e] at hchild ⊢
  have hchild' : s.heap.getChild id c = .ok (cs.rootOf (c :: newstr).head?) := hchild
  rw [Scratch.findPathUtil, if_neg (by omega)]
  simp only [hid.getTail, Logged.lift_ok_bind, matchTail_eq hk, hag, e]
  rw [if_neg (by rw [List.length_drop]; omega), hchild']
  cases cs.rootOf (c :: newstr).head? <;> exact Logged.lift_ok_bind _ _

/-- Reading the key from position `k` of a node, given what the calls for its children
come to. -/
theorem findPathUtil_node (hid : s.heap.At id ⟨t, leaf, par, cs.roots⟩) (hc : Rep s.heap (some id) cs) (hne : key ≠ [])
    (hkey : NulFree key) (hd : t.drop k ≠ []) (ih : key.drop (t.drop k).length ≠ [] →
      ∀ c, cs.rootOf (key.drop (t.drop k).length).head? = some c →
      Scratch.Reads s start origKey found (cs.seek (key.drop (t.drop k).length))
        (Scratch.findPathUtil s start origKey fuel c 0 (key.drop (t.drop k).length) found)) :
    Scratch.Reads s start origKey found ((Forest.node id (t.drop k) leaf cs .nil).seek key)
      (Scratch.findPathUtil s start origKey (fuel + 1) id k key found) := by
  have hk : k ≤ t.length := by
    by_contra h
    exact hd (List.drop_eq_nil_of_le (by omega))
  refine Forest.seek_cases (t.drop k) key (fun hh => ?_) (fun hh h => ?_) (fun hh h hlt => ?_) (fun hh h hlt => ?_)
  · rw [Forest.seek_skip hh]
    have h0 : agree (t.drop k) key = 0 := agree_eq_zero hh
    exact findPathUtil_part hid hk (by rw [h0]; exact fun h => hne (List.length_eq_zero_iff.mp h.symm))
      (by rw [h0]; exact List.length_pos_iff.mpr hd)
  · rw [Forest.seek_end hh h]
    refine ⟨t, par, k + key.length, hid, hc, ?_, ?_⟩
    · rw [List.drop_drop]
    · rw [findPathUtil_end hid hne hk h, Forest.Hit.exact, List.drop_drop]
  · rw [Forest.seek_part hh h hlt]
    exact findPathUtil_part hid hk h hlt
  · rw [Forest.seek_down hh h hlt, findPathUtil_down hid hc hkey hk h hlt]
    cases hroot : cs.rootOf (key.drop (t.drop k).length).head? with
    | none =>
      rw [Forest.seek_eq_none_of_notMem (Forest.rootOf_eq_none_iff.mp hroot)]
      rfl
    | some c =>
      refine ih ?_ c hroot
      rw [ne_eq, List.drop_eq_nil_iff]
      have := agree_le_right (t.drop k) key
      omega

/-- Reading the key from a root. -/
theorem findPathUtil_root {F : Forest Ptr Byte} {p : Ptr} (hr : Rep s.heap par F) (hne : key ≠ []) (hkey : NulFree key)
    (hroot : F.rootOf key.head? = some p) (hfuel : key.length < fuel) :
    Scratch.Reads s start origKey found (F.seek key) (Scratch.findPathUtil s start origKey fuel p 0 key found) := by
  induction F generalizing par key p fuel with
  | nil => simp [Forest.rootOf] at hroot
  | node id t leaf cs sib ihc ihs =>
    obtain ⟨ha, hc, hs⟩ := hr
    rw [Forest.rootOf] at hroot
    split_ifs at hroot with hh
    · rw [Option.some.injEq] at hroot
      subst hroot
      have ht : t ≠ [] := by
        rintro rfl
        exact hne (List.head?_eq_none_iff.mp hh.symm)
      have hseek : (Forest.node id t leaf cs sib).seek key = (Forest.node id (t.drop 0) leaf cs .nil).seek key := by
        simp [Forest.seek, hh]
      obtain ⟨fuel, rfl⟩ := Nat.exists_eq_add_one_of_ne_zero (show fuel ≠ 0 by omega)
      rw [hseek]
      refine findPathUtil_node (k := 0) ha hc hne hkey ht fun hne' c hroot' => ihc hc hne' (hkey.drop _) hroot' ?_
      have h₁ := List.length_pos_iff.mpr ht
      have h₂ := List.length_pos_iff.mpr hne
      simp only [List.drop_zero, List.length_drop]
      omega
    · rw [Forest.seek_skip hh]
      exact ihs hs hne hkey hroot hfuel

end Read

/-! ### Reporting -/

/-- A start position in the heap, with a word at or below it. -/
structure Locates (s : SearchT Node2T) (st : Forest.Start Ptr Byte) : Prop where
  /-- The node, and the tail from the position on. -/
  node : ∃ t par, s.heap.At st.id ⟨t, st.leaf, par, st.children.roots⟩ ∧ t.drop st.idx = st.rest
  /-- The children of the node. -/
  children : Rep s.heap (some st.id) st.children
  /-- They are well formed. -/
  wf : st.children.WF
  /-- The position is inside the tail. -/
  rest : st.rest ≠ []
  /-- A word ends here or below. -/
  branch : st.leaf = true ∨ st.children ≠ .nil
  /-- The position fits in a `char`. -/
  idx : (narrow st.idx).toInt = st.idx
  /-- What `traverse_up` collects before the position. -/
  up : s.traverseUp (s.heap.length + 1) (st.id, narrow st.idx - 1) [] = .ok st.pre
  /-- It has no NUL. -/
  pre : NulFree st.pre
  /-- The recursion down the tree has fuel. -/
  depth : st.tree.depth ≤ s.heap.length

theorem Locates.of_seek {st : Forest.Start Ptr Byte} {key : Str} {hit : Forest.Hit Ptr Byte} (h : s.Locates st)
    (hne : key ≠ []) (hseek : st.tree.seek key = some hit) :
    hit.children.WF ∧ (hit.leaf = true ∨ hit.children ≠ .nil) ∧ hit.children.depth < s.heap.length := by
  obtain ⟨S, hS, -, hl, hc, -⟩ := Forest.exists_site_of_seek (u := []) hne hseek
  have hdepth := Forest.depth_site hS
  rw [← hl, ← hc]
  rw [Forest.Start.tree, Forest.mem_sites_node] at hS
  rcases hS with rfl | hS | hS
  · exact ⟨h.wf, h.branch, hdepth.trans_le h.depth⟩
  · obtain ⟨-, hbranch, hwf⟩ := h.wf.site hS
    refine ⟨hwf, hbranch.imp id ?_, hdepth.trans_le h.depth⟩
    rintro hw h0
    rw [h0] at hw
    exact absurd hw (by simp [Forest.width])
  · simp [Forest.sites] at hS

/-- What is found from a position fits in the two arrays of `find_path_util`, with a NUL:
the word before the position, and the key with each of its continuations. An exact match
needs only the first. -/
def Fits (key : Str) (st : Forest.Start Ptr Byte) : Prop :=
  ∀ hit, st.tree.seek key = some hit →
    st.pre.length < 100 ∧ (hit.exact = false → ∀ x ∈ hit.suffixes, (key ++ x).length < 100)

/-- An array with a string in it. -/
theorem writeAll_malloc {xs : Str} {n : ℕ} (h : xs.length ≤ n) :
    (malloc n).writeAll 0 xs = .ok (.starting xs (malloc (n - xs.length) : Block Byte)) := by
  have := Block.writeAll_starting ([] : Str) (show xs.length ≤ (malloc n : Block Byte).length by simpa [malloc] using h)
  simpa [Block.starting, malloc] using this

theorem overruns_putAll_malloc {xs : Str} {n : ℕ} (h : n < xs.length) : ((malloc n : Block Byte).putAll 0 xs).Overruns n := by
  have hlen : (malloc n : Block Byte).length = n := List.length_replicate
  have hover : ((malloc n : Block Byte).putAll 0 xs).Overruns (malloc n : Block Byte).length :=
    Block.overruns_putAll (by omega) (Nat.zero_le _)
  rwa [hlen] at hover

section Report

variable {st : Forest.Start Ptr Byte} {key t : Str} {hit : Forest.Hit Ptr Byte} {par : Option Ptr} {k : ℕ}

/-- The words below a hit, behind the key. -/
theorem words_hit (hit : Forest.Hit Ptr Byte) (key : Str) :
    (Forest.node hit.id hit.rest hit.leaf hit.children .nil).words key =
      ((Forest.node hit.id hit.rest hit.leaf hit.children .nil).words []).map (key ++ ·) := by
  rw [← Forest.words_append, List.append_nil]

/-- There is a word below a hit. -/
theorem Locates.exists_word (h : s.Locates st) (hne : key ≠ []) (hseek : st.tree.seek key = some hit) :
    ∃ w ∈ (Forest.node hit.id hit.rest hit.leaf hit.children .nil).words key, key ++ hit.rest <+: w := by
  obtain ⟨hwf, hbranch, -⟩ := h.of_seek hne hseek
  rcases hbranch with hl | hc
  · exact ⟨key ++ hit.rest, Forest.mem_words_node.mpr (.inl ⟨hl, rfl⟩), List.prefix_rfl⟩
  · obtain ⟨w, hw, hp⟩ := hwf.exists_word hc (key ++ hit.rest)
    exact ⟨w, Forest.mem_words_node.mpr (.inr (.inl hw)), hp⟩

/-- The words below a hit, as `traverse_down_util` lists them in an array of 100 bytes that
they fit in. -/
theorem Locates.traverseDownUtil_eq (h : s.Locates st) (hne : key ≠ []) (hkey : NulFree key)
    (hseek : st.tree.seek key = some hit) (ha : s.heap.At hit.id ⟨t, hit.leaf, par, hit.children.roots⟩)
    (hc : Rep s.heap (some hit.id) hit.children) (hrest : t.drop k = hit.rest)
    (hfit : ∀ w ∈ (Forest.node hit.id hit.rest hit.leaf hit.children .nil).words key, w.length < 100) :
    ∃ rest', (do
        let path ← (malloc 100 : Block Byte).writeAll 0 key
        s.traverseDownUtil (s.heap.length + 1) hit.id k path key.length []) =
      .ok (.starting key rest', (Forest.node hit.id hit.rest hit.leaf hit.children .nil).words key) := by
  obtain ⟨hwf, -, hdepth⟩ := h.of_seek hne hseek
  obtain ⟨w₀, hw₀, hp₀⟩ := h.exists_word hne hseek
  have hlen₀ := hfit w₀ hw₀
  have hple := hp₀.length_le
  rw [List.length_append] at hple
  have hlen : (t.drop k).length < (malloc (100 - key.length) : Block Byte).length := by
    rw [hrest, malloc, List.length_replicate]
    omega
  obtain ⟨rest', e, -⟩ := traverseDownUtil_node s.heap.length [] ha hkey hlen
    fun rest₁ suffixes hrest₁ => traverseChildren_eq _ rest₁ suffixes hc hwf (nulFree_append.mpr ⟨hkey, ha.nulFree.drop k⟩) hdepth.le
      fun w hw => by
        have := hfit w (Forest.mem_words_node.mpr (.inr (.inl (hrest ▸ hw))))
        simp only [malloc, List.length_append, List.length_replicate] at this hrest₁ ⊢
        omega
  rw [hrest] at e
  exact ⟨rest', by rw [writeAll_malloc (by omega), ok_bind]; exact e⟩

/-- A word below a hit that does not fit in the array is written past its end. -/
theorem Locates.overruns_traverseDownUtil (h : s.Locates st) (hne : key ≠ []) (hkey : NulFree key)
    (hseek : st.tree.seek key = some hit) (ha : s.heap.At hit.id ⟨t, hit.leaf, par, hit.children.roots⟩)
    (hc : Rep s.heap (some hit.id) hit.children) (hrest : t.drop k = hit.rest)
    (hlong : ∃ w ∈ (Forest.node hit.id hit.rest hit.leaf hit.children .nil).words key, 100 ≤ w.length) :
    ((malloc 100 : Block Byte).putAll 0 key).Overruns 100 ∨ ∃ path, (malloc 100 : Block Byte).writeAll 0 key = .ok path ∧
      (Scratch.traverseDownUtil s (s.heap.length + 1) hit.id k path key.length []).Overruns 100 := by
  obtain ⟨hwf, -, hdepth⟩ := h.of_seek hne hseek
  rcases Nat.lt_or_ge 100 key.length with hlt | hge
  · exact .inl (overruns_putAll_malloc hlt)
  · have hlen : key.length + (malloc (100 - key.length) : Block Byte).length = 100 := by simp [malloc]; omega
    refine .inr ⟨_, writeAll_malloc hge, ?_⟩
    rw [← hrest] at hlong
    refine SearchT.overruns_traverseDownUtil _ _ ha hkey hlen hlong fun rest₁ suffixes hrest₁ hw => ?_
    exact overruns_traverseChildren _ rest₁ suffixes hc hwf (nulFree_append.mpr ⟨hkey, ha.nulFree.drop k⟩) hdepth.le hrest₁ hw

/-- The report on a node where the key ends. -/
theorem reportMatch_eq (h : s.Locates st) (hne : key ≠ []) (hkey : NulFree key) (hseek : st.tree.seek key = some hit)
    (ha : s.heap.At hit.id ⟨t, hit.leaf, par, hit.children.roots⟩) (hc : Rep s.heap (some hit.id) hit.children)
    (hrest : t.drop k = hit.rest) (hfit : Fits key st) (found : FoundT) :
    s.reportMatch (if hit.exact then none else some hit.id) k [] (startVal st) key { found with exactMatch := hit.exact } =
      .ok ⟨found.foundKeys ++ hit.suffixes.map (st.pre ++ key ++ ·), hit.exact && st.pre.isEmpty, found.noSuffix⟩ := by
  obtain ⟨hpre, hsuf⟩ := hfit hit hseek
  obtain ⟨c, rest, hmalloc⟩ : ∃ c rest, (malloc (100 - st.pre.length) : Block Byte) = c :: rest :=
    List.exists_cons_of_ne_nil (by simp [malloc]; omega)
  have hbuf : (malloc 100 : Block Byte).writeAll 0 st.pre = .ok (.starting st.pre (c :: rest)) := by
    rw [writeAll_malloc hpre.le, hmalloc]
  rw [reportMatch, startVal]
  simp only [h.up, ok_bind, hbuf, Block.write_starting, cstr_starting h.pre]
  cases hex : hit.exact with
  | true =>
    simp only [Forest.Hit.suffixes, hex, if_true]
    cases hpre : st.pre <;> simp
  | false =>
    have hsuffixes : hit.suffixes = (Forest.node hit.id hit.rest hit.leaf hit.children .nil).words [] := by
      rw [Forest.Hit.suffixes, hex]; rfl
    have hwords := words_hit hit key
    rw [← hsuffixes] at hwords
    obtain ⟨rest', hdown⟩ := h.traverseDownUtil_eq hne hkey hseek ha hc hrest fun w hw => by
      rw [hwords, List.mem_map] at hw
      obtain ⟨x, hx, rfl⟩ := hw
      exact hsuf hex x hx
    rw [bind_eq_ok] at hdown
    obtain ⟨path, hpath, hdown⟩ := hdown
    obtain ⟨w₀, hw₀, -⟩ := h.exists_word hne hseek
    have hpos := List.length_pos_of_mem hw₀
    simp only [Bool.false_eq_true, if_false, hpath, ok_bind, hdown, pure_ok, if_pos hpos]
    cases hpre : st.pre <;> simp [hwords]

/-- The report on a node where the key ends, when the words do not fit. -/
theorem overruns_reportMatch (h : s.Locates st) (hne : key ≠ []) (hkey : NulFree key) (hseek : st.tree.seek key = some hit)
    (ha : s.heap.At hit.id ⟨t, hit.leaf, par, hit.children.roots⟩) (hc : Rep s.heap (some hit.id) hit.children)
    (hrest : t.drop k = hit.rest) (hfit : ¬ Fits key st) (found : FoundT) :
    (Scratch.reportMatch s (if hit.exact then none else some hit.id) k [] (startVal st) key found).Overruns 100 := by
  unfold Scratch.reportMatch startVal
  simp only [h.up, Logged.lift_ok_bind]
  apply Logged.overruns_bind.mpr
  rcases Nat.lt_or_ge 100 st.pre.length with hlt | hge
  · exact .inl (overruns_putAll_malloc hlt)
  refine .inr ⟨_, (Block.result_putAll _ _ _).trans (writeAll_malloc hge), ?_⟩
  apply Logged.overruns_bind.mpr
  rcases Nat.lt_or_ge st.pre.length 100 with hgt | hle
  · -- a word below the node is too long for the second array
    obtain ⟨hex, x, hx, hlong⟩ : hit.exact = false ∧ ∃ x ∈ hit.suffixes, 100 ≤ (key ++ x).length := by
      by_contra hno
      refine hfit fun hit' hseek' => ?_
      rw [hseek, Option.some.injEq] at hseek'
      subst hseek'
      exact ⟨hgt, fun hex x hx => not_le.mp fun hle => hno ⟨hex, x, hx, hle⟩⟩
    obtain ⟨c, rest, hmalloc⟩ : ∃ c rest, (malloc (100 - st.pre.length) : Block Byte) = c :: rest :=
      List.exists_cons_of_ne_nil (by simp [malloc]; omega)
    have hsuffixes : hit.suffixes = (Forest.node hit.id hit.rest hit.leaf hit.children .nil).words [] := by
      rw [Forest.Hit.suffixes, hex]; rfl
    have hdown := h.overruns_traverseDownUtil hne hkey hseek ha hc hrest
      ⟨key ++ x, by rw [words_hit, ← hsuffixes]; exact List.mem_map_of_mem hx, hlong⟩
    rw [hmalloc]
    refine .inr ⟨_, (Block.result_put _ _ _).trans (Block.write_starting _ c rest 0), ?_⟩
    simp only [cstr_starting h.pre, Logged.lift_ok_bind, hex, Bool.false_eq_true, if_false]
    rcases hdown with hover | ⟨path, hpath, hover⟩
    · exact Logged.overruns_bind.mpr (.inl hover)
    · apply Logged.overruns_bind.mpr
      refine .inr ⟨path, (Block.result_putAll _ _ _).trans hpath, ?_⟩
      exact Logged.overruns_bind.mpr (.inl hover)
  · exact .inl (Block.overruns_put.mpr hle)

/-- A call of `find_path_util` from a start position reads the key down from it. -/
theorem reads_start (h : s.Locates st) (hne : key ≠ []) (hkey : NulFree key) (found : FoundT) :
    Scratch.Reads s (startVal st) key found (st.tree.seek key)
      (Scratch.findPathUtil s (startVal st) key (key.length + 1) (startVal st).1 (startVal st).2.toInt key found) := by
  obtain ⟨t, par, ha, hrest⟩ := h.node
  have hd : t.drop st.idx ≠ [] := by rw [hrest]; exact h.rest
  have hidx : (startVal st).2.toInt = (st.idx : ℤ) := h.idx
  have hreads : Scratch.Reads s (startVal st) key found ((Forest.node st.id (t.drop st.idx) st.leaf st.children .nil).seek key)
      (Scratch.findPathUtil s (startVal st) key (key.length + 1) st.id st.idx key found) :=
    findPathUtil_node ha h.children hne hkey hd fun hne' c hroot => findPathUtil_root h.children hne' (hkey.drop _) hroot (by
      have h₁ := List.length_pos_iff.mpr hd
      have h₂ := List.length_pos_iff.mpr hne
      rw [List.length_drop]
      omega)
  rw [hrest] at hreads
  rw [hidx]
  exact hreads

/-- Where what is found does not fit, it is written past the end of an array. -/
theorem overruns_findPathUtil (h : s.Locates st) (hne : key ≠ []) (hkey : NulFree key) (found : FoundT) (hfit : ¬ Fits key st) :
    (Scratch.findPathUtil s (startVal st) key (key.length + 1) (startVal st).1 (startVal st).2.toInt key found).Overruns 100 := by
  have hreads := reads_start h hne hkey found
  cases hseek : st.tree.seek key with
  | none => exact absurd (fun hit hh => by rw [hseek] at hh; cases hh) hfit
  | some hit =>
    rw [hseek] at hreads
    obtain ⟨t, par, k, ha, hc, hrest, e⟩ := hreads
    rw [e]
    exact overruns_reportMatch h hne hkey hseek ha hc hrest hfit _

/-- A call of `find_path_util` from a start position: what is found is appended, and
`exact_match` says whether the key was read from the start of a word to its end. -/
theorem findPathUtil_start (h : s.Locates st) (hne : key ≠ []) (hkey : NulFree key) (found : FoundT)
    (hexact : found.exactMatch = false) :
    (Fits key st → s.findPathUtil (startVal st) key (key.length + 1) (startVal st).1 (startVal st).2.toInt key found =
      .ok ⟨found.foundKeys ++ st.answers key, st.exact key, found.noSuffix⟩) ∧
    (¬ Fits key st → s.findPathUtil (startVal st) key (key.length + 1) (startVal st).1 (startVal st).2.toInt key found =
      .error .outOfBounds) := by
  have hreads := (reads_start h hne hkey found).result
  rw [Scratch.result_findPathUtil] at hreads
  refine ⟨fun hfit => ?_, fun hfit => ?_⟩
  · rw [Forest.Start.exact, Forest.Start.answers, Forest.found]
    cases hseek : st.tree.seek key with
    | none =>
      rw [hseek] at hreads
      refine (show _ = Except.ok found from hreads).trans ?_
      simp [← hexact]
    | some hit =>
      rw [hseek] at hreads
      obtain ⟨t, par, k, ha, hc, hrest, e⟩ := hreads
      exact e.trans (reportMatch_eq h hne hkey hseek ha hc hrest hfit found)
  · rw [← Scratch.result_findPathUtil]
    exact (Scratch.guards_findPathUtil ..).stops (overruns_findPathUtil h hne hkey found hfit)

end Report

/-! ### Going through the entries -/

/-- The loop of `find_path` visits start positions up to the first exact one. -/
theorem findPathLoop_eq {key : Str} {sts : List (Forest.Start Ptr Byte)} (hst : ∀ st ∈ sts, s.Locates st) (hne : key ≠ [])
    (hkey : NulFree key) (foundKeys : List Str) (n : ℕ) :
    ((∀ st ∈ Forest.visited key sts, Fits key st) → s.findPathLoop key (sts.map startVal) ⟨foundKeys, false, n⟩ =
      .ok ⟨foundKeys ++ (Forest.visited key sts).flatMap (Forest.Start.answers key), sts.any (·.exact key), n⟩) ∧
    ((∃ st ∈ Forest.visited key sts, ¬ Fits key st) → s.findPathLoop key (sts.map startVal) ⟨foundKeys, false, n⟩ =
      .error .outOfBounds) := by
  induction sts generalizing foundKeys with
  | nil => simp [Forest.visited, findPathLoop]
  | cons st sts ih =>
    obtain ⟨hok, herr⟩ := findPathUtil_start (hst st List.mem_cons_self) hne hkey ⟨foundKeys, false, n⟩ rfl
    obtain ⟨ihok, iherr⟩ := ih (fun st' hst' => hst st' (List.mem_cons_of_mem _ hst')) (foundKeys ++ st.answers key)
    rw [List.map_cons, findPathLoop, Forest.visited]
    cases hex : st.exact key with
    | true =>
      refine ⟨fun hfit => ?_, ?_⟩
      · rw [hok (hfit st List.mem_cons_self), ok_bind, hex]
        simp [hex]
      · rintro ⟨st', hm, hfit⟩
        simp only [if_true, List.mem_singleton] at hm
        subst hm
        rw [herr hfit, error_bind]
    | false =>
      simp only [Bool.false_eq_true, if_false]
      refine ⟨fun hfit => ?_, ?_⟩
      · rw [hok (hfit st List.mem_cons_self), ok_bind, hex]
        simp only [Bool.false_eq_true, if_false]
        rw [ihok fun st' hst' => hfit st' (List.mem_cons_of_mem _ hst')]
        simp [hex]
      · rintro ⟨st', hm, hfit⟩
        by_cases hself : Fits key st
        · rw [hok hself, ok_bind, hex]
          refine iherr ⟨st', (List.mem_cons.mp hm).resolve_left ?_, hfit⟩
          rintro rfl
          exact hfit hself
        · rw [herr hself, error_bind]

/-- The heap holds the trie, and `tpm` lists its start positions. -/
structure Indexed (s : SearchT Node2T) (T : Trie) : Prop where
  /-- The trie. -/
  holds : s.Holds T
  /-- The index. -/
  tpm : s.tpm = pushStarts ∅ T.starts

/-- Indexed once. -/
theorem Holds.indexed {s' : SearchT Node2T} (h : s.Holds T) (htpm : s.tpm = ∅) (hs : s.indexHead = .ok s') :
    s'.Indexed T := by
  obtain ⟨s'', e, h', g⟩ := h.indexHead_eq
  rw [hs, Except.ok.injEq] at e
  subst e
  exact ⟨h', by rw [g.tpm, htpm]⟩

/-- A run that added a word can be indexed. -/
theorem indexed_of_adds {ws : List Str} (hws : ∀ w ∈ ws, NulFree w) (hne : ws ≠ []) {s₀ : SearchT Node2T}
    (hs₀ : fresh.adds ws = .ok s₀) :
    s₀.Holds (Trie.empty.adds ws) ∧ ∃ s, s₀.indexHead = .ok s ∧ s.Indexed (Trie.empty.adds ws) := by
  have h₀ := ready_fresh.holds_of_adds hne hws hs₀
  obtain ⟨s, hs, -⟩ := h₀.indexHead_eq
  exact ⟨h₀, s, hs, h₀.indexed (others_of_adds hws hs₀).tpm hs⟩

/-- What is kept of the tails above a node of a forest in the heap has no NUL. -/
theorem nulFree_pre {f : Str → Str} (hf : ∀ t, NulFree t → NulFree (f t)) {F : Forest Ptr Byte} {par : Option Ptr} {u : Str}
    (hr : Rep s.heap par F) (hu : NulFree u) {S : Forest.Site Ptr Byte} (hS : S ∈ F.sitesBy f u) : NulFree S.pre := by
  induction F generalizing par u with
  | nil => simp [Forest.sitesBy] at hS
  | node id t leaf cs sib ihc ihs =>
    obtain ⟨ha, hc, hs⟩ := hr
    rw [Forest.mem_sitesBy_node] at hS
    rcases hS with rfl | hS | hS
    · exact hu
    · exact ihc hc (nulFree_append.mpr ⟨hu, hf t ha.nulFree⟩) hS
    · exact ihs hs hu hS

/-! ### Entries as they are kept -/

/-- The nodes of a trie, each under what `traverse_up` collects above it. -/
def climbs (T : Trie) : List (Forest.Site Ptr Byte) :=
  ⟨[], 0, [sentinel], T.leaf, T.forest⟩ :: T.forest.sitesBy climbed []

/-- The start position that an entry of `tpm` is used as: none, where the `char` made the
position negative. -/
def startOf (T : Trie) (v : TreePosValT) : Option (Forest.Start Ptr Byte) :=
  if v.2.toInt < 0 then none
  else (climbs T).find? (·.id = v.1) |>.map fun S => Forest.startAt S.pre S.id S.tail S.leaf S.children v.2.toInt.toNat

theorem startOf_eq (hn : T.tree.ids.Nodup) {S : Forest.Site Ptr Byte} (hS : S ∈ climbs T) {j : Int8} (hj : 0 ≤ j.toInt) :
    startOf T (S.id, j) = some (Forest.startAt S.pre S.id S.tail S.leaf S.children j.toInt.toNat) := by
  have hids : (climbs T).map Forest.Site.id = T.tree.ids := by simp [climbs, Trie.tree, Forest.ids]
  obtain ⟨S', hS'⟩ : ∃ S', (climbs T).find? (·.id = S.id) = some S' := by
    rw [← Option.isSome_iff_exists, List.find?_isSome]
    exact ⟨S, hS, decide_eq_true rfl⟩
  have hid : S'.id = S.id := by simpa using List.find?_some hS'
  have heq : S' = S := List.inj_on_of_nodup_map (hids ▸ hn) (List.mem_of_find?_eq_some hS') hS hid
  rw [startOf, if_neg (not_lt.mpr hj), hS', heq, Option.map_some]

/-- The node of an entry, under what is collected above it. -/
theorem exists_climb {e : StartEntry} (hn : T.forest.ids.Nodup) (he : e ∈ T.starts) :
    ∃ S ∈ climbs T, S.id = e.2.id ∧ e.2.idx < S.tail.length ∧ (S.leaf = true ∨ S.children ≠ .nil) ∧
      (T.forest.TailsLe 128 → e.2.idx < 128 ∧ e.2 = Forest.startAt S.pre S.id S.tail S.leaf S.children e.2.idx) := by
  rcases Forest.mem_starts T.wf he with ⟨hst, hkey⟩ | ⟨S, hS, i, hi, hst, -⟩
  · rw [hst]
    refine ⟨_, List.mem_cons_self, rfl, Nat.zero_lt_one, .inr ?_, fun _ => ⟨Nat.zero_lt_succ 127, rfl⟩⟩
    intro h0
    have h0' : T.forest = .nil := h0
    rw [h0'] at hkey
    simp [Forest.keys] at hkey
  · obtain ⟨S', hS', hid⟩ : ∃ S' ∈ T.forest.sitesBy climbed [], S'.id = S.id := by
      rw [← List.mem_map, Forest.map_id_sitesBy]
      exact Forest.Site.id_mem hS
    obtain ⟨w, hw⟩ := Forest.exists_site_of_mem_sitesBy hS' []
    have heq : { S' with pre := w } = S := Forest.site_unique hn hw hS hid
    subst heq
    have hbranch := T.wf.branch hw
    rw [hst]
    refine ⟨S', List.mem_cons_of_mem _ hS', rfl, hi, hbranch, fun ht => ?_⟩
    -- nothing is cut off
    rw [Forest.sitesBy_eq_sites fun S hS => climbed_eq_self (ht.site hS)] at hS'
    have heq : S' = { S' with pre := w } := Forest.site_unique hn hS' hw rfl
    have hpre : w = S'.pre := (congrArg Forest.Site.pre heq).symm
    subst hpre
    exact ⟨hi.trans_le (ht.site hw), rfl⟩

/-- Up from a node under the head. -/
theorem Holds.traverseUp_climb (h : s.Holds T) {S : Forest.Site Ptr Byte} (hS : S ∈ T.forest.sitesBy climbed []) {i : ℕ}
    (hi : i ≤ S.tail.length) {j : Int8} (hj : (j.toInt + 1).toNat = i) {fuel : ℕ} (hfuel : s.heap.length < fuel) (up : Str) :
    s.traverseUp fuel (S.id, j) up = .ok (S.pre ++ S.tail.take i ++ up) := by
  obtain ⟨ha, hc, -⟩ := h.rep
  have hsize : T.forest.depth + 1 ≤ s.heap.length := by
    have h₁ := T.forest.depth_le_length_ids
    have h₂ := h.owns.size
    unfold Trie.size at h₂
    omega
  refine traverseUp_site (u := []) (n := 1) hc ?_ ha.getTail ?_ hS hi hj (by omega) up
  · intro q hq hh
    rw [h.head, Option.some.injEq] at hh
    exact h.owns.nodup_forest.1 (hh ▸ hq)
  · intro fuel hf up
    obtain ⟨fuel, rfl⟩ := Nat.exists_eq_add_one_of_ne_zero (show fuel ≠ 0 by omega)
    rw [traverseUp, if_pos h.head.symm, pure_ok, List.nil_append]

/-- A position of a node that a `char` can hold is a start position in the heap. -/
theorem Indexed.locates_climb (h : s.Indexed T) {S : Forest.Site Ptr Byte} (hS : S ∈ climbs T)
    (hbranch : S.leaf = true ∨ S.children ≠ .nil) {i : ℕ} (hi : i < S.tail.length) (hchar : i < 128) :
    s.Locates (Forest.startAt S.pre S.id S.tail S.leaf S.children i) := by
  obtain ⟨ha, hc, -⟩ := h.holds.rep
  have hsize : T.forest.depth + 1 ≤ s.heap.length := by
    have h₁ := T.forest.depth_le_length_ids
    have h₂ := h.holds.owns.size
    unfold Trie.size at h₂
    omega
  have hrest : S.tail.drop i ≠ [] := by rwa [ne_eq, List.drop_eq_nil_iff, not_le]
  have hidx : (narrow i).toInt = i := toInt_narrow (by omega) (by omega)
  rcases List.mem_cons.mp hS with rfl | hS
  · obtain rfl : i = 0 := Nat.lt_one_iff.mp hi
    have hup : s.traverseUp (s.heap.length + 1) (0, narrow (0 : ℕ) - 1) [] = .ok [] := by
      rw [traverseUp, if_pos h.holds.head.symm, pure_ok]
    refine ⟨⟨[sentinel], none, ha, rfl⟩, hc, T.wf, hrest, hbranch, hidx, hup, nulFree_nil, ?_⟩
    simpa [Forest.Start.tree, Forest.depth, Forest.startAt] using hsize
  · obtain ⟨w, hw⟩ := Forest.exists_site_of_mem_sitesBy hS []
    obtain ⟨q, haS, hcS⟩ := hc.site hw
    obtain ⟨-, -, hwf⟩ := T.wf.site hw
    refine ⟨⟨S.tail, q, haS, rfl⟩, hcS, hwf, hrest, hbranch, hidx, ?_, ?_, ?_⟩
    · have hj : ((narrow i - 1).toInt + 1).toNat = i := by rw [toInt_narrow_pred hchar, Int.toNat_natCast]
      have hcollect := h.holds.traverseUp_climb hS hi.le hj (Nat.lt_succ_self _) []
      rw [List.append_nil] at hcollect
      exact hcollect
    · exact nulFree_append.mpr ⟨nulFree_pre (fun t ht => ht.take _) hc nulFree_nil hS, haS.nulFree.take i⟩
    · have hdepth := Forest.depth_site hw
      simp only [Forest.Start.tree, Forest.startAt, Forest.depth] at hdepth ⊢
      omega

/-- An entry whose position the `char` did not make negative is used as a start position in
the heap. -/
theorem Indexed.locates_startOf (h : s.Indexed T) {e : StartEntry} (he : e ∈ T.starts)
    (hj : 0 ≤ (startVal e.2).2.toInt) :
    ∃ st, startOf T (startVal e.2) = some st ∧ s.Locates st ∧ startVal st = startVal e.2 := by
  obtain ⟨S, hS, hid, hidx, hbranch, -⟩ := exists_climb h.holds.owns.nodup_forest.2 he
  have hlt := (startVal e.2).2.toInt_lt
  have hle : (startVal e.2).2.toInt ≤ e.2.idx := toInt_narrow_le (by omega)
  have hlt' : (startVal e.2).2.toInt.toNat < S.tail.length := by omega
  refine ⟨_, ?_, h.locates_climb hS hbranch hlt' (by omega), ?_⟩
  · rw [← startOf_eq h.holds.owns.nodup hS hj, hid]
    rfl
  · rw [startVal, Forest.startAt, hid, Int.toNat_of_nonneg hj, narrow_toInt]
    rfl

/-- With no tail longer than 128 bytes, every entry of the index is a start position in the
heap. -/
theorem Indexed.locates (h : s.Indexed T) (ht : T.forest.TailsLe 128) {e : StartEntry} (he : e ∈ T.starts) :
    s.Locates e.2 := by
  obtain ⟨S, hS, -, hidx, hbranch, hself⟩ := exists_climb h.holds.owns.nodup_forest.2 he
  obtain ⟨hchar, heq⟩ := hself ht
  rw [heq]
  exact h.locates_climb hS hbranch hidx hchar

/-- The character after a start position is not NUL. -/
theorem Indexed.next_ne (h : s.Indexed T) {e : StartEntry} (he : e ∈ T.starts) : e.1 ≠ some 0 := by
  obtain ⟨-, hc, -⟩ := h.holds.rep
  rcases Forest.mem_starts T.wf he with ⟨-, hk⟩ | ⟨S, hS, i, -, -, ⟨-, hk⟩ | ⟨-, hk⟩⟩
  · exact hc.key_ne hk
  · obtain ⟨q, haS, -⟩ := hc.site hS
    intro h0
    exact haS.nulFree (List.mem_of_getElem? (hk.symm.trans h0))
  · obtain ⟨q, -, hcS⟩ := hc.site hS
    exact hcS.key_ne hk

theorem rest_ne_nil {e : StartEntry} (he : e ∈ T.starts) : e.2.rest ≠ [] := by
  rcases Forest.mem_starts T.wf he with ⟨hst, -⟩ | ⟨S, -, i, hi, hst, -⟩
  · rw [hst]
    exact List.cons_ne_nil _ _
  · rw [hst]
    rwa [Forest.startAt, ne_eq, List.drop_eq_nil_iff, not_le]

/-- What `tpm` lists for a key are the start positions with its first two characters. -/
theorem Indexed.at_eq (h : s.Indexed T) {a : Byte} {b : Option Byte} (hb : b ≠ some 0) :
    s.tpm.at (a, keyByte b) = (Forest.selected a b T.starts).map startVal := by
  rw [h.tpm, at_pushStarts, Forest.selected, List.map_map]
  have hempty : TreePosMapT.at ∅ (a, keyByte b) = [] := rfl
  rw [hempty, List.nil_append]
  congr 1
  refine List.filter_congr fun e he => ?_
  obtain ⟨x, r, hrest⟩ := List.exists_cons_of_ne_nil (rest_ne_nil he)
  have hx : keyByte (some x) = x := rfl
  simp [startKey, keyByte_inj_of_ne (h.next_ne he) hb, hrest, hx]

/-- `find_path` goes through what `tpm` lists for the first two characters of the key. -/
theorem Scratch.findPath_cons (s : SearchT Node2T) (a : Byte) (key : Str) (foundKeys : List Str) :
    Scratch.findPath s (a :: key) foundKeys =
      Scratch.findPathLoop s (a :: key) (s.tpm.at (a, keyByte key.head?)) ⟨foundKeys, false, 0⟩ := by
  have h₀ : charAt (a :: key) 0 = .ok a := rfl
  have h₁ : charAt (a :: key) 1 = .ok (keyByte key.head?) := charAt_eq (by simp)
  unfold Scratch.findPath TreePosMapT.at
  rw [h₀, h₁, Logged.lift_ok_bind, Logged.lift_ok_bind]
  dsimp only
  cases s.tpm.lookup (a, keyByte key.head?) <;> rfl

/-- `find_path` goes through the start positions with the key's first two characters, up
to the first exact one. -/
theorem Indexed.findPathFound_eq (h : s.Indexed T) (ht : T.forest.TailsLe 128) {a : Byte} {key : Str}
    (hkey : NulFree (a :: key)) (foundKeys : List Str) :
    ((∀ st ∈ Forest.visited (a :: key) (Forest.selected a key.head? T.starts), Fits (a :: key) st) →
      s.findPathFound (a :: key) foundKeys = .ok ⟨foundKeys ++
        (Forest.visited (a :: key) (Forest.selected a key.head? T.starts)).flatMap (Forest.Start.answers (a :: key)),
        (Forest.selected a key.head? T.starts).any (·.exact (a :: key)), 0⟩) ∧
    ((∃ st ∈ Forest.visited (a :: key) (Forest.selected a key.head? T.starts), ¬ Fits (a :: key) st) →
      s.findPathFound (a :: key) foundKeys = .error .outOfBounds) := by
  have hst : ∀ st ∈ Forest.selected a key.head? T.starts, s.Locates st := by
    intro st hst
    rw [Forest.selected, List.mem_map] at hst
    obtain ⟨e, he, rfl⟩ := hst
    exact h.locates ht (List.mem_of_mem_filter he)
  have hb : key.head? ≠ some 0 := fun h0 => (nulFree_cons.mp hkey).2 (List.mem_of_mem_head? h0)
  rw [← Scratch.result_findPath, Scratch.findPath_cons, Scratch.result_findPathLoop, h.at_eq hb]
  exact findPathLoop_eq hst (by simp) hkey foundKeys 0

end SearchT

end InfixSearch
