import InfixSearch.Search.Indexing
import InfixSearch.Search.Scratch

/-!
# Walks up and down the trie

`traverse_up` from a position of a tail collects what is before it in the tail, and of
each tail above as much as a position kept in a `char` lets it (`traverseUp_site`): with
no tail longer than 128 bytes that is the word before the position.
`traverse_down_util` lists the words that end below a node (`traverseChildren_eq`), in
a scratch array that all its calls share: a call leaves the part of the array above its
own node as it was. A word that does not fit overruns the array
(`overruns_traverseChildren`).
-/

namespace InfixSearch

open Library

namespace SearchT

variable {s : SearchT Node2T} {T : Trie}

/-! ### Positions kept in a `char` -/

theorem toInt_narrow {i : ℤ} (h : -128 ≤ i) (h' : i < 128) : (narrow i).toInt = i := Int8.toInt_ofInt_of_le h h'

/-- The position before one that a `char` can hold. -/
theorem toInt_narrow_pred {i : ℕ} (h : i < 128) : (narrow i - 1).toInt + 1 = i := by
  have hn : (narrow i).toInt = i := toInt_narrow (by omega) (by omega)
  have h1 : (1 : Int8).toInt = 1 := rfl
  rw [Int8.toInt_sub, hn, h1]
  simp only [Int.bmod]
  omega

theorem narrow_toInt (j : Int8) : narrow j.toInt = j := Int8.ofInt_toInt j

/-- A position in a `char` is at most the one it was made of. -/
theorem toInt_narrow_le {i : ℤ} (h : -128 ≤ i) : (narrow i).toInt ≤ i := by
  rw [narrow, Int8.toInt_ofInt, Int.bmod_def]
  simp only [Int8.size]
  split_ifs <;> omega

/-! ### Up -/

/-- What `traverse_up` collects of a tail above the one it started in. -/
def climbed (t : Str) : Str := t.take ((narrow (t.length - 1)).toInt + 1).toNat

theorem climbed_eq_self {t : Str} (h : t.length ≤ 128) : climbed t = t := by
  rw [climbed, toInt_narrow (by omega) (by omega), List.take_of_length_le (by omega)]

theorem pushTail_eq {t : Str} {n : ℕ} (h : n ≤ t.length) (up : Str) : pushTail t n up = .ok (t.take n ++ up) := by
  induction n generalizing up with
  | zero => rfl
  | succ n ih =>
    have hn : n < t.length := h
    rw [pushTail, charAt, dif_pos hn, ok_bind, ih hn.le]
    rw [List.take_add_one, List.getElem?_eq_getElem hn, List.append_assoc]
    rfl

/-- The walk up from a node that is not the head. -/
theorem traverseUp_succ {fuel : ℕ} {p par : Ptr} {v : NodeView} {tp : Str} {i : ℕ} {j : Int8} (hp : s.heap.At p v)
    (hhead : s.head ≠ some p) (hpar : v.parent = some par) (htp : s.heap.getTail par = .ok tp) (hi : i ≤ v.tail.length)
    (hj : (j.toInt + 1).toNat = i) (up : Str) :
    s.traverseUp (fuel + 1) (p, j) up = s.traverseUp fuel (par, narrow (tp.length - 1)) (v.tail.take i ++ up) := by
  rw [traverseUp, if_neg (Ne.symm hhead)]
  simp only [hp.getTail, ok_bind, hj, pushTail_eq hi, hp.getParent, hpar, htp]

/-- Below a node from whose end `u` is collected, `u` and what is passed on the way is. -/
theorem traverseUp_site {F : Forest Ptr Byte} {par : Ptr} {u tp : Str} {n : ℕ} (hr : Rep s.heap (some par) F)
    (hhead : ∀ q ∈ F.ids, s.head ≠ some q) (htp : s.heap.getTail par = .ok tp)
    (hpar : ∀ fuel, n ≤ fuel → ∀ up, s.traverseUp fuel (par, narrow (tp.length - 1)) up = .ok (u ++ up))
    {S : Forest.Site Ptr Byte} (hS : S ∈ F.sitesBy climbed u) {i : ℕ} (hi : i ≤ S.tail.length) {j : Int8}
    (hj : (j.toInt + 1).toNat = i) {fuel : ℕ} (hfuel : n + F.depth ≤ fuel) (up : Str) :
    s.traverseUp fuel (S.id, j) up = .ok (S.pre ++ S.tail.take i ++ up) := by
  induction F generalizing par u tp n with
  | nil => simp [Forest.sitesBy] at hS
  | node id t leaf cs sib ihc ihs =>
    obtain ⟨ha, hc, hs⟩ := hr
    simp only [Forest.ids, List.mem_cons, List.mem_append] at hhead
    rw [Forest.depth] at hfuel
    have hself : ∀ {i : ℕ} {j : Int8}, i ≤ t.length → (j.toInt + 1).toNat = i → ∀ fuel, n + 1 ≤ fuel → ∀ up,
        s.traverseUp fuel (id, j) up = .ok (u ++ t.take i ++ up) := by
      intro i j hi hj fuel hf up
      obtain ⟨fuel, rfl⟩ := Nat.exists_eq_add_one_of_ne_zero (show fuel ≠ 0 by omega)
      rw [traverseUp_succ ha (hhead id (.inl rfl)) rfl htp hi hj, hpar fuel (by omega), List.append_assoc]
    rw [Forest.mem_sitesBy_node] at hS
    rcases hS with rfl | hS | hS
    · exact hself hi hj fuel (by omega) up
    · refine ihc hc (fun q hq => hhead q (.inr (.inl hq))) (show s.heap.getTail id = .ok t from ha.getTail)
        (n := n + 1) (fun fuel hf up => ?_) hS (by omega)
      have hle := toInt_narrow_le (i := t.length - 1) (by omega)
      exact hself (by omega) rfl fuel hf up
    · exact ihs hs (fun q hq => hhead q (.inr (.inr hq))) htp hpar hS (by omega)

/-! ### Down -/

/-- The loop of `traverse_down_util` over the children of a node. -/
def traverseChildren (s : SearchT Node2T) (fuel pathLen : ℕ) (cs : List Ptr) (st : Block Byte × List Str) :
    Except Fault (Block Byte × List Str) :=
  cs.foldlM (fun (path, suffixes) node => traverseDownUtil s fuel node 0 path pathLen suffixes) st

theorem traverseChildren_cons (fuel pathLen : ℕ) (c : Ptr) (cs : List Ptr) (st : Block Byte × List Str) :
    s.traverseChildren fuel pathLen (c :: cs) st =
      s.traverseDownUtil fuel c 0 st.1 pathLen st.2 >>= s.traverseChildren fuel pathLen cs := rfl

theorem traverseChildren_singleton (fuel pathLen : ℕ) (c : Ptr) (st : Block Byte × List Str) :
    s.traverseChildren fuel pathLen [c] st = s.traverseDownUtil fuel c 0 st.1 pathLen st.2 :=
  (traverseChildren_cons fuel pathLen c [] st).trans (bind_pure _)

theorem tailFrom_ofNat (t : Str) (k : ℕ) : tailFrom t k = t.drop k := by
  rw [tailFrom, if_neg (by omega)]
  rfl

/-- A node: the rest of its tail, the word if it is a leaf, and its children. -/
theorem traverseDownUtil_node {id : Ptr} {t P : Str} {leaf : Bool} {par : Option Ptr} {cs : Forest Ptr Byte} {k : ℕ}
    {rest : Block Byte} (fuel : ℕ) (suffixes : List Str) (hid : s.heap.At id ⟨t, leaf, par, cs.roots⟩) (hP : NulFree P)
    (hlen : (t.drop k).length < rest.length)
    (hcs : ∀ (rest₁ : Block Byte) suffixes, rest₁.length + (t.drop k).length = rest.length →
      ∃ rest₂, traverseChildren s fuel (P ++ t.drop k).length cs.roots (.starting (P ++ t.drop k) rest₁, suffixes) =
        .ok (.starting (P ++ t.drop k) rest₂, suffixes ++ cs.words (P ++ t.drop k)) ∧ rest₂.length = rest₁.length) :
    ∃ rest', s.traverseDownUtil (fuel + 1) id k (.starting P rest) P.length suffixes =
      .ok (.starting P rest', suffixes ++ (Forest.node id (t.drop k) leaf cs .nil).words P) ∧
        rest'.length = rest.length := by
  have hnul : NulFree (P ++ t.drop k) := nulFree_append.mpr ⟨hP, hid.nulFree.drop k⟩
  -- the rest of the tail is written, with room for a NUL after it
  obtain ⟨c, rest₁, hrest₁⟩ : ∃ c rest₁, rest.drop (t.drop k).length = c :: rest₁ :=
    List.exists_cons_of_ne_nil (by rw [ne_eq, List.drop_eq_nil_iff]; omega)
  have hlen₁ : (c :: rest₁).length + (t.drop k).length = rest.length := by
    rw [← hrest₁, List.length_drop]; omega
  have hwrite := Block.writeAll_starting P hlen.le
  rw [hrest₁] at hwrite
  obtain ⟨rest₂, e₂, l₂⟩ : ∃ rest₂, _ ∧ _ := hcs (if leaf then some 0 :: rest₁ else c :: rest₁)
    (suffixes ++ if leaf then [P ++ t.drop k] else []) (by cases leaf <;> simpa using hlen₁)
  have hQ : P.length + (t.drop k).length = (P ++ t.drop k).length := (List.length_append).symm
  refine ⟨.starting (t.drop k) rest₂, ?_, ?_⟩
  · rw [← Block.starting_append, traverseDownUtil]
    simp only [hid.getTail, ok_bind, tailFrom_ofNat, hwrite, hid.getIsLeaf, hid.getChildren, hQ]
    cases leaf with
    | false => simpa [traverseChildren, Forest.words] using e₂
    | true =>
      simp only [if_true, Block.write_starting, ok_bind, cstr_starting hnul]
      simpa [traverseChildren, Forest.words] using e₂
  · rw [Block.length_starting, l₂]
    cases leaf <;> simpa [Nat.add_comm] using hlen₁

/-- The children of a node, one after the other, each with what is below it. -/
theorem traverseChildren_eq {F : Forest Ptr Byte} {par : Option Ptr} {P : Str} (fuel : ℕ) (rest : Block Byte)
    (suffixes : List Str) (hr : Rep s.heap par F) (hF : F.WF) (hP : NulFree P) (hd : F.depth ≤ fuel)
    (hlen : ∀ w ∈ F.words P, w.length < P.length + rest.length) :
    ∃ rest', s.traverseChildren fuel P.length F.roots (.starting P rest, suffixes) =
      .ok (.starting P rest', suffixes ++ F.words P) ∧ rest'.length = rest.length := by
  induction F generalizing par fuel P rest suffixes with
  | nil => exact ⟨rest, by simp [traverseChildren, Forest.roots, Forest.words], rfl⟩
  | node id t leaf cs sib ihc ihs =>
    obtain ⟨ha, hc, hs⟩ := hr
    have hWF := hF
    obtain ⟨-, -, -, h4, h5⟩ := hF
    rw [Forest.depth] at hd
    obtain ⟨fuel, rfl⟩ := Nat.exists_eq_add_one_of_ne_zero (show fuel ≠ 0 by omega)
    simp only [Forest.mem_words_node] at hlen
    -- there is a word below the node, so there is room for its tail
    have hroom : t.length < rest.length := by
      obtain ⟨w, hw, hp⟩ := hWF.exists_word_append (Forest.mem_sites_node (u := P).mpr (.inl rfl))
      have hlt := hlen w (Forest.mem_words_node.mp hw)
      have hle := hp.length_le
      simp only [Forest.Site.word, List.length_append] at hle
      omega
    have hdrop : t.drop 0 = t := rfl
    obtain ⟨rest₁, e₁, l₁⟩ := traverseDownUtil_node (k := 0) fuel suffixes ha hP (by simpa using hroom)
      (fun rest₁ suffixes hrest₁ => ihc fuel rest₁ suffixes hc h4 (nulFree_append.mpr ⟨hP, ha.nulFree⟩) (by omega) fun w hw => by
        have := hlen w (.inr (.inl hw))
        simp only [hdrop, List.length_append] at hrest₁ ⊢
        omega)
    obtain ⟨rest₂, e₂, l₂⟩ := ihs (fuel + 1) rest₁
      (suffixes ++ (Forest.node id t leaf cs .nil).words P) hs h5 hP (by omega)
      (fun w hw => by rw [l₁]; exact hlen w (.inr (.inr hw)))
    refine ⟨rest₂, ?_, l₂.trans l₁⟩
    have e₁' : s.traverseDownUtil (fuel + 1) id 0 (.starting P rest) P.length suffixes = _ := e₁
    rw [hdrop] at e₁'
    rw [Forest.roots, traverseChildren_cons, e₁', ok_bind, e₂]
    cases leaf <;> simp [Forest.words]

/-- A word that does not fit in the array, with its NUL, is written past its end. -/
theorem overruns_traverseDownUtil {id : Ptr} {t P : Str} {leaf : Bool} {par : Option Ptr} {cs : Forest Ptr Byte} {k n : ℕ}
    {rest : Block Byte} (fuel : ℕ) (suffixes : List Str) (hid : s.heap.At id ⟨t, leaf, par, cs.roots⟩) (hP : NulFree P)
    (hn : P.length + rest.length = n) (hlong : ∃ w ∈ (Forest.node id (t.drop k) leaf cs .nil).words P, n ≤ w.length)
    (hcs : ∀ (rest₁ : Block Byte) suffixes, (P ++ t.drop k).length + rest₁.length = n →
      (∃ w ∈ cs.words (P ++ t.drop k), n ≤ w.length) →
      (Scratch.traverseChildren s fuel (P ++ t.drop k).length cs.roots (.starting (P ++ t.drop k) rest₁, suffixes)).Overruns n) :
    (Scratch.traverseDownUtil s (fuel + 1) id k (.starting P rest) P.length suffixes).Overruns n := by
  have hnul : NulFree (P ++ t.drop k) := nulFree_append.mpr ⟨hP, hid.nulFree.drop k⟩
  have hQ : P.length + (t.drop k).length = (P ++ t.drop k).length := (List.length_append).symm
  have hblock : (Block.starting P rest).length = n := by rw [Block.length_starting, hn]
  unfold Scratch.traverseDownUtil
  simp only [hid.getTail, Logged.lift_ok_bind, tailFrom_ofNat, hid.getIsLeaf, hid.getChildren, hQ]
  apply Logged.overruns_bind.mpr
  rcases Nat.lt_or_ge rest.length (t.drop k).length with hlt | hge
  · refine .inl ?_
    rw [← hblock]
    exact Block.overruns_putAll (by rw [Block.length_starting]; omega) (by rw [Block.length_starting]; omega)
  · refine .inr ⟨_, (Block.result_putAll _ _ _).trans (Block.writeAll_starting P hge), ?_⟩
    obtain ⟨w, hw, hlen⟩ := hlong
    rw [Forest.mem_words_node] at hw
    have hnil : w ∉ (Forest.nil : Forest Ptr Byte).words P := by simp [Forest.words]
    have hrest := List.length_drop (i := (t.drop k).length) (l := rest)
    cases leaf with
    | false =>
      have hw' : w ∈ cs.words (P ++ t.drop k) := (hw.resolve_left (by simp)).resolve_right hnil
      have hcs' := hcs (rest.drop (t.drop k).length) suffixes (by rw [List.length_append]; omega) ⟨w, hw', hlen⟩
      simpa [Scratch.traverseChildren] using hcs'
    | true =>
      rw [if_pos rfl]
      apply Logged.overruns_bind.mpr
      cases hr : rest.drop (t.drop k).length with
      | nil =>
        rw [hr, List.length_nil] at hrest
        exact .inl (Block.overruns_put.mpr (by rw [List.length_append]; omega))
      | cons c rest₁ =>
        rw [hr, List.length_cons] at hrest
        refine .inr ⟨_, (Block.result_put _ _ _).trans (Block.write_starting _ c rest₁ 0), ?_⟩
        have hw' : w ∈ cs.words (P ++ t.drop k) := by
          refine (hw.resolve_left ?_).resolve_right hnil
          rintro ⟨-, rfl⟩
          rw [← hQ] at hlen
          omega
        have hcs' := hcs (some 0 :: rest₁) (suffixes ++ [P ++ t.drop k])
          (by rw [List.length_append, List.length_cons]; omega) ⟨w, hw', hlen⟩
        simpa [cstr_starting hnul, Scratch.traverseChildren] using hcs'

/-- So do the children of a node, when one of the words below them does not fit. -/
theorem overruns_traverseChildren {F : Forest Ptr Byte} {par : Option Ptr} {P : Str} {n : ℕ} (fuel : ℕ) (rest : Block Byte)
    (suffixes : List Str) (hr : Rep s.heap par F) (hF : F.WF) (hP : NulFree P) (hd : F.depth ≤ fuel)
    (hn : P.length + rest.length = n) (hlong : ∃ w ∈ F.words P, n ≤ w.length) :
    (Scratch.traverseChildren s fuel P.length F.roots (.starting P rest, suffixes)).Overruns n := by
  induction F generalizing par fuel P rest suffixes with
  | nil => simp [Forest.words] at hlong
  | node id t leaf cs sib ihc ihs =>
    obtain ⟨ha, hc, hs⟩ := hr
    have hWF := hF.tree
    obtain ⟨-, -, -, h4, h5⟩ := hF
    rw [Forest.depth] at hd
    obtain ⟨fuel, rfl⟩ := Nat.exists_eq_add_one_of_ne_zero (show fuel ≠ 0 by omega)
    apply Logged.overruns_bind.mpr
    by_cases hself : ∃ w ∈ (Forest.node id t leaf cs .nil).words P, n ≤ w.length
    · -- below this node
      refine .inl (overruns_traverseDownUtil (k := 0) fuel suffixes ha hP hn hself fun rest₁ suffixes hrest₁ hw => ?_)
      exact ihc fuel rest₁ suffixes hc h4 (nulFree_append.mpr ⟨hP, ha.nulFree⟩) (by omega) hrest₁ hw
    · -- below a later one
      obtain ⟨w, hw, hlen⟩ := hlong
      have hsib : w ∈ sib.words P := by
        rw [Forest.mem_words_node] at hw
        rcases hw with hw | hw | hw
        · exact absurd ⟨w, Forest.mem_words_node.mpr (.inl hw), hlen⟩ hself
        · exact absurd ⟨w, Forest.mem_words_node.mpr (.inr (.inl hw)), hlen⟩ hself
        · exact hw
      obtain ⟨rest₁, e₁, l₁⟩ := traverseChildren_eq (F := Forest.node id t leaf cs .nil)
        (fuel + 1) rest suffixes ⟨ha, hc, trivial⟩ hWF hP (by rw [Forest.depth, Forest.depth]; omega)
        fun w hw => not_le.mp fun hle => hself ⟨w, hw, hn ▸ hle⟩
      rw [Forest.roots, Forest.roots, traverseChildren_singleton] at e₁
      refine .inr ⟨_, (Scratch.result_traverseDownUtil _ _ _ _ _ _ _).trans e₁, ?_⟩
      exact ihs (fuel + 1) rest₁ _ hs h5 hP (by omega) (by omega) ⟨w, hsib, hlen⟩

end SearchT

end InfixSearch
