import InfixSearch.Search.Trie
import InfixSearch.Library.Run

/-!
# The loop of `add`, iteration by iteration

The loop of `add` has no increment of its own: what it gets on by is the comparison of
the word with the next tail. Here an iteration of it is a step (`addIteration`), with the
number of characters it consumes. A child followed under a character has a tail that starts
with it, and a new child has the rest of the word, so that every iteration consumes a
character (`add_iterations`); a word with a NUL in it is not consumed to its end by any
(`nulFree_of_add`).
-/

namespace InfixSearch

open Library

/-- The variables of the loop of `add`. -/
structure AddVars (N : Type) where
  /-- The nodes. -/
  search : SearchT N
  /-- `traverse`, `none` for `NULL`. -/
  traverse : Option Ptr
  /-- `i`. -/
  i : ℕ
  /-- Whether the loop was left by `break`. -/
  broken : Bool

/-- The loop goes on. -/
def AddVars.Running {N : Type} (word : Str) (v : AddVars N) : Prop := v.broken = false ∧ v.i < word.length

namespace SearchT

section Model

variable {N : Type} [NodeT N]

/-- The child that the loop of `add` goes on to: the one to follow, or a new one. -/
def nextChild (s : SearchT N) (word : Str) (traverse : Ptr) (traverseTail : Str) (tailIndex i : ℕ) :
    Except Fault (SearchT N × Ptr) := do
  match ← s.heap.getChild traverse (← charAt word i) with
  | some child => pure (s, child)
  | none => s.forkChild word traverse traverseTail tailIndex i

/-- A pointer that is dereferenced. -/
def notNull (p : Option Ptr) : Except Fault Ptr :=
  match p with
  | some p => pure p
  | none => throw .nullPointer

/-- The end of an iteration: `traverse` becomes `child`, and gets its parent. -/
def advance (s : SearchT N) (child : Option Ptr) (parent : Ptr) (i : ℕ) : Except Fault (AddVars N) := do
  let traverse ← notNull child
  let s ← s.setParent traverse parent
  pure ⟨s, some traverse, i, false⟩

/-- One iteration of the loop of `add`. -/
def addIteration (word : Str) (v : AddVars N) : Except Fault (AddVars N) := do
  let traverse ← notNull v.traverse
  let traverseTail ← v.search.heap.getTail traverse
  if traverseTail.length ≠ 0 then do
    let tailIndex := agree traverseTail (word.drop v.i)
    let i := v.i + tailIndex
    if i = word.length ∧ tailIndex = traverseTail.length then pure { v with i := i, broken := true }
    else do
      let (s, child) ← v.search.nextChild word traverse traverseTail tailIndex i
      advance s (some child) traverse i
  else
    -- `child` is still `NULL`
    advance v.search none traverse v.i

/-- An iteration that the loop enters, and that consumes `k` characters of the word. -/
def AddStep (word : Str) (v : AddVars N) (k : ℕ) (v' : AddVars N) : Prop :=
  v.Running word ∧ addIteration word v = .ok v' ∧ v'.i = v.i + k

/-- The loop from the variables `v` on. -/
def addLoopFrom (word : Str) (fuel : ℕ) (v : AddVars N) : Except Fault (SearchT N × Ptr) := do
  let traverse ← notNull v.traverse
  if v.broken then pure (v.search, traverse) else addLoop word fuel v.search traverse v.i

/-- The loop is an iteration, and then the loop unless it was left. -/
theorem addLoop_succ (word : Str) (fuel : ℕ) (s : SearchT N) (p : Ptr) {i : ℕ} (hi : i < word.length) :
    addLoop word (fuel + 1) s p i = addIteration word ⟨s, some p, i, false⟩ >>= addLoopFrom word fuel := by
  rw [addLoop, if_pos hi, addIteration]
  simp only [notNull, pure_ok, ok_bind, bind_assoc]
  congr 1
  funext t
  split_ifs with h0 hend
  · rfl
  · simp only [nextChild, bind_assoc]
    congr 1
    funext c
    congr 1
    funext child
    cases child <;> simp [advance, notNull, addLoopFrom]
  · rfl

/-- The iterations of a run to its end are those of the loop. -/
theorem addLoopFrom_of_run {word : Str} {v v' : AddVars N} {p : Ptr} {ks : List ℕ} (h : Run (AddStep word) v ks v')
    (hend : ¬ v'.Running word) (hp : v'.traverse = some p) {fuel : ℕ} (hf : ks.length < fuel) :
    addLoopFrom word fuel v = .ok (v'.search, p) := by
  induction h generalizing fuel with
  | @nil v =>
    obtain ⟨fuel, rfl⟩ := Nat.exists_eq_add_one_of_ne_zero (show fuel ≠ 0 by omega)
    rw [addLoopFrom, hp, notNull, pure_ok, ok_bind]
    cases hb : v.broken with
    | true => rfl
    | false =>
      have hi : ¬ v.i < word.length := fun hlt => hend ⟨hb, hlt⟩
      simp [addLoop, hi]
  | @cons v v₁ v' k ks hstep _ ih =>
    obtain ⟨fuel, rfl⟩ := Nat.exists_eq_add_one_of_ne_zero (show fuel ≠ 0 by omega)
    obtain ⟨⟨hb, hi⟩, e, -⟩ := hstep
    rw [List.length_cons] at hf
    obtain ⟨s, traverse, i, broken⟩ := v
    obtain rfl : broken = false := hb
    cases traverse with
    | none => cases e
    | some q =>
      show addLoop word (fuel + 1) s q i = _
      rw [addLoop_succ word fuel s q hi, e, ok_bind]
      exact ih hend hp (by omega)

end Model

variable {s s' : SearchT Node2T} {T : Trie} {p : Ptr} {word : Str}

/-! ### Words with a NUL -/

theorem nulFree_of_getTail {t : Str} (h : s.heap.getTail p = .ok t) : NulFree t := by
  rw [Heap.getTail, bind_eq_ok] at h
  obtain ⟨n, -, h⟩ := h
  exact nulFree_of_cstr h

/-- An iteration only gets past characters that are in a tail, and breaks at the end of the
word. -/
theorem nulFree_of_addIteration {v v' : AddVars Node2T} (h : addIteration word v = .ok v') (hv : NulFree (word.take v.i)) :
    NulFree (word.take v'.i) ∧ (v'.broken = true → v'.i = word.length) := by
  simp only [addIteration, bind_eq_ok] at h
  obtain ⟨p, -, t, ht, h⟩ := h
  have htake : NulFree (word.take (v.i + agree t (word.drop v.i))) := by
    rw [List.take_add, ← take_agree]
    exact nulFree_append.mpr ⟨hv, (nulFree_of_getTail ht).take _⟩
  split_ifs at h with h0 hend
  · obtain rfl := Except.ok.inj h
    exact ⟨htake, fun _ => hend.1⟩
  · simp only [advance, bind_eq_ok] at h
    obtain ⟨⟨s₁, child⟩, -, q, -, s₂, -, e⟩ := h
    obtain rfl := Except.ok.inj e
    exact ⟨htake, fun hb => Bool.noConfusion hb⟩
  · cases h

/-- A word that the loop gets to the end of has no NUL. -/
theorem nulFree_of_addLoop {fuel i : ℕ} {r : SearchT Node2T × Ptr} (h : addLoop word fuel s p i = .ok r)
    (hi : NulFree (word.take i)) : NulFree word := by
  induction fuel generalizing s p i with
  | zero => cases h
  | succ fuel ih =>
    by_cases hlt : i < word.length
    · rw [addLoop_succ word fuel s p hlt, bind_eq_ok] at h
      obtain ⟨v, hv, h⟩ := h
      obtain ⟨htake, hend⟩ := nulFree_of_addIteration hv hi
      rw [addLoopFrom, bind_eq_ok] at h
      obtain ⟨q, -, h⟩ := h
      split_ifs at h with hb
      · rwa [hend hb, List.take_length] at htake
      · exact ih h htake
    · rwa [List.take_of_length_le (not_lt.mp hlt)] at hi

/-- A word that is added has no NUL. -/
theorem nulFree_of_add {w : Str} (hs : s.add w = .ok s') : NulFree w := by
  simp only [add, bind_eq_ok] at hs
  obtain ⟨⟨s₀, head⟩, -, ⟨s₁, traverse⟩, e₁, -⟩ := hs
  exact (nulFree_cons.mp (nulFree_of_addLoop e₁ nulFree_nil)).2

/-! ### Progress -/

/-- The loop comes to its end from `v`, and each iteration consumes a character. -/
def Ends (word : Str) (v : AddVars Node2T) : Prop :=
  ∃ ks v' q, Run (AddStep word) v ks v' ∧ ¬ v'.Running word ∧ v'.traverse = some q ∧ (∀ k ∈ ks, 0 < k) ∧
    ks.sum ≤ word.length - v.i

theorem Ends.step {v v₁ : AddVars Node2T} {k : ℕ} (h : AddStep word v k v₁) (hk : 0 < k) (hle : v.i + k ≤ word.length)
    (hv : Ends word v₁) : Ends word v := by
  obtain ⟨ks, v', q, hrun, hend, hq, hks, hsum⟩ := hv
  refine ⟨k :: ks, v', q, .cons h hrun, hend, hq, List.forall_mem_cons.mpr ⟨hk, hks⟩, ?_⟩
  have := h.2.2
  rw [List.sum_cons]
  omega

/-- Where there is nothing left of the word. -/
theorem ends_of_le (s : SearchT Node2T) (p : Ptr) {i : ℕ} (hi : word.length ≤ i) : Ends word ⟨s, some p, i, false⟩ :=
  ⟨[], _, p, .nil, fun h => absurd h.2 (not_lt.mpr hi), rfl, by simp, Nat.zero_le _⟩

section Progress

variable {t : Str} {leaf : Bool} {par : Option Ptr} {cs : Forest Ptr Byte} {l : List Ptr} {i : ℕ}

/-- At a node whose tail is the rest of the word there is at most one more iteration. -/
theorem ends_self (hp : s.heap.At p ⟨word.drop i, leaf, par, l⟩) : Ends word ⟨s, some p, i, false⟩ := by
  rcases Nat.lt_or_ge i word.length with hi | hi
  · have hlen : (word.drop i).length = word.length - i := List.length_drop
    have e : addIteration word ⟨s, some p, i, false⟩ = .ok ⟨s, some p, i + (word.length - i), true⟩ := by
      simp only [addIteration, notNull, pure_ok, hp.getTail, ok_bind, agree_self, hlen]
      rw [if_pos (by omega), if_pos ⟨by omega, trivial⟩]
    refine Ends.step ⟨⟨rfl, hi⟩, e, rfl⟩ (by omega) (show i + (word.length - i) ≤ _ by omega) ?_
    exact ⟨[], _, p, .nil, fun h => Bool.noConfusion h.1, rfl, by simp, Nat.zero_le _⟩
  · exact ends_of_le s p hi

/-- An iteration that does not end with the word consumes what it shares with the tail. -/
theorem addIteration_eq (hp : s.heap.At p ⟨t, leaf, par, cs.roots⟩) (hc : Rep s.heap (some p) cs) (hw : NulFree word)
    (hh : t.head? = (word.drop i).head?) (hne : word.drop i ≠ t) :
    addIteration word ⟨s, some p, i, false⟩ = (do
        let (s, child) ← match cs.rootOf (word.drop (i + agree t (word.drop i))).head? with
          | some child => pure (s, child)
          | none => s.forkChild word p t (agree t (word.drop i)) (i + agree t (word.drop i))
        let s ← s.setParent child p
        pure ⟨s, some child, i + agree t (word.drop i), false⟩) := by
  obtain ⟨hpos, hle⟩ := agree_bounds hh hne
  have hlet := agree_le_left t (word.drop i)
  have hend : ¬ (i + agree t (word.drop i) = word.length ∧ agree t (word.drop i) = t.length) :=
    mt (agree_ends_iff (by omega)).mp hne
  have hchild : s.heap.getChild p (keyByte (word.drop (i + agree t (word.drop i))).head?) = _ :=
    Rep.getChild hp hc (hw.drop _)
  simp only [addIteration, notNull, pure_ok, hp.getTail, ok_bind]
  rw [if_pos (by omega), if_neg hend, nextChild, charAt_eq hle, ok_bind, hchild, ok_bind]
  cases cs.rootOf (word.drop (i + agree t (word.drop i))).head? <;> rfl

/-- The child for the rest of the word. -/
theorem forkChild_rest (hp : s.heap.At p ⟨t, leaf, par, cs.roots⟩) (hc : Rep s.heap (some p) cs) (hn : (p :: cs.ids).Nodup)
    (hk : cs.keys.Nodup) (hw : NulFree word) (hh : t.head? = (word.drop i).head?) (hne : word.drop i ≠ t)
    (hkey : (word.drop (i + agree t (word.drop i))).head? ∉ cs.keys)
    (hwidth : agree t (word.drop i) < t.length ∨ cs.width < Node2T.capacity) :
    ∃ s' c, s.forkChild word p t (agree t (word.drop i)) (i + agree t (word.drop i)) = .ok (s', c) ∧
      s'.heap.At c ⟨word.drop (i + agree t (word.drop i)), true, none, []⟩ := by
  obtain ⟨hpos, hi⟩ := agree_bounds hh hne
  by_cases hlt : agree t (word.drop i) < t.length
  · have hhead := head?_drop_agree_ne hne.symm
    rw [List.drop_drop] at hhead
    obtain ⟨s₁, e₁, ⟨hp₁, hc₁, -⟩, -, -⟩ := addRules.splitTail hp hc hn hk hpos hlt
    obtain ⟨s₂, e₂, -, a₂, -⟩ := addRules.newChild p hp₁ hc₁ hw hi (by simpa [Forest.keys] using Ne.symm hhead)
      (by simp [Forest.width, Node2T.capacity])
    exact ⟨s₂, _, (forkChild_of_splitTail hlt e₁).trans e₂, a₂⟩
  · obtain ⟨s', e, -, a, -⟩ := addRules.newChild p hp hc hw hi hkey (hwidth.resolve_left hlt)
    exact ⟨s', _, (forkChild_of_end hlt).trans e, a⟩

end Progress

/-- From the root that the rest of the word leads to the loop comes to its end. -/
theorem ends_of_room {F : Forest Ptr Byte} {par : Option Ptr} {i : ℕ} (hw : NulFree word) (hr : Rep s.heap par F)
    (hk : F.Keyed) (hn : F.ids.Nodup) (hp : F.rootOf (word.drop i).head? = some p)
    (hroom : F.Room Node2T.capacity (word.drop i)) : Ends word ⟨s, some p, i, false⟩ := by
  induction F generalizing s p i par with
  | nil => simp [Forest.rootOf] at hp
  | node id t leaf cs sib ihc ihs =>
    obtain ⟨hid, hcs, hsib⟩ := hr
    obtain ⟨-, hk2, hk3⟩ := hk
    simp only [Forest.ids, List.nodup_cons, List.mem_append, not_or, List.nodup_append] at hn
    obtain ⟨⟨hic, -⟩, hnc, hns, -⟩ := hn
    rw [Forest.rootOf] at hp
    rw [Forest.Room] at hroom
    by_cases hh : t.head? = (word.drop i).head?
    · rw [if_pos hh, Option.some.injEq] at hp
      rw [if_pos hh] at hroom
      subst hp
      by_cases hne : word.drop i = t
      · subst hne
        exact ends_self hid
      · obtain ⟨hpos, hi⟩ := agree_bounds hh hne
        have hlt : i < word.length := by omega
        have hstep := addIteration_eq hid hcs hw hh hne
        rw [List.drop_drop] at hroom
        cases hroot : cs.rootOf (word.drop (i + agree t (word.drop i))).head? with
        | some c =>
          -- a child is followed
          obtain ⟨-, hroom⟩ := (hroom.resolve_left hne).resolve_left fun hf => hf.2 (by
            rw [List.drop_drop]
            exact Forest.mem_keys_of_rootOf hroot)
          obtain ⟨v, hat, -, hpar⟩ := hcs.at_of_rootOf hroot
          simp only [hroot, pure_ok, ok_bind, setParent_same hat hpar] at hstep
          exact (ihc hcs hk2 hnc hroot hroom).step ⟨⟨rfl, hlt⟩, hstep, rfl⟩ hpos hi
        | none =>
          -- a new child takes the rest of the word
          have hkey := Forest.rootOf_eq_none_iff.mp hroot
          obtain ⟨s₁, c, e₁, a₁⟩ := forkChild_rest hid hcs (List.nodup_cons.mpr ⟨hic, hnc⟩) hk2.nodup_keys hw hh hne hkey
            (by
              rcases hroom.resolve_left hne with hf | hf
              · exact .inl hf.1
              · exact .inr (hf.1 hkey))
          obtain ⟨s₂, e₂, a₂, -, -⟩ := setParent_eq a₁ id
          simp only [hroot, e₁, pure_ok, ok_bind, e₂] at hstep
          exact (ends_self a₂).step ⟨⟨rfl, hlt⟩, hstep, rfl⟩ hpos hi
    · rw [if_neg hh] at hp hroom
      exact ihs hsib hk3 hns hp hroom

/-- **`add` makes progress.** For a word without NUL, and unless the program exits, the loop of
`add` ends after no more iterations than the word has characters, with the `*` before it; every
iteration consumes at least one of them, and none dereferences a null pointer. -/
theorem add_iterations {ws : List Str} (hws : ∀ u ∈ ws, NulFree u) (hs : fresh.adds ws = .ok s) {w : Str} (hw : NulFree w)
    (hexit : s.add w ≠ .error .exit) :
    ∃ s₀ head ks v q s', s.makeHead = .ok (s₀, head) ∧ Run (AddStep (sentinel :: w)) ⟨s₀, some head, 0, false⟩ ks v ∧
      ¬ v.Running (sentinel :: w) ∧ ks.length ≤ w.length + 1 ∧ (∀ k ∈ ks, 0 < k) ∧ v.traverse = some q ∧
      v.search.setIsLeaf q true = .ok s' ∧ s.add w = .ok s' := by
  have h := ready_of_adds hws hs
  have hroom : (Trie.empty.adds ws).Room w := not_not.mp fun hr => hexit (add_exit h hw hr)
  obtain ⟨s', e, -, -⟩ := add_eq h hw hroom
  obtain ⟨s₀, e₀, h₀, -⟩ := h.makeHead
  have hw' : NulFree (sentinel :: w) := nulFree_cons.mpr ⟨by decide, hw⟩
  obtain ⟨ks, v, q, hrun, hend, hq, hks, hsum⟩ := ends_of_room (i := 0) (p := 0) hw' h₀.rep (Trie.tree_keyed _) h₀.owns.nodup
    rfl hroom
  have hlen : ks.length ≤ w.length + 1 := (List.length_le_sum_of_one_le ks hks).trans hsum
  have hloop : addLoop (sentinel :: w) ((sentinel :: w).length + 1) s₀ 0 0 = .ok (v.search, q) :=
    addLoopFrom_of_run hrun hend hq (Nat.lt_succ_of_le hlen)
  refine ⟨s₀, 0, ks, v, q, s', e₀, hrun, hend, hlen, hks, hq, ?_, e⟩
  simpa only [add, e₀, ok_bind, hloop] using e

theorem add_iterations_abx : ∃ s, fresh.adds [ascii "abc"] = .ok s ∧
    ∃ s₀ head ks v q s', s.makeHead = .ok (s₀, head) ∧
      Run (AddStep (sentinel :: ascii "abx")) ⟨s₀, some head, 0, false⟩ ks v ∧
      ¬ v.Running (sentinel :: ascii "abx") ∧ ks.length ≤ (ascii "abx").length + 1 ∧ (∀ k ∈ ks, 0 < k) ∧ v.traverse = some q ∧
      v.search.setIsLeaf q true = .ok s' ∧ s.add (ascii "abx") = .ok s' := by
  have hok : ((fresh.adds [ascii "abc"]) >>= fun s => s.add (ascii "abx")).isOk = true := by decide +kernel
  obtain ⟨s, hs, -⟩ := adds_of_isOk [ascii "abc"] (by decide) (by decide +kernel)
  rw [hs, ok_bind] at hok
  exact ⟨s, hs, add_iterations (by decide) hs (by decide) fun h => by rw [h] at hok; cases hok⟩

end SearchT

end InfixSearch
