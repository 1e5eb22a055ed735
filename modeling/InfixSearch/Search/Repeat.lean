import InfixSearch.Search.Stored
import InfixSearch.Search.Loop
import InfixSearch.Library.ForestRepeat

/-!
# Adding a word again

The end of a word is marked in two ways: by the leaf flag of a node, or by a child with an
empty tail, where the word ended inside the tail of a node that was split for it. `add` of a
word that it has just added changes nothing, unless it was marked in the second way
(`add_add_iff`): then it takes the branch for an exact match, and sets the flag too.
-/

namespace InfixSearch

open Library

namespace SearchT

section Heap

variable {N : Type} [NodeT N] (s : SearchT N)

/-- On the walk of `add` from the node `p` with `i` characters of the word consumed: the word ends
inside a tail, at a node without a child under NUL. -/
inductive RunsOutFrom (word : Str) : Ptr → ℕ → Prop where
  /-- At this node. -/
  | here {p : Ptr} {i : ℕ} {t : Str} : s.heap.getTail p = .ok t → i + agree t (word.drop i) = word.length →
      agree t (word.drop i) < t.length → s.heap.getChild p 0 = .ok none → RunsOutFrom word p i
  /-- After this node. -/
  | after {p q : Ptr} {i : ℕ} {t : Str} {c : Byte} : i < word.length → s.heap.getTail p = .ok t →
      ¬ (i + agree t (word.drop i) = word.length ∧ agree t (word.drop i) = t.length) →
      charAt word (i + agree t (word.drop i)) = .ok c → s.heap.getChild p c = .ok (some q) →
      RunsOutFrom word q (i + agree t (word.drop i)) → RunsOutFrom word p i

/-- `add` of `w` marks the end of the word by a child with an empty tail. -/
def RunsOut (w : Str) : Prop := ∃ p, s.head = some p ∧ s.RunsOutFrom (sentinel :: w) p 0

/-- The nodes are the same, with the same tails, children and leaf flags. -/
structure SameNodes (s s' : SearchT N) : Prop where
  length : s'.heap.length = s.heap.length
  getTail : ∀ p, s'.heap.getTail p = s.heap.getTail p
  getChildren : ∀ p, s'.heap.getChildren p = s.heap.getChildren p
  getIsLeaf : ∀ p, s'.heap.getIsLeaf p = s.heap.getIsLeaf p

end Heap

variable {s s' : SearchT Node2T} {T : Trie}

theorem runsOutFrom_iff {F : Forest Ptr Byte} {par : Option Ptr} {word : Str} {p : Ptr} {i : ℕ} (hw : NulFree word)
    (hr : Rep s.heap par F) (hi : i ≤ word.length) (hp : F.rootOf (word.drop i).head? = some p) :
    s.RunsOutFrom word p i ↔ F.RunsOut (word.drop i) := by
  induction F generalizing par p i with
  | nil => simp [Forest.rootOf] at hp
  | node id t leaf cs sib ihc ihs =>
    obtain ⟨hid, hc, hs⟩ := hr
    rw [Forest.rootOf] at hp
    rw [Forest.RunsOut]
    by_cases hh : t.head? = (word.drop i).head?
    · rw [if_pos hh, Option.some.injEq] at hp
      subst hp
      have hle := add_agree_le (t := t) hi
      have hnone : s.heap.getChild id 0 = .ok (cs.rootOf none) := Rep.getChild hid hc nulFree_nil
      have hprefix : word.drop i <+: t ↔ i + agree t (word.drop i) = word.length := by
        rw [← agree_eq_length_right_iff, List.length_drop]
        omega
      rw [if_pos hh, hprefix, ← Forest.rootOf_eq_none_iff, List.drop_drop]
      constructor
      · intro hro
        cases hro with
        | here ht hend hlt hq =>
          rw [hid.getTail, Except.ok.injEq] at ht
          subst ht
          rw [hnone, Except.ok.injEq] at hq
          exact ⟨fun he => absurd hlt (by simp [← he, agree_self]), .inl ⟨hend, hq⟩⟩
        | after hlen ht hend hch hq hrest =>
          rw [hid.getTail, Except.ok.injEq] at ht
          subst ht
          rw [getChild_of_charAt hid hc hw hle hch, Except.ok.injEq] at hq
          refine ⟨mt (agree_ends_iff hi).mpr hend, .inr ⟨fun hf => hf.2 ?_, (ihc hc hle hq).mp hrest⟩⟩
          rw [List.drop_drop]
          exact Forest.mem_keys_of_rootOf hq
      · rintro ⟨hne, ⟨hend, hq⟩ | ⟨hf, hcs⟩⟩
        · have hlt : agree t (word.drop i) < t.length :=
            lt_of_le_of_ne (agree_le_left _ _) fun he => hne ((agree_ends_iff hi).mp ⟨hend, he⟩)
          exact .here hid.getTail hend hlt (by rw [hnone, hq])
        · obtain ⟨q, hq⟩ : ∃ q, cs.rootOf (word.drop (i + agree t (word.drop i))).head? = some q :=
            Forest.exists_rootOf (Forest.head?_mem_keys_of_runsOut hcs)
          have hpos := agree_pos hh (Ne.symm hne)
          have hch := charAt_eq hle
          exact .after (by omega) hid.getTail (mt (agree_ends_iff hi).mp hne) hch
            (by rw [getChild_of_charAt hid hc hw hle hch, hq]) ((ihc hc hle hq).mpr hcs)
    · rw [if_neg hh] at hp ⊢
      exact ihs hs hi hp

theorem Ready.runsOut_iff (h : s.Ready T) {w : Str} (hw : NulFree w) : s.RunsOut w ↔ T.tree.RunsOut (sentinel :: w) := by
  have hw' : NulFree (sentinel :: w) := nulFree_cons.mpr ⟨by decide, hw⟩
  rcases h with ⟨hhead, -, -, rfl⟩ | h
  · refine iff_of_false (fun ⟨p, hp, _⟩ => by rw [hhead] at hp; cases hp) ?_
    simp only [Trie.tree, Trie.empty, Forest.RunsOut]
    exact fun h => by simp [Forest.keys] at h
  · constructor
    · rintro ⟨p, hp, hro⟩
      rw [h.head, Option.some.injEq] at hp
      subst hp
      exact (runsOutFrom_iff hw' h.rep (Nat.zero_le _) rfl).mp hro
    · exact fun hro => ⟨0, h.head, (runsOutFrom_iff hw' h.rep (Nat.zero_le _) rfl).mpr hro⟩

/-- Where the word is settled the end of `add` changes nothing. -/
theorem addFrom_settled {word : Str} {i fuel : ℕ} {F : Forest Ptr Byte} {par : Option Ptr} {p : Ptr} (hw : NulFree word)
    (hr : Rep s.heap par F) (hp : F.rootOf (word.drop i).head? = some p) (hf : (word.drop i).length < fuel)
    (hset : F.Settled (word.drop i)) : addFrom word fuel s p i = .ok s := by
  induction F generalizing p i fuel par with
  | nil => exact hset.elim
  | node id t leaf cs sib ihc ihs =>
    obtain ⟨hid, hcs, hsib⟩ := hr
    rw [Forest.rootOf] at hp
    rw [Forest.Settled] at hset
    obtain ⟨fuel, rfl⟩ := Nat.exists_eq_add_one_of_ne_zero (show fuel ≠ 0 by omega)
    by_cases hh : t.head? = (word.drop i).head?
    · rw [if_pos hh, Option.some.injEq] at hp
      rw [if_pos hh] at hset
      subst hp
      rcases hset with ⟨rfl, hleaf⟩ | ⟨hne, -, hset⟩
      · rw [addFrom_self fuel hid]
        exact setIsLeaf_same hid hleaf
      · obtain ⟨c, hroot⟩ := Forest.exists_rootOf (Forest.head?_mem_keys_of_settled hset)
        obtain ⟨hpos, hi⟩ := agree_bounds hh hne
        rw [List.drop_drop] at hset hroot
        rw [addFrom_follow fuel hid hcs hw hh hne hroot]
        refine ihc hcs hroot ?_ hset
        rw [List.length_drop] at hf ⊢
        omega
    · rw [if_neg hh] at hp hset
      exact ihs hsib hp hf hset

theorem Holds.add_settled (h : s.Holds T) {w : Str} (hw : NulFree w) (hset : T.tree.Settled (sentinel :: w)) :
    s.add w = .ok s := by
  have hw' : NulFree (sentinel :: w) := nulFree_cons.mpr ⟨by decide, hw⟩
  have hhead : s.makeHead = .ok (s, 0) := by rw [makeHead, h.head]; rfl
  simp only [add, hhead, ok_bind]
  exact addFrom_settled (i := 0) (p := 0) hw' h.rep rfl (by simp) hset

/-- What `add` leaves if the word ended inside a tail is not left as it is by another call. -/
theorem Holds.not_sameNodes {s'' : SearchT Node2T} {w : Str} (h' : s'.Holds (T.add w)) (h'' : s''.Holds ((T.add w).add w))
    (hro : T.tree.RunsOut (sentinel :: w)) : ¬ SameNodes s' s'' := by
  intro hsame
  obtain ⟨S, hS, hl, S', hS', hid, hl'⟩ := Forest.exists_leaf_raised (u := []) T.size (T.size + 1) (T.add w).size
    ((T.add w).size + 1) hro
  rw [T.insert_tree] at hS hS'
  rw [(T.add w).insert_tree] at hS'
  have e := hsame.getIsLeaf S.id
  rw [h'.getIsLeaf hS, ← hid, h''.getIsLeaf hS', hl, hl'] at e
  cases e

/-- **When a word is added again.** `add` of a word that was just added changes no node if and only
if the word did not end inside a tail the first time; and then it changes nothing at all. -/
theorem add_add_iff {ws : List Str} (hws : ∀ u ∈ ws, NulFree u) (hs : fresh.adds ws = .ok s) {w : Str} (hw : NulFree w)
    (hadd : s.add w = .ok s') :
    ∃ s'', s'.add w = .ok s'' ∧ (SameNodes s' s'' ↔ ¬ s.RunsOut w) ∧ (SameNodes s' s'' → s'' = s') := by
  have h := ready_of_adds hws hs
  have h' := h.holds_of_add hw hadd
  rw [h.runsOut_iff hw]
  by_cases hro : (Trie.empty.adds ws).tree.RunsOut (sentinel :: w)
  · have hroom : ((Trie.empty.adds ws).add w).Room w := by
      rw [Trie.Room, ← Trie.insert_tree]
      exact Forest.room_insert _ _ _
    obtain ⟨s'', e, h'', -⟩ := add_eq (.inr h') hw hroom
    have hne := h'.not_sameNodes h'' hro
    exact ⟨s'', e, iff_of_false hne (not_not.mpr hro), fun hsame => absurd hsame hne⟩
  · have hset := Forest.settled_insert (a := (Trie.empty.adds ws).size) (b := (Trie.empty.adds ws).size + 1) hro
    rw [Trie.insert_tree] at hset
    exact ⟨s', h'.add_settled hw hset, iff_of_true ⟨rfl, fun _ => rfl, fun _ => rfl, fun _ => rfl⟩ hro, fun _ => rfl⟩

theorem add_add_iff_abx : ∃ s s', fresh.adds [ascii "abc"] = .ok s ∧ s.add (ascii "abx") = .ok s' ∧
    ∃ s'', s'.add (ascii "abx") = .ok s'' ∧ (SameNodes s' s'' ↔ ¬ s.RunsOut (ascii "abx")) ∧ (SameNodes s' s'' → s'' = s') := by
  have hok : ((fresh.adds [ascii "abc"]) >>= fun s => s.add (ascii "abx")).isOk = true := by decide +kernel
  obtain ⟨s', hs'⟩ := exists_ok_of_isOk hok
  obtain ⟨s, hs, hadd⟩ := bind_eq_ok.mp hs'
  exact ⟨s, s', hs, hadd, add_add_iff (by decide) hs (by decide) hadd⟩

/-- After `abc`, the second `add` of `ab` makes the upper half of the split tail a leaf. -/
theorem not_add_add_ab : ∃ s s' s'', fresh.adds [ascii "abc"] = .ok s ∧ s.add (ascii "ab") = .ok s' ∧
    s'.add (ascii "ab") = .ok s'' ∧ ¬ SameNodes s' s'' := by
  have hrun : ((fresh.adds [ascii "abc"]) >>= fun s => s.add (ascii "ab") >>= fun s' => s'.add (ascii "ab") >>= fun s'' =>
      pure (s'.heap.getIsLeaf 1, s''.heap.getIsLeaf 1)) = .ok (.ok false, .ok true) := by decide +kernel
  simp only [bind_eq_ok] at hrun
  obtain ⟨s, hs, s', hs', s'', hs'', e⟩ := hrun
  obtain ⟨h₁, h₂⟩ := Prod.mk.inj (Except.ok.inj e)
  refine ⟨s, s', s'', hs, hs', hs'', fun h => ?_⟩
  have := h.getIsLeaf 1
  rw [h₁, h₂] at this
  cases this

end SearchT

end InfixSearch
