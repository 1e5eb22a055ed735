import InfixSearch.Search.Stored
import InfixSearch.Library.ForestEnds

/-!
# Lists without a wrong turn

Where no call of `add` takes a wrong turn the trie is told by the list of words. The words
stored are those of the list (`Straight.mem_words`). A word that did not end inside a tail
when it was added has a leaf node with a tail (`Straight.endsAt_iff`), and other leaf nodes may be below that
one. No call exits if words go on in no more than 126 ways from any word
(`Straight.rooms_iff`).
-/

namespace InfixSearch

open Library

/-- The word `u` is added at a time when it does not end inside a tail. -/
def Stops (ws : List Str) (u : Str) : Prop := ∃ pre post, ws = pre ++ u :: post ∧ ¬ Forest.Inside pre u

/-- Every occurrence of the key in `w` ends, before `w` does, where a word was added that did
not end inside a tail. -/
def Hidden (ws : List Str) (key w : Str) : Prop :=
  ∀ p, key <+: w.drop p → p + key.length < w.length ∧ Stops ws (w.take (p + key.length))

/-- How the words of a list go on from `u`: with a character, or, for `none`, with the end of
a word that was added when it ended inside a tail. -/
def Goes (ws : List Str) (u : Str) : Option Byte → Prop
  | some c => ∃ w ∈ ws, u ++ [c] <+: w
  | none => ∃ pre post, ws = pre ++ u :: post ∧ Forest.Inside pre u

/-- From no word do the words go on in more ways than a node has children. -/
def Roomy (ws : List Str) : Prop :=
  ∀ (u : Str) (ks : List (Option Byte)), ks.Nodup → (∀ k ∈ ks, Goes ws u k) → ks.length ≤ Node2T.capacity

/-- The places of `x` in a list with one more entry. -/
theorem exists_split_concat {α : Type*} {l : List α} {a x : α} {P : List α → Prop} :
    (∃ pre post, l ++ [a] = pre ++ x :: post ∧ P pre) ↔
      (∃ pre post, l = pre ++ x :: post ∧ P pre) ∨ (a = x ∧ P l) := by
  constructor
  · rintro ⟨pre, post, h, hP⟩
    rcases List.eq_nil_or_concat post with rfl | ⟨post, b, rfl⟩
    · obtain ⟨rfl, he⟩ := List.append_inj' h rfl
      exact .inr ⟨(List.cons.inj he).1, hP⟩
    · rw [List.concat_eq_append, ← List.cons_append, ← List.append_assoc] at h
      exact .inl ⟨pre, post, (List.append_inj' h rfl).1, hP⟩
  · rintro (⟨pre, post, rfl, hP⟩ | ⟨rfl, hP⟩)
    · exact ⟨pre, post ++ [a], by simp, hP⟩
    · exact ⟨l, [], rfl, hP⟩

theorem Goes.mono {us ws : List Str} (h : us <+: ws) {u : Str} {k : Option Byte} (hg : Goes us u k) : Goes ws u k := by
  obtain ⟨vs, rfl⟩ := h
  cases k with
  | none =>
    obtain ⟨pre, post, rfl, hin⟩ := hg
    exact ⟨pre, post ++ vs, by simp, hin⟩
  | some c =>
    obtain ⟨w, hw, hp⟩ := hg
    exact ⟨w, List.mem_append_left vs hw, hp⟩

theorem Roomy.of_isPrefix {us ws : List Str} (h : us <+: ws) (hr : Roomy ws) : Roomy us := fun u ks hnd hg =>
  hr u ks hnd fun k hk => (hg k hk).mono h

namespace Trie

/-- No call of the run takes a wrong turn. -/
def Straight (ws : List Str) : Prop := ∀ us w, us ++ [w] <+: ws → ¬ (empty.adds us).Strays w

theorem adds_concat (T : Trie) (us : List Str) (w : Str) : T.adds (us ++ [w]) = (T.adds us).add w := by
  simp [adds]

theorem rooms_concat {T : Trie} {us : List Str} {w : Str} :
    T.Rooms (us ++ [w]) ↔ T.Rooms us ∧ (T.adds us).Room w := by
  induction us generalizing T with
  | nil => simp [Rooms, adds]
  | cons u us ih =>
    have hadds : T.adds (u :: us) = (T.add u).adds us := rfl
    rw [List.cons_append, Rooms, Rooms, ih, hadds, and_assoc]

theorem mem_forest_words {T : Trie} {w : Str} (hne : w ≠ []) : w ∈ T.forest.words [] ↔ w ∈ T.words := by
  rw [words, List.mem_append]
  cases T.leaf <;> simp [hne]

/-- There is room for all words if no node of the trie in the end has too many children. -/
theorem rooms_iff_widthsLe (ws : List Str) : empty.Rooms ws ↔ (empty.adds ws).tree.WidthsLe Node2T.capacity := by
  induction ws using List.reverseRecOn with
  | nil => simp [Rooms, adds, tree, empty, Forest.WidthsLe, Forest.width]
  | append_singleton us w ih =>
    rw [rooms_concat, ih, adds_concat, Room, ← insert_tree, Forest.widthsLe_insert (by decide)]

namespace Straight

variable {ws : List Str}

theorem concat {us : List Str} {w : Str} (h : Straight us) (hs : ¬ (empty.adds us).Strays w) : Straight (us ++ [w]) := by
  intro vs x hp
  rcases List.prefix_concat_iff.mp hp with he | hp
  · obtain ⟨rfl, hx⟩ := List.append_inj' he rfl
    rwa [List.singleton_inj.mp hx]
  · exact h vs x hp

theorem of_isPrefix {us : List Str} (h : us <+: ws) (hs : Straight ws) : Straight us := fun vs w hp => hs vs w (hp.trans h)

/-- The words stored are those of the list. -/
theorem mem_words (h : Straight ws) {x : Str} : x ∈ (empty.adds ws).words ↔ x ∈ ws := by
  induction ws using List.reverseRecOn with
  | nil => simp [adds, empty, words, Forest.words]
  | append_singleton us w ih =>
    rw [adds_concat, mem_words_add, ih (h.of_isPrefix (List.prefix_append _ _)), filed_eq_iff.mpr (h us w List.prefix_rfl),
      List.mem_append, List.mem_singleton]

/-- A word that is added ends inside a tail if and only if the list says so. -/
theorem runsOut_iff (h : Straight ws) {w : Str} (hne : w ≠ []) (hs : ¬ (empty.adds ws).Strays w) :
    (empty.adds ws).forest.RunsOut w ↔ Forest.Inside ws w := by
  rw [Forest.runsOut_iff (empty.adds ws).wf hne fun hst => hs ⟨hne, hst⟩]
  refine Forest.inside_congr fun x hp => ?_
  rw [mem_forest_words (fun h0 => hne (List.prefix_nil.mp (h0 ▸ hp))), h.mem_words]

/-- **How a word ends**: by a leaf node with an empty tail if it was added when it ended inside
a tail, and by one with a tail if it was added when it did not. -/
theorem endsAt_iff (h : Straight ws) {e : Prop} {x : Str} : (empty.adds ws).forest.EndsAt e [] x ↔
    x ≠ [] ∧ ∃ pre post, ws = pre ++ x :: post ∧ (Forest.Inside pre x ↔ e) := by
  induction ws using List.reverseRecOn with
  | nil => simp [adds, empty, Forest.not_endsAt_nil]
  | append_singleton us w ih =>
    have hus := h.of_isPrefix (List.prefix_append us [w])
    have hst := h us w List.prefix_rfl
    rw [exists_split_concat (P := fun pre => Forest.Inside pre x ↔ e), and_or_left, ← ih hus, adds_concat, add]
    split_ifs with hw
    · -- the empty word ends at the head
      refine (or_iff_left ?_).symm
      rintro ⟨hx, rfl, -⟩
      exact hx hw
    · rw [Forest.endsAt_insert hw fun hs => hst ⟨hw, hs⟩, hus.runsOut_iff hw hst]
      refine or_congr_right ⟨?_, ?_⟩
      · rintro ⟨rfl, he⟩
        exact ⟨hw, rfl, he⟩
      · rintro ⟨-, rfl, he⟩
        exact ⟨rfl, he⟩

/-- A leaf node with a tail spells the word. -/
theorem stops_iff (h : Straight ws) {x : Str} (hx : x ≠ []) :
    (empty.adds ws).forest.EndsAt False [] x ↔ Stops ws x := by
  simp [h.endsAt_iff, hx, Stops]

theorem goes_iff (h : Straight ws) {u : Str} {k : Option Byte} : (empty.adds ws).forest.Goes u k ↔ Goes ws u k := by
  cases k with
  | none =>
    simp only [Forest.Goes, Goes, h.endsAt_iff, iff_true]
    exact and_iff_right_of_imp fun ⟨_, _, _, hin⟩ => hin.1
  | some c =>
    refine exists_congr fun w => and_congr_left fun hp => ?_
    have hne : w ≠ [] := fun h0 => by simp [h0] at hp
    rw [mem_forest_words hne, h.mem_words]

/-- **No call exits** if and only if there is room for the words. -/
theorem rooms_iff (h : Straight ws) : empty.Rooms ws ↔ Roomy ws := by
  have hwidths : (empty.adds ws).tree.WidthsLe Node2T.capacity ↔
      (empty.adds ws).forest.width ≤ Node2T.capacity ∧ (empty.adds ws).forest.WidthsLe Node2T.capacity := by
    simp [tree, Forest.WidthsLe]
  rw [rooms_iff_widthsLe, hwidths, Forest.widthsLe_iff_goes (by decide) (empty.adds ws).wf]
  simp only [h.goes_iff]
  rfl

end Straight

end Trie

namespace SearchT

/-- A run without a wrong turn, and with room for its words. -/
theorem straight_of_run {ws : List Str} (hws : ∀ w ∈ ws, NulFree w) (h : Trie.empty.Rooms ws ∨ Roomy ws)
    (hturn : ∀ us w s, us ++ [w] <+: ws → fresh.adds us = .ok s → ¬ s.WrongTurn w) : Trie.Straight ws := by
  induction ws using List.reverseRecOn with
  | nil => exact fun us w hp => by simp at hp
  | append_singleton us w ih =>
    have hp := List.prefix_append us [w]
    have hw : ∀ x ∈ us, NulFree x := fun x hx => hws x (hp.subset hx)
    have h' : Trie.empty.Rooms us ∨ Roomy us := h.imp (fun h => (Trie.rooms_concat.mp h).1) (Roomy.of_isPrefix hp)
    have hus := ih hw h' fun vs x s hx => hturn vs x s (hx.trans hp)
    -- so the words before the last one are added
    obtain ⟨s, hs, hr, -⟩ := adds_eq ready_fresh hw (h'.elim id hus.rooms_iff.mpr)
    exact hus.concat ((hr.wrongTurn_iff (hws w (by simp))).not.mp (hturn us w s List.prefix_rfl hs))

end SearchT

end InfixSearch
