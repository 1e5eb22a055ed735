import InfixSearch.Library.Forest
import InfixSearch.Library.Agree

/-!
# Reading a key down a radix forest

`seek key F` reads `key` down the tree of `F` that has its first symbol, through
as many nodes as it takes, and gives the node in whose tail the last symbol is
matched. `found key F` lists how the words below go on from there — except that
where the key ends exactly at the end of a leaf, it lists that leaf's word only.

`found_eq` says what that amounts to: of the leaves whose words start with `key`,
those that no leaf above cuts off at the length of `key`.
-/

namespace InfixSearch.Library.Forest

universe u v

variable {ι : Type u} {α : Type v}

/-! ### Leaves -/

/-- A leaf: its name, its word, and the lengths of the words that end at the
leaves above it. -/
@[ext]
structure Ending (ι : Type u) (α : Type v) where
  /-- The name. -/
  id : ι
  /-- The word. -/
  word : List α
  /-- Where leaves above end. -/
  cuts : List ℕ

/-- What a node that spells `w` adds to the cuts of the leaves below it. -/
def cut (leaf : Bool) (w : List α) : List ℕ := if leaf then [w.length] else []

/-- The leaves of a forest under the word `u`, below leaves that end at `A`. -/
def leaves : List α → List ℕ → Forest ι α → List (Ending ι α)
  | _, _, nil => []
  | u, A, node id t leaf cs sib =>
    (if leaf then [⟨id, u ++ t, A⟩] else []) ++ (cs.leaves (u ++ t) (A ++ cut leaf (u ++ t)) ++ sib.leaves u A)

theorem mem_leaves_node {u : List α} {A : List ℕ} {id : ι} {t : List α} {leaf : Bool} {cs sib : Forest ι α}
    {l : Ending ι α} : l ∈ (node id t leaf cs sib).leaves u A ↔
      (leaf = true ∧ l = ⟨id, u ++ t, A⟩) ∨ l ∈ cs.leaves (u ++ t) (A ++ cut leaf (u ++ t)) ∨ l ∈ sib.leaves u A := by
  cases leaf <;> simp [leaves]

@[simp] theorem map_word_leaves (u : List α) (A : List ℕ) (F : Forest ι α) :
    (F.leaves u A).map Ending.word = F.words u := by
  induction F generalizing u A with
  | nil => rfl
  | node id t leaf cs sib ihc ihs => cases leaf <;> simp [leaves, words, ihc, ihs]

/-- The names of the leaves are names of nodes, in order. -/
theorem map_id_leaves_sublist (u : List α) (A : List ℕ) (F : Forest ι α) :
    ((F.leaves u A).map Ending.id).Sublist F.ids := by
  induction F generalizing u A with
  | nil => exact List.Sublist.slnil
  | node id t leaf cs sib ihc ihs =>
    simp only [leaves, ids, List.map_append]
    cases leaf with
    | false => exact ((ihc _ _).append (ihs _ _)).cons _
    | true => exact ((ihc _ _).append (ihs _ _)).cons_cons _

theorem prefix_of_mem_leaves {u : List α} {A : List ℕ} {F : Forest ι α} {l : Ending ι α} (h : l ∈ F.leaves u A) :
    u <+: l.word := by
  induction F generalizing u A with
  | nil => simp [leaves] at h
  | node id t leaf cs sib ihc ihs =>
    rw [mem_leaves_node] at h
    rcases h with ⟨-, rfl⟩ | h | h
    · exact List.prefix_append _ _
    · exact (List.prefix_append _ _).trans (ihc h)
    · exact ihs h

/-- A word and cuts put before the forest are put before its leaves' own. -/
theorem leaves_append (u u' : List α) (A B : List ℕ) (F : Forest ι α) :
    F.leaves (u ++ u') (A ++ B.map (u.length + ·)) =
      (F.leaves u' B).map fun l => ⟨l.id, u ++ l.word, A ++ l.cuts.map (u.length + ·)⟩ := by
  induction F generalizing u' B with
  | nil => rfl
  | node id t leaf cs sib ihc ihs =>
    have hcut : cut leaf (u ++ (u' ++ t)) = (cut leaf (u' ++ t)).map (u.length + ·) := by
      cases leaf <;> simp [cut]
    simp only [leaves, List.append_assoc, ihs, List.map_append, hcut]
    rw [← List.map_append, ihc]
    cases leaf <;> simp

/-- What is below a node is its own leaf and the leaves of its children, each behind its tail. -/
theorem leaves_single (id : ι) (t : List α) (leaf : Bool) (cs : Forest ι α) :
    (node id t leaf cs nil).leaves [] [] =
      (if leaf then [⟨id, t, []⟩] else []) ++
        (cs.leaves [] []).map fun l => ⟨l.id, t ++ l.word, cut leaf t ++ l.cuts.map (t.length + ·)⟩ := by
  have := leaves_append t [] (cut leaf t) [] cs
  simp only [List.append_nil, List.map_nil] at this
  simp [leaves, this]

/-- The leaves are the sites that are leaves. -/
theorem mem_leaves_iff_site {u : List α} {A : List ℕ} {F : Forest ι α} {i : ι} {w : List α} :
    (∃ A', ⟨i, w, A'⟩ ∈ F.leaves u A) ↔ ∃ S ∈ F.sites u, S.id = i ∧ S.word = w ∧ S.leaf = true := by
  induction F generalizing u A with
  | nil => simp [leaves, sites]
  | node id t leaf cs sib ihc ihs =>
    simp only [mem_leaves_node, exists_or, ihc, ihs, mem_sites_node, or_and_right, exists_eq_left]
    refine or_congr_left ⟨?_, ?_⟩
    · rintro ⟨A', hl, he⟩
      rw [Ending.mk.injEq] at he
      exact ⟨he.1.symm, he.2.1.symm, hl⟩
    · rintro ⟨rfl, rfl, hl⟩
      exact ⟨A, hl, rfl⟩

/-- A leaf is cut where a leaf above it ends. -/
theorem mem_cuts_iff {u : List α} {A : List ℕ} {F : Forest ι α} (hn : F.ids.Nodup) {l : Ending ι α}
    (hl : l ∈ F.leaves u A) {n : ℕ} :
    n ∈ l.cuts ↔ n ∈ A ∨ ∃ B ∈ F.sites u, B.leaf = true ∧ l.id ∈ B.children.ids ∧ B.word <+: l.word ∧ B.word.length = n := by
  induction F generalizing u A with
  | nil => simp [leaves] at hl
  | node id t leaf cs sib ihc ihs =>
    simp only [ids, List.nodup_cons, List.mem_append, not_or, List.nodup_append] at hn
    obtain ⟨⟨hic, his⟩, hnc, hns, hdis⟩ := hn
    -- a leaf is below no site of another part of the forest
    have hfar : ∀ {u : List α} {F : Forest ι α} {i : ι}, i ∉ F.ids →
        ¬ ∃ B ∈ F.sites u, B.leaf = true ∧ i ∈ B.children.ids ∧ B.word <+: l.word ∧ B.word.length = n := by
      rintro u F i hi ⟨B, hB, -, hm, -⟩
      exact hi (ids_children_subset hB hm)
    simp only [mem_sites_node, or_and_right, exists_or, exists_eq_left]
    rw [mem_leaves_node] at hl
    rcases hl with ⟨-, rfl⟩ | hl | hl
    · simp only [hfar hic, hfar his, or_false]
      exact ⟨.inl, fun h => h.resolve_right fun h => hic h.2.1⟩
    · have hid : l.id ∈ cs.ids := (map_id_leaves_sublist _ _ _).subset (List.mem_map_of_mem hl)
      simp only [hfar fun hm => hdis _ hid _ hm rfl, or_false]
      rw [ihc hnc hl, List.mem_append, or_assoc]
      refine or_congr_right (or_congr_left ?_)
      cases leaf with
      | false => simp [cut]
      | true =>
        have hp := prefix_of_mem_leaves hl
        simp only [cut, if_true, List.mem_singleton, true_and, Site.word]
        exact ⟨fun h => ⟨hid, hp, h.symm⟩, fun h => h.2.2.symm⟩
    · have hid : l.id ∈ sib.ids := (map_id_leaves_sublist _ _ _).subset (List.mem_map_of_mem hl)
      have hnot : l.id ∉ cs.ids := fun hm => hdis _ hm _ hid rfl
      simp only [hfar hnot, hnot, false_and, and_false, false_or]
      exact ihs hns hl

/-- In a well-formed forest no leaf is cut at length `0`. -/
theorem WF.cuts_pos {F : Forest ι α} (h : F.WF) {u : List α} {A : List ℕ} (hA : ∀ q ∈ A, 0 < q) {l : Ending ι α}
    (hl : l ∈ F.leaves u A) : ∀ q ∈ l.cuts, 0 < q := by
  induction F generalizing u A with
  | nil => simp [leaves] at hl
  | node id t leaf cs sib ihc ihs =>
    rw [mem_leaves_node] at hl
    rcases hl with ⟨-, rfl⟩ | hl | hl
    · exact hA
    · refine ihc h.2.2.2.1 (fun q hq => ?_) hl
      rw [List.mem_append] at hq
      rcases hq with hq | hq
      · exact hA q hq
      · cases t with
        | nil => rw [(h.1 rfl).2] at hl; simp [leaves] at hl
        | cons c t =>
          cases leaf with
          | false => simp [cut] at hq
          | true => simp [cut] at hq; omega
    · exact ihs h.2.2.2.2 hA hl

/-! ### Seeking -/

variable [DecidableEq α]

/-- Where a key ends: the node whose tail matches its last symbol, with what is
left of that tail. -/
structure Hit (ι : Type u) (α : Type v) where
  /-- The name of the node. -/
  id : ι
  /-- What is left of its tail. -/
  rest : List α
  /-- Whether a word ends at the node. -/
  leaf : Bool
  /-- The children of the node. -/
  children : Forest ι α

/-- The key ends where a word does. -/
def Hit.exact (hit : Hit ι α) : Bool := hit.leaf && hit.rest.isEmpty

/-- How the words below a hit go on. -/
def Hit.suffixes (hit : Hit ι α) : List (List α) :=
  if hit.exact then [[]] else (node hit.id hit.rest hit.leaf hit.children nil).words []

/-- Read a key down a forest. -/
def seek : List α → Forest ι α → Option (Hit ι α)
  | _, nil => none
  | key, node id t leaf cs sib =>
    if t.head? = key.head? then
      if agree t key = key.length then some ⟨id, t.drop (agree t key), leaf, cs⟩
      else if agree t key < t.length then none
      else cs.seek (key.drop (agree t key))
    else sib.seek key

/-- How the words that start with the key go on, as far as they are listed. -/
def found (key : List α) (F : Forest ι α) : List (List α) :=
  match F.seek key with
  | none => []
  | some hit => hit.suffixes

section Equations

variable {id : ι} {t key : List α} {leaf : Bool} {cs sib : Forest ι α}

theorem seek_skip (h : t.head? ≠ key.head?) : (node id t leaf cs sib).seek key = sib.seek key := by
  simp [seek, h]

theorem seek_end (h : t.head? = key.head?) (hk : agree t key = key.length) :
    (node id t leaf cs sib).seek key = some ⟨id, t.drop key.length, leaf, cs⟩ := by
  simp [seek, h, hk]

theorem seek_part (h : t.head? = key.head?) (hk : agree t key ≠ key.length) (hlt : agree t key < t.length) :
    (node id t leaf cs sib).seek key = none := by
  simp [seek, h, hk, hlt]

theorem seek_down (h : t.head? = key.head?) (hk : agree t key ≠ key.length) (hlt : ¬ agree t key < t.length) :
    (node id t leaf cs sib).seek key = cs.seek (key.drop t.length) := by
  have ht : agree t key = t.length := le_antisymm (agree_le_left t key) (Nat.le_of_not_lt hlt)
  have : t.length ≠ key.length := ht ▸ hk
  simp [seek, h, ht, this]

end Equations

/-- How the search goes on at a node: past it, it ends there, it parts from the
tail, or it goes on below. -/
theorem seek_cases {P : Prop} (t key : List α) (skip : t.head? ≠ key.head? → P)
    (stop : t.head? = key.head? → agree t key = key.length → P)
    (part : t.head? = key.head? → agree t key ≠ key.length → agree t key < t.length → P)
    (down : t.head? = key.head? → agree t key ≠ key.length → ¬ agree t key < t.length → P) : P := by
  by_cases h : t.head? = key.head?
  · by_cases hk : agree t key = key.length
    · exact stop h hk
    · by_cases hlt : agree t key < t.length
      · exact part h hk hlt
      · exact down h hk hlt
  · exact skip h

/-- A key that starts with no tree's key is not found. -/
theorem seek_eq_none_of_notMem {key : List α} {F : Forest ι α} (h : key.head? ∉ F.keys) : F.seek key = none := by
  induction F with
  | nil => rfl
  | node id t leaf cs sib _ ih =>
    rw [keys, List.mem_cons, not_or] at h
    rw [seek_skip (Ne.symm h.1), ih h.2]

/-- A hit is at a site, and reading the key and the rest of the tail spells its word. -/
theorem exists_site_of_seek {key u : List α} {F : Forest ι α} {hit : Hit ι α} (hne : key ≠ []) (h : F.seek key = some hit) :
    ∃ S ∈ F.sites u, S.id = hit.id ∧ S.leaf = hit.leaf ∧ S.children = hit.children ∧
      S.word = u ++ key ++ hit.rest ∧ S.tail ≠ [] := by
  induction F generalizing key u with
  | nil => simp [seek] at h
  | node id t leaf cs sib ihc ihs =>
    refine seek_cases t key (fun hh => ?_) (fun hh hk => ?_) (fun hh hk hlt => ?_) (fun hh hk hlt => ?_)
    · rw [seek_skip hh] at h
      obtain ⟨S, hS, hrest⟩ := ihs (u := u) hne h
      exact ⟨S, by rw [mem_sites_node]; exact .inr (.inr hS), hrest⟩
    · rw [seek_end hh hk, Option.some.injEq] at h
      subst h
      refine ⟨⟨u, id, t, leaf, cs⟩, by rw [mem_sites_node]; exact .inl rfl, rfl, rfl, rfl, ?_, ?_⟩
      · have := take_agree t key
        rw [hk, List.take_length] at this
        have happ : key ++ t.drop key.length = t := by
          nth_rewrite 1 [← this]
          exact List.take_append_drop _ _
        simp only [Site.word, List.append_assoc, happ]
      · rintro rfl
        cases key with
        | nil => exact hne rfl
        | cons c key => simp at hh
    · rw [seek_part hh hk hlt] at h
      exact absurd h (by simp)
    · rw [seek_down hh hk hlt] at h
      have ht : agree t key = t.length := le_antisymm (agree_le_left t key) (Nat.le_of_not_lt hlt)
      have happ : t ++ key.drop t.length = key := by
        have := drop_agree_of_length hlt
        rwa [ht] at this
      have hne' : key.drop t.length ≠ [] := by
        intro h0
        rw [List.drop_eq_nil_iff] at h0
        have := agree_le_right t key
        omega
      obtain ⟨S, hS, h1, h2, h3, h4, h5⟩ := ihc (u := u ++ t) hne' h
      refine ⟨S, by rw [mem_sites_node]; exact .inr (.inl hS), h1, h2, h3, ?_, h5⟩
      rw [h4, List.append_assoc u, happ]

omit [DecidableEq α] in
/-- What a hit lists are the words below it. -/
theorem Hit.suffixes_subset (hit : Hit ι α) :
    hit.suffixes ⊆ (node hit.id hit.rest hit.leaf hit.children nil).words [] := by
  rw [suffixes]
  split_ifs with hex
  · rw [exact, Bool.and_eq_true, List.isEmpty_iff] at hex
    intro x hx
    rw [List.mem_singleton.mp hx, hex.2]
    exact mem_words_node.mpr (.inl ⟨hex.1, rfl⟩)
  · intro x hx
    exact hx

/-- The words below a hit go on from the key. -/
theorem mem_words_of_seek {key u w : List α} {F : Forest ι α} {hit : Hit ι α} (hne : key ≠ [])
    (h : F.seek key = some hit) (hw : w ∈ (node hit.id hit.rest hit.leaf hit.children nil).words (u ++ key)) :
    w ∈ F.words u := by
  obtain ⟨S, hS, -, hl, hc, hword, -⟩ := exists_site_of_seek (u := u) hne h
  rw [mem_words_node, ← hl, ← hc, ← hword] at hw
  rcases hw with ⟨hl, rfl⟩ | hw | hw
  · exact mem_words_iff_site.mpr ⟨S, hS, hl, rfl⟩
  · exact mem_words_of_site hS hw
  · simp [words] at hw

/-- A word that starts with the key is read. -/
theorem exists_seek_of_prefix {key w : List α} {F : Forest ι α} (hF : F.WF) (hne : key ≠ []) (hw : w ∈ F.words [])
    (hp : key <+: w) : ∃ hit, F.seek key = some hit := by
  induction F generalizing key w with
  | nil => simp [words] at hw
  | node id t leaf cs sib ihc ihs =>
    have htree := hF.tree
    obtain ⟨-, -, h3, h4, h5⟩ := hF
    have hhead : w.head? = key.head? := by
      obtain ⟨x, rfl⟩ := hp
      exact List.head?_append_of_ne_nil _ hne
    have hw' := mem_words_or.mp hw
    by_cases hh : t.head? = key.head?
    · have hnot : w ∉ sib.words [] := by
        intro hw
        exact h3 (by rw [hh, ← hhead]; exact h5.head?_mem_keys hw)
      have hw := mem_words_single.mp (hw'.resolve_right hnot)
      have htw : t <+: w := by
        rcases hw with ⟨-, rfl⟩ | ⟨x, -, rfl⟩
        · exact List.prefix_rfl
        · exact List.prefix_append t x
      rcases Nat.lt_or_ge t.length key.length with hlt | hge
      · -- the key goes on below the tail
        obtain ⟨key', rfl⟩ := List.prefix_of_prefix_length_le htw hp hlt.le
        have hag : agree t (t ++ key') = t.length := agree_eq_length_left_iff.mpr (List.prefix_append t key')
        have hne' : key' ≠ [] := by rintro rfl; simp at hlt
        rw [seek_down hh (by omega) (by omega), List.drop_left]
        rcases hw with ⟨-, rfl⟩ | ⟨x, hx, rfl⟩
        · have := hp.length_le
          omega
        · exact ihc h4 hne' hx ((List.prefix_append_right_inj t).mp hp)
      · have hkt : key <+: t := List.prefix_of_prefix_length_le hp htw hge
        exact ⟨_, seek_end hh (agree_eq_length_right_iff.mpr hkt)⟩
    · rw [seek_skip hh]
      refine ihs h5 hne (hw'.resolve_left fun hw => hh ?_) hp
      have hk := htree.head?_mem_keys hw
      rw [keys, keys, List.mem_singleton, hhead] at hk
      exact hk.symm

theorem seek_isSome_iff {key : List α} {F : Forest ι α} (hF : F.WF) (hne : key ≠ []) :
    (F.seek key).isSome ↔ ∃ w ∈ F.words [], key <+: w := by
  constructor
  · intro h
    obtain ⟨hit, hseek⟩ := Option.isSome_iff_exists.mp h
    obtain ⟨S, hS, -, -, -, hword, -⟩ := exists_site_of_seek (u := []) hne hseek
    obtain ⟨w, hw, hp⟩ := hF.exists_word_append hS
    rw [hword, List.nil_append] at hp
    exact ⟨w, hw, (List.prefix_append key hit.rest).trans hp⟩
  · rintro ⟨w, hw, hp⟩
    obtain ⟨hit, hseek⟩ := exists_seek_of_prefix hF hne hw hp
    rw [hseek]
    rfl

/-- Reading the word of a node with a tail ends at the node. -/
theorem seek_of_site {u : List α} {F : Forest ι α} (hF : F.WF) {S : Site ι α} (hS : S ∈ F.sites u) (ht : S.tail ≠ []) :
    (S.word.drop u.length).head? ∈ F.keys ∧
      F.seek (S.word.drop u.length) = some ⟨S.id, [], S.leaf, S.children⟩ := by
  induction F generalizing u with
  | nil => simp [sites] at hS
  | node id t leaf cs sib ihc ihs =>
    obtain ⟨h1, -, h3, h4, h5⟩ := hF
    rw [mem_sites_node] at hS
    rcases hS with rfl | hS | hS
    · rw [Site.word, List.drop_left]
      exact ⟨List.mem_cons_self, by rw [seek_end rfl (agree_self t), List.drop_length]⟩
    · obtain ⟨-, hseek⟩ := ihc h4 hS
      have htail : t ≠ [] := by
        rintro rfl
        rw [(h1 rfl).2] at hS
        simp [sites] at hS
      obtain ⟨v, hv⟩ := prefix_pre_of_mem_sites hS
      obtain ⟨key, hkey, hne⟩ : ∃ key, S.word = u ++ t ++ key ∧ key ≠ [] :=
        ⟨v ++ S.tail, by rw [Site.word, ← hv, List.append_assoc (u ++ t)], by simp [ht]⟩
      rw [hkey, List.drop_left] at hseek
      rw [hkey, List.append_assoc, List.drop_left, List.head?_append_of_ne_nil _ htail]
      have hag : agree t (t ++ key) = t.length := agree_eq_length_left_iff.mpr (List.prefix_append t key)
      have hpos := List.length_pos_iff.mpr hne
      refine ⟨List.mem_cons_self, ?_⟩
      rw [seek_down (List.head?_append_of_ne_nil _ htail).symm (by rw [List.length_append]; omega) (by omega),
        List.drop_left, hseek]
    · obtain ⟨hk, hseek⟩ := ihs h5 hS
      exact ⟨List.mem_cons_of_mem _ hk, by rw [seek_skip fun he => h3 (by rw [he]; exact hk), hseek]⟩

/-- A key that starts like a root is read in its tree. -/
theorem seek_of_root {u key : List α} {F : Forest ι α} (hF : F.WF) {S : Site ι α} (hS : S ∈ F.sites u) (hpre : S.pre = u)
    (hh : S.tail.head? = key.head?) :
    S.tail.head? ∈ F.keys ∧ F.seek key = (node S.id S.tail S.leaf S.children nil).seek key := by
  induction F generalizing u with
  | nil => simp [sites] at hS
  | node id t leaf cs sib ihc ihs =>
    obtain ⟨h1, -, h3, h4, h5⟩ := hF
    rw [mem_sites_node] at hS
    rcases hS with rfl | hS | hS
    · have hh' : t.head? = key.head? := hh
      exact ⟨List.mem_cons_self, by simp [seek, hh']⟩
    · have hle := (prefix_pre_of_mem_sites hS).length_le
      rw [hpre, List.length_append] at hle
      obtain rfl : t = [] := List.length_eq_zero_iff.mp (by omega)
      rw [(h1 rfl).2] at hS
      simp [sites] at hS
    · obtain ⟨hk, hseek⟩ := ihs h5 hS hpre
      exact ⟨List.mem_cons_of_mem _ hk, by rw [seek_skip fun he => h3 (by rw [he, ← hh]; exact hk), hseek]⟩

/-! ### What is found -/

/-- The key ends at length `p + key.length` in the word of `l`, where no leaf above ends. -/
def Shown (key : List α) (l : Ending ι α) (p : ℕ) : Prop :=
  key <+: l.word.drop p ∧ p + key.length ∉ l.cuts

instance (key : List α) (l : Ending ι α) (p : ℕ) : Decidable (Shown key l p) := inferInstanceAs (Decidable (_ ∧ _))

/-- How the words of the leaves that are shown at their start go on from the key. -/
def onwards (key : List α) (F : Forest ι α) : List (List α) :=
  ((F.leaves [] []).filter (Shown key · 0)).map fun l => l.word.drop key.length

theorem onwards_node {key : List α} {id : ι} {t : List α} {leaf : Bool} {cs sib : Forest ι α} :
    onwards key (node id t leaf cs sib) = onwards key (node id t leaf cs nil) ++ onwards key sib := by
  simp [onwards, leaves]

/-- Where no word starts with the key nothing is shown. -/
theorem onwards_eq_nil {key : List α} {F : Forest ι α} (h : ∀ w ∈ F.words [], ¬ key <+: w) : onwards key F = [] := by
  rw [onwards, List.map_eq_nil_iff, List.filter_eq_nil_iff]
  intro l hl
  have hw : l.word ∈ F.words [] := by rw [← map_word_leaves [] []]; exact List.mem_map_of_mem hl
  simpa [Shown] using fun hp => absurd hp (h l.word hw)

omit [DecidableEq α] in
/-- No word starts with a key that starts with no tree's key. -/
theorem WF.not_prefix_of_notMem {key : List α} {F : Forest ι α} (hF : F.WF) (hne : key ≠ []) (h : key.head? ∉ F.keys) :
    ∀ w ∈ F.words [], ¬ key <+: w := by
  rintro w hw ⟨x, rfl⟩
  have hk := hF.head?_mem_keys hw
  rw [List.head?_append_of_ne_nil _ hne] at hk
  exact h hk

/-- Where the key parts from the tail no word below starts with it. -/
theorem not_prefix_of_part {key t : List α} {id : ι} {leaf : Bool} {cs : Forest ι α} (hk : agree t key ≠ key.length)
    (hlt : agree t key < t.length) : ∀ w ∈ (node id t leaf cs nil).words [], ¬ key <+: w := by
  intro w hw hp
  have htw := prefix_of_mem_words hw
  rcases Nat.lt_or_ge t.length key.length with hl | hl
  · have := agree_eq_length_left_iff.mpr (List.prefix_of_prefix_length_le htw hp hl.le)
    omega
  · exact hk (agree_eq_length_right_iff.mpr (List.prefix_of_prefix_length_le hp htw hl))

/-- Where the key ends in a tail, all the words below are shown, unless it ends at the very
end of a leaf's. -/
theorem onwards_of_prefix {key t : List α} {id : ι} {leaf : Bool} {cs : Forest ι α} (hp : key <+: t) (hcs : cs.WF) :
    onwards key (node id t leaf cs nil) = (⟨id, t.drop key.length, leaf, cs⟩ : Hit ι α).suffixes := by
  have hlen : key.length ≤ t.length := hp.length_le
  have hself : (if leaf then [(⟨id, t, []⟩ : Ending ι α)] else []).filter (Shown key · 0) =
      if leaf then [⟨id, t, []⟩] else [] := by
    cases leaf <;> simp [Shown, hp]
  rw [onwards, leaves_single, List.filter_append, List.filter_map, hself]
  by_cases hx : leaf = true ∧ key.length = t.length
  · -- the leaves below are cut off
    obtain ⟨rfl, hl⟩ := hx
    have hbelow : (cs.leaves [] []).filter ((Shown key · 0) ∘ fun l =>
        (⟨l.id, t ++ l.word, cut true t ++ l.cuts.map (t.length + ·)⟩ : Ending ι α)) = [] := by
      rw [List.filter_eq_nil_iff]
      intro l _
      simp [Shown, cut, hl]
    rw [hbelow]
    simp [Hit.suffixes, Hit.exact, hl]
  · have hex : (⟨id, t.drop key.length, leaf, cs⟩ : Hit ι α).exact = false := by
      have : leaf = true → ¬ t.length ≤ key.length := fun h hle => hx ⟨h, le_antisymm hlen hle⟩
      cases leaf <;> simp_all [Hit.exact]
    have hbelow : (cs.leaves [] []).filter ((Shown key · 0) ∘ fun l =>
        (⟨l.id, t ++ l.word, cut leaf t ++ l.cuts.map (t.length + ·)⟩ : Ending ι α)) = cs.leaves [] [] := by
      rw [List.filter_eq_self]
      intro l hl
      have hpos := hcs.cuts_pos (by simp) hl
      simp only [Function.comp, Shown, List.drop_zero, Nat.zero_add, decide_eq_true_eq]
      refine ⟨hp.trans (List.prefix_append _ _), ?_⟩
      rw [List.mem_append, not_or]
      constructor
      · cases leaf with
        | false => simp [cut]
        | true => simpa [cut] using fun h => hx ⟨rfl, h⟩
      · rw [List.mem_map]
        rintro ⟨q, hq, he⟩
        have := hpos q hq
        omega
    have hw := words_append (t.drop key.length) [] cs
    rw [List.append_nil] at hw
    rw [hbelow]
    simp only [Hit.suffixes, hex, words, List.nil_append, List.append_nil, hw, Bool.false_eq_true, if_false]
    rw [List.map_append, List.map_map, ← map_word_leaves [] [] cs, List.map_map]
    congr 1
    · cases leaf <;> simp
    · refine List.map_congr_left fun l _ => ?_
      simp [List.drop_append_of_le_length hlen]

/-- Where the key goes on below the tail, what is shown below the children is shown. -/
theorem onwards_append {key t : List α} {id : ι} {leaf : Bool} {cs : Forest ι α} (hne : key ≠ []) :
    onwards (t ++ key) (node id t leaf cs nil) = onwards key cs := by
  have hc : key.length ≠ 0 := fun h => hne (List.length_eq_zero_iff.mp h)
  have hself : (if leaf then [(⟨id, t, []⟩ : Ending ι α)] else []).filter (Shown (t ++ key) · 0) = [] := by
    have : ¬ t ++ key <+: t := by
      intro h
      have := h.length_le
      rw [List.length_append] at this
      omega
    cases leaf <;> simp [Shown, this]
  have hbelow : (cs.leaves [] []).filter ((Shown (t ++ key) · 0) ∘ fun l =>
      (⟨l.id, t ++ l.word, cut leaf t ++ l.cuts.map (t.length + ·)⟩ : Ending ι α)) =
      (cs.leaves [] []).filter (Shown key · 0) := by
    refine List.filter_congr fun l _ => ?_
    cases leaf <;> simp [Shown, cut, List.prefix_append_right_inj, hc]
  rw [onwards, leaves_single, List.filter_append, List.filter_map, hself, hbelow, List.nil_append, List.map_map]
  refine List.map_congr_left fun l _ => ?_
  simp

/-- **What is found**: of the leaves whose words start with the key, those that no
leaf above cuts off at the end of the key. -/
theorem found_eq {key : List α} {F : Forest ι α} (hF : F.WF) (hne : key ≠ []) :
    found key F = ((F.leaves [] []).filter (Shown key · 0)).map fun l => l.word.drop key.length := by
  change found key F = onwards key F
  induction F generalizing key with
  | nil => rfl
  | node id t leaf cs sib ihc ihs =>
    have htree := hF.tree
    obtain ⟨-, -, h3, h4, h5⟩ := hF
    have hsib : t.head? = key.head? → onwards key sib = [] := fun hh =>
      onwards_eq_nil (h5.not_prefix_of_notMem hne (hh ▸ h3))
    rw [onwards_node]
    refine seek_cases t key (fun hh => ?_) (fun hh hk => ?_) (fun hh hk hlt => ?_) (fun hh hk hlt => ?_)
    · -- the tree has another key
      have hkey : key.head? ∉ (node id t leaf cs nil).keys := by simpa [keys] using Ne.symm hh
      rw [found, seek_skip hh, ← found, ihs h5 hne, onwards_eq_nil (htree.not_prefix_of_notMem hne hkey), List.nil_append]
    · -- the key ends in this tail
      rw [found, seek_end hh hk, hsib hh, List.append_nil, onwards_of_prefix (agree_eq_length_right_iff.mp hk) h4]
    · -- the key parts from the tail
      rw [found, seek_part hh hk hlt, hsib hh, onwards_eq_nil (not_prefix_of_part hk hlt), List.append_nil]
    · -- the key goes on below the tail
      have ht : agree t key = t.length := le_antisymm (agree_le_left t key) (Nat.le_of_not_lt hlt)
      rw [found, seek_down hh hk hlt, ← found, hsib hh, List.append_nil]
      obtain ⟨key', rfl⟩ : t <+: key := agree_eq_length_left_iff.mp ht
      have hne' : key' ≠ [] := by
        rintro rfl
        rw [List.append_nil] at hk ht
        exact hk ht
      rw [List.drop_left, ihc h4 hne', onwards_append hne']

end InfixSearch.Library.Forest
