import InfixSearch.Library.ForestRepeat
import InfixSearch.Library.ForestIndex

/-!
# A radix forest and its words

The shape of a radix forest is told by its words, and by which of them ended inside a tail
when they were inserted.

A word that is inserted without straying ends inside a tail if and only if words go on from
it, and all with the same symbol (`runsOut_iff`). Its leaf then has an empty tail, and a
tail otherwise (`endsAt_insert`). Leaves with a tail cut the leaves below them
(`mem_cuts_iff_endsAt`), and a word has a copy for a key unless all its occurrences are cut
off by them (`mem_copies_iff`). The children of a node are the ways in which words go
on from the word it spells (`widthsLe_iff_goes`).
-/

namespace InfixSearch.Library.Forest

universe u v

variable {ι : Type u} {α : Type v}

/-! ### Words that end inside a tail -/

/-- Words of `W` go on from `u`, and all that begin with it go on with the same symbol. -/
def Inside (W : List (List α)) (u : List α) : Prop :=
  u ≠ [] ∧ ∃ c, (∃ w ∈ W, u ++ [c] <+: w) ∧ ∀ w ∈ W, u <+: w → u ++ [c] <+: w

/-- Only the words that begin with `u` matter. -/
theorem inside_congr {W W' : List (List α)} {u : List α} (h : ∀ w, u <+: w → (w ∈ W ↔ w ∈ W')) :
    Inside W u ↔ Inside W' u := by
  have hext : ∀ {c : α} {w : List α}, u ++ [c] <+: w → u <+: w := fun hp => (List.prefix_append _ _).trans hp
  refine and_congr_right fun _ => exists_congr fun c => and_congr ?_ ?_
  · exact exists_congr fun w => and_congr_left fun hp => h w (hext hp)
  · refine forall_congr' fun w => ⟨fun hall hw hp => ?_, fun hall hw hp => ?_⟩
    · exact hall ((h w hp).mpr hw) hp
    · exact hall ((h w hp).mp hw) hp

/-- A word put before the words is put before the one that ends inside. -/
theorem inside_append {W : List (List α)} {t r : List α} (hne : r ≠ []) :
    Inside (W.map (t ++ ·)) (t ++ r) ↔ Inside W r := by
  simp [Inside, hne, List.prefix_append_right_inj]

section Node

variable {id : ι} {t r : List α} {leaf : Bool} {cs sib : Forest ι α}

theorem inside_skip (h : (node id t leaf cs sib).WF) (hne : r ≠ []) (hh : t.head? ≠ r.head?) :
    Inside ((node id t leaf cs sib).words []) r ↔ Inside (sib.words []) r := by
  refine inside_congr fun w hp => ?_
  have hnot : w ∉ (node id t leaf cs nil).words [] := fun hw =>
    h.tree.not_prefix_of_notMem hne (by simpa [keys] using Ne.symm hh) w hw hp
  rw [mem_words_or]
  exact or_iff_right hnot

theorem inside_tree (h : (node id t leaf cs sib).WF) (hne : r ≠ []) (hh : t.head? = r.head?) :
    Inside ((node id t leaf cs sib).words []) r ↔ Inside ((node id t leaf cs nil).words []) r := by
  refine inside_congr fun w hp => ?_
  have hnot : w ∉ sib.words [] := fun hw => h.2.2.2.2.not_prefix_of_notMem hne (hh ▸ h.2.2.1) w hw hp
  rw [mem_words_or]
  exact or_iff_left hnot

theorem inside_down (hne : r ≠ []) : Inside ((node id t leaf cs nil).words []) (t ++ r) ↔ Inside (cs.words []) r := by
  rw [← inside_append hne (t := t)]
  refine inside_congr fun w hp => ?_
  rw [mem_words_single, List.mem_map]
  constructor
  · rintro (⟨-, rfl⟩ | ⟨x, hx, rfl⟩)
    · -- the word of the node itself is too short
      have hlen := hp.length_le
      have hpos := List.length_pos_iff.mpr hne
      rw [List.length_append] at hlen
      omega
    · exact ⟨x, hx, rfl⟩
  · rintro ⟨x, hx, rfl⟩
    exact .inr ⟨x, hx, rfl⟩

end Node

/-- Every key begins a word. -/
theorem WF.exists_word_of_key {F : Forest ι α} (h : F.WF) {k : Option α} (hk : k ∈ F.keys) :
    ∃ w ∈ F.words [], w.head? = k := by
  induction F with
  | nil => cases hk
  | node id t leaf cs sib _ ih =>
    rcases List.mem_cons.mp hk with rfl | hk
    · obtain ⟨w, hw, -⟩ := h.tree.exists_word (by simp) []
      have hkey := h.tree.head?_mem_keys hw
      rw [keys, keys, List.mem_singleton] at hkey
      exact ⟨w, mem_words_or.mpr (.inl hw), hkey⟩
    · obtain ⟨w, hw, hkey⟩ := ih h.2.2.2.2 hk
      exact ⟨w, mem_words_or.mpr (.inr hw), hkey⟩

/-- The word of a node does not end inside a tail. -/
theorem WF.not_inside_self {id : ι} {t : List α} {leaf : Bool} {cs : Forest ι α} (h : (node id t leaf cs nil).WF) :
    ¬ Inside ((node id t leaf cs nil).words []) t := by
  rintro ⟨-, c, -, hall⟩
  rcases h.2.1 with hleaf | hwidth
  · have := (hall t (mem_words_single.mpr (.inl ⟨hleaf, rfl⟩)) List.prefix_rfl).length_le
    simp at this
  · -- all children would have the same key
    have hkeys : cs.keys ⊆ [some c] := by
      intro k hk
      obtain ⟨w, hw, rfl⟩ := h.2.2.2.1.exists_word_of_key hk
      have hp := hall _ (mem_words_single.mpr (.inr ⟨w, hw, rfl⟩)) (List.prefix_append _ _)
      obtain ⟨x, rfl⟩ := (List.prefix_append_right_inj t).mp hp
      exact List.mem_singleton.mpr rfl
    have hle := (h.2.2.2.1.keyed.nodup_keys.subperm hkeys).length_le
    rw [length_keys, List.length_singleton] at hle
    omega

variable [DecidableEq α] {a b : ι}

/-- **A word ends inside a tail**, where its insertion does not stray, if and only if words
go on from it, and all with the same symbol. -/
theorem runsOut_iff {F : Forest ι α} (h : F.WF) {r : List α} (hne : r ≠ []) (hs : ¬ F.Strays r) :
    F.RunsOut r ↔ Inside (F.words []) r := by
  induction F generalizing r with
  | nil => simp [RunsOut, Inside, words]
  | node id t leaf cs sib ihc ihs =>
    rw [RunsOut]
    rw [Strays] at hs
    split_ifs at hs ⊢ with hh
    · rw [inside_tree h hne hh]
      by_cases hrt : r = t
      · subst hrt
        exact iff_of_false (fun hro => hro.1 rfl) h.tree.not_inside_self
      by_cases hf : Forks t r cs
      · by_cases hp : r <+: t
        · -- all the words of the tree go on with the rest of the tail
          have hnone : none ∉ cs.keys := by
            have hkey := hf.2
            rwa [drop_agree_eq_nil_iff.mpr hp] at hkey
          obtain ⟨x, rfl⟩ := hp
          obtain ⟨c, x, rfl⟩ := List.exists_cons_of_ne_nil fun h0 : x = [] => hrt (by simp [h0])
          have hext : ∀ w ∈ (node id (r ++ c :: x) leaf cs nil).words [], r ++ [c] <+: w := fun w hw =>
            List.IsPrefix.trans (by simp) (prefix_of_mem_words hw)
          obtain ⟨w, hw, -⟩ := h.tree.exists_word (by simp) []
          exact iff_of_true ⟨hrt, .inl ⟨List.prefix_append _ _, hnone⟩⟩
            ⟨hne, c, ⟨w, hw, hext w hw⟩, fun w hw _ => hext w hw⟩
        · -- no word of the tree begins with the new one
          refine iff_of_false (fun hro => hro.2.elim (fun h => hp h.1) fun h => h.1 hf) ?_
          rintro ⟨-, c, ⟨w, hw, hw'⟩, -⟩
          exact not_prefix_of_part (mt agree_eq_length_right_iff.mp hp) hf.1 w hw ((List.prefix_append _ _).trans hw')
      · have hlt : ¬ agree t r < t.length := fun hlt => hs ⟨hrt, hf, .inl hlt⟩
        have hk : agree t r = t.length := le_antisymm (agree_le_left t r) (Nat.le_of_not_lt hlt)
        obtain ⟨r', rfl⟩ := agree_eq_length_left_iff.mp hk
        have hne' : r' ≠ [] := fun h0 => hrt (by simp [h0])
        rw [hk, List.drop_left] at hs ⊢
        rw [inside_down hne', ← ihc h.2.2.2.1 hne' fun hcs => hs ⟨hrt, hf, .inr hcs⟩]
        have hp : ¬ t ++ r' <+: t := fun hp => by
          have := hp.length_le
          have := List.length_pos_iff.mpr hne'
          rw [List.length_append] at *
          omega
        simp [hf, hp, hne']
    · rw [inside_skip h hne hh]
      exact ihs h.2.2.2.2 hne hs

/-! ### How a word ends -/

/-- A leaf under the word `u` spells `x`, and its tail is empty or not as `e` says. -/
def EndsAt (e : Prop) (u : List α) (F : Forest ι α) (x : List α) : Prop :=
  ∃ S ∈ F.sites u, S.leaf = true ∧ S.word = x ∧ (S.tail = [] ↔ e)

omit [DecidableEq α] in
theorem endsAt_node {e : Prop} {u t x : List α} {id : ι} {leaf : Bool} {cs sib : Forest ι α} :
    (node id t leaf cs sib).EndsAt e u x ↔
      (leaf = true ∧ u ++ t = x ∧ (t = [] ↔ e)) ∨ cs.EndsAt e (u ++ t) x ∨ sib.EndsAt e u x := by
  simp only [EndsAt, mem_sites_node, or_and_right, exists_or, exists_eq_left, Site.word]

omit [DecidableEq α] in
theorem not_endsAt_nil {e : Prop} {u x : List α} : ¬ (nil : Forest ι α).EndsAt e u x := by
  simp [EndsAt, sites]

/-- **How words end after an insertion**: as before, and the new one with an empty tail or
not, as it ended inside a tail or not. -/
theorem endsAt_insert {e : Prop} {u x r : List α} {F : Forest ι α} (hne : r ≠ []) (hs : ¬ F.Strays r) :
    (F.insert a b r).EndsAt e u x ↔ F.EndsAt e u x ∨ (u ++ r = x ∧ (F.RunsOut r ↔ e)) := by
  induction F generalizing r u with
  | nil => simp [insert, endsAt_node, not_endsAt_nil, RunsOut, hne]
  | node id t leaf cs sib ihc ihs =>
    rw [Strays] at hs
    refine insert_cases t r cs (fun hh => ?_) (fun hrt => ?_) (fun hh hrt hf => ?_) (fun hh hrt hf => ?_)
    · rw [if_neg hh] at hs
      rw [insert_skip _ _ _ _ _ _ _ _ hh, endsAt_node, endsAt_node, ihs hne hs, RunsOut, if_neg hh]
      simp only [or_assoc]
    · subst hrt
      rw [insert_self, endsAt_node, endsAt_node, RunsOut, if_pos rfl]
      simp only [hne, ne_eq, not_true, false_and]
      tauto
    · -- the lower half of the tail is not empty, and the rest of the word is if the word ends there
      have hlow : t.drop (agree t r) ≠ [] := by
        rw [ne_eq, List.drop_eq_nil_iff]
        exact not_le.mpr hf.1
      have hro : (node id t leaf cs sib).RunsOut r ↔ r.drop (agree t r) = [] := by
        rw [RunsOut, if_pos hh, drop_agree_eq_nil_iff]
        refine ⟨fun h => h.2.elim And.left fun h => absurd hf h.1, fun hp => ⟨hrt, .inl ⟨hp, ?_⟩⟩⟩
        have hkey := hf.2
        rwa [drop_agree_eq_nil_iff.mpr hp] at hkey
      have htail : t ≠ [] := fun h0 => by simp [h0] at hlow
      rw [insert_fork _ _ _ _ _ _ _ _ hh hrt hf, hro]
      simp only [endsAt_node, not_endsAt_nil, List.append_assoc, List.take_append_drop, take_agree_append_drop,
        hlow, htail, Bool.false_eq_true, false_and, false_or, or_false, true_and]
      rw [← or_assoc, or_right_comm]
      simp only [or_assoc]
    · rw [if_pos hh] at hs
      have hlt : ¬ agree t r < t.length := fun hlt => hs ⟨hrt, hf, .inl hlt⟩
      have happ := drop_agree_of_length hlt
      have hne' : r.drop (agree t r) ≠ [] := fun h0 => hrt (by rw [h0, List.append_nil] at happ; exact happ.symm)
      have hro : (node id t leaf cs sib).RunsOut r ↔ cs.RunsOut (r.drop (agree t r)) := by
        rw [RunsOut, if_pos hh]
        exact ⟨fun h => h.2.elim (fun h => absurd (drop_agree_eq_nil_iff.mpr h.1) hne') And.right,
          fun h => ⟨hrt, .inr ⟨hf, h⟩⟩⟩
      rw [insert_down _ _ _ _ _ _ _ _ hh hrt hf, endsAt_node, endsAt_node,
        ihc hne' fun hcs => hs ⟨hrt, hf, .inr hcs⟩, hro, List.append_assoc, happ, or_right_comm]
      simp only [or_assoc]

/-! ### Words below a node -/

omit [DecidableEq α] in
/-- What goes on from the word above a forest goes on with one of its keys. -/
theorem WF.head?_mem_keys_of_site {F : Forest ι α} (h : F.WF) {u key : List α} {S : Site ι α} (hS : S ∈ F.sites u)
    (hne : key ≠ []) (hp : u ++ key <+: S.word) : key.head? ∈ F.keys := by
  obtain ⟨w, hw, hpw⟩ := h.exists_word_append hS
  obtain ⟨x, hx, rfl⟩ := exists_of_mem_words hw
  by_contra hk
  exact h.not_prefix_of_notMem hne hk x hx ((List.prefix_append_right_inj u).mp (hp.trans hpw))

omit [DecidableEq α] in
/-- The key of what ends at the word above a forest is `none`. -/
theorem WF.none_mem_keys {F : Forest ι α} (h : F.WF) {u : List α} {S : Site ι α} (hS : S ∈ F.sites u)
    (hl : S.leaf = true) (hw : S.word = u) : none ∈ F.keys := by
  obtain ⟨x, hx, he⟩ := exists_of_mem_words (mem_words_iff_site.mpr ⟨S, hS, hl, rfl⟩)
  rw [hw, List.self_eq_append_right] at he
  subst he
  exact h.head?_mem_keys hx

/-- A node whose word goes on from the key is where the key ends, or below. -/
theorem site_of_seek {F : Forest ι α} (h : F.WF) {u key : List α} (hne : key ≠ []) {hit : Hit ι α}
    (hseek : F.seek key = some hit) {L : Site ι α} (hL : L ∈ F.sites u) (hp : u ++ key <+: L.word) :
    (L.id = hit.id ∧ L.word = u ++ key ++ hit.rest ∧ L.tail ≠ []) ∨ L ∈ hit.children.sites (u ++ key ++ hit.rest) := by
  induction F generalizing u key with
  | nil => simp [sites] at hL
  | node id t leaf cs sib ihc ihs =>
    have hkeys : t.head? = key.head? → L ∉ sib.sites u := fun hh hm =>
      h.2.2.1 (hh ▸ h.2.2.2.2.head?_mem_keys_of_site hm hne hp)
    have htree : t.head? ≠ key.head? → L ∉ (node id t leaf cs nil).sites u := fun hh hm => by
      have hk := h.tree.head?_mem_keys_of_site hm hne hp
      rw [keys, keys, List.mem_singleton] at hk
      exact hh hk.symm
    simp only [mem_sites_node] at hL htree
    refine seek_cases t key (fun hh => ?_) (fun hh hk => ?_) (fun hh hk hlt => ?_) (fun hh hk hlt => ?_)
    · have hnot := htree hh
      rw [not_or, not_or] at hnot
      rw [seek_skip hh] at hseek
      exact ihs h.2.2.2.2 hne hseek ((hL.resolve_left hnot.1).resolve_left hnot.2.1) hp
    · rw [seek_end hh hk, Option.some.injEq] at hseek
      subst hseek
      obtain ⟨x, rfl⟩ := agree_eq_length_right_iff.mp hk
      rw [List.drop_left]
      rcases hL with rfl | hL | hL
      · exact .inl ⟨rfl, (List.append_assoc _ _ _).symm, by simp [hne]⟩
      · exact .inr (by rwa [List.append_assoc])
      · exact absurd hL (hkeys hh)
    · rw [seek_part hh hk hlt] at hseek
      cases hseek
    · have ht : agree t key = t.length := le_antisymm (agree_le_left t key) (Nat.le_of_not_lt hlt)
      obtain ⟨key', rfl⟩ := agree_eq_length_left_iff.mp ht
      have hne' : key' ≠ [] := fun h0 => hk (by simp [h0])
      rw [seek_down hh hk hlt, List.drop_left] at hseek
      rw [← List.append_assoc] at hp ⊢
      rcases hL with rfl | hL | hL
      · have hlen := hp.length_le
        have hpos := List.length_pos_iff.mpr hne'
        simp only [Site.word, List.length_append] at hlen
        omega
      · exact ihc h.2.2.2.1 hne' hseek hL hp
      · exact absurd hL (hkeys hh)

/-- A word that goes on from the word of a node with a tail ends below the node. -/
theorem mem_sites_below {F : Forest ι α} (h : F.WF) {S L : Site ι α} (hS : S ∈ F.sites []) (ht : S.tail ≠ [])
    (hL : L ∈ F.sites []) (hp : S.word <+: L.word) (hne : L.tail ≠ [] → L.word ≠ S.word) :
    L ∈ S.children.sites S.word := by
  have hseek := (seek_of_site h hS ht).2
  have hword : S.word ≠ [] := by simp [Site.word, ht]
  rw [List.length_nil, List.drop_zero] at hseek
  have := site_of_seek h hword hseek hL (by rwa [List.nil_append])
  rw [List.nil_append, List.append_nil] at this
  exact this.resolve_left fun he => hne he.2.2 he.2.1

/-- **Where a leaf is cut**, before its own end: where leaves with a tail end. -/
theorem mem_cuts_iff_endsAt {F : Forest ι α} (h : F.WF) (hn : F.ids.Nodup) {l : Ending ι α} (hl : l ∈ F.leaves [] [])
    {n : ℕ} (hlt : n < l.word.length) : n ∈ l.cuts ↔ F.EndsAt False [] (l.word.take n) := by
  rw [mem_cuts_iff hn hl]
  constructor
  · rintro (h0 | ⟨B, hB, hleaf, hm, hp, rfl⟩)
    · cases h0
    · refine ⟨B, hB, hleaf, List.prefix_iff_eq_take.mp hp, iff_false_intro fun h0 => ?_⟩
      rw [((h.site hB).1 h0).2] at hm
      cases hm
  · rintro ⟨B, hB, hleaf, hw, ht⟩
    obtain ⟨L, hL, hid, hword, -⟩ := mem_leaves_iff_site.mp ⟨l.cuts, hl⟩
    have hlen : B.word.length = n := by
      rw [hw, List.length_take]
      omega
    have hp : B.word <+: l.word := hw ▸ List.take_prefix _ _
    have hbelow := mem_sites_below h hB (fun h0 => ht.mp h0) hL (hword ▸ hp) fun _ he => by
      rw [hword] at he
      rw [he] at hlt
      omega
    exact .inr ⟨B, hB, hleaf, hid ▸ Site.id_mem hbelow, hp, hlen⟩

omit [DecidableEq α] in
/-- What has a name below a node is at a site below it. -/
theorem mem_sites_of_mem_ids {u : List α} {F : Forest ι α} (hn : F.ids.Nodup) {S L : Site ι α} (hS : S ∈ F.sites u)
    (hL : L ∈ F.sites u) (hm : L.id ∈ S.children.ids) : L ∈ S.children.sites S.word := by
  rw [← map_id_sites S.word, List.mem_map] at hm
  obtain ⟨L', hL', hid⟩ := hm
  rwa [← site_unique hn (mem_sites_trans hS hL') hL hid]

omit [DecidableEq α] in
/-- Of the leaves that spell a word one is not cut at its end. -/
theorem exists_uncut {F : Forest ι α} (h : F.WF) (hn : F.ids.Nodup) {w : List α} (hw : w ∈ F.words []) :
    ∃ l ∈ F.leaves [] [], l.word = w ∧ w.length ∉ l.cuts := by
  rw [← map_word_leaves [] [], List.mem_map] at hw
  obtain ⟨l, hl, rfl⟩ := hw
  by_cases hcut : l.word.length ∈ l.cuts
  · -- the leaf above, with the same word, has a tail, so those above it spell less
    obtain ⟨B, hB, hleaf, hm, hp, hlen⟩ := ((mem_cuts_iff hn hl).mp hcut).resolve_left List.not_mem_nil
    have hword := hp.eq_of_length hlen
    obtain ⟨A, hA⟩ := mem_leaves_iff_site.mpr ⟨B, hB, rfl, hword, hleaf⟩
    refine ⟨_, hA, rfl, fun hcut' => ?_⟩
    obtain ⟨B', hB', -, hm', -, (hlen' : B'.word.length = l.word.length)⟩ :=
      ((mem_cuts_iff hn hA).mp hcut').resolve_left List.not_mem_nil
    have htail : B.tail ≠ [] := fun h0 => by
      rw [((h.site hB).1 h0).2] at hm
      cases hm
    have hle := (prefix_pre_of_mem_sites (mem_sites_of_mem_ids hn hB' hB hm')).length_le
    have hpos := List.length_pos_iff.mpr htail
    rw [Site.word, List.length_append] at hlen
    omega
  · exact ⟨l, hl, rfl, hcut⟩

/-- **Which words have copies**: those in which the key occurs at the end, or ends where no
leaf with a tail does. -/
theorem mem_copies_iff {F : Forest ι α} (h : F.WF) (hn : F.ids.Nodup) {key w : List α} (hne : key ≠ []) :
    w ∈ (F.leaves [] []).flatMap (copies key 0) ↔ w ∈ F.words [] ∧
      ∃ p, key <+: w.drop p ∧ (p + key.length < w.length → ¬ F.EndsAt False [] (w.take (p + key.length))) := by
  have hpos := List.length_pos_iff.mpr hne
  have hcopies : ∀ l : Ending ι α, w ∈ copies key 0 l ↔ l.word = w ∧ ∃ p, Shown key l p := by
    intro l
    rw [copies, List.mem_flatMap]
    constructor
    · rintro ⟨p, -, hp⟩
      split_ifs at hp with hs
      · exact ⟨(List.mem_singleton.mp hp).symm, _, hs⟩
      · cases hp
    · rintro ⟨rfl, p, hs⟩
      have hle := hs.1.length_le
      rw [List.length_drop] at hle
      exact ⟨p, List.mem_range.mpr (by omega), by rw [Nat.zero_add, if_pos hs]; exact List.mem_singleton_self _⟩
  simp only [List.mem_flatMap, hcopies]
  constructor
  · rintro ⟨l, hl, rfl, p, hp, hcut⟩
    refine ⟨?_, p, hp, fun hlt => ?_⟩
    · rw [← map_word_leaves [] []]
      exact List.mem_map_of_mem hl
    · rwa [← mem_cuts_iff_endsAt h hn hl hlt]
  · rintro ⟨hw, p, hp, hend⟩
    obtain ⟨l, hl, rfl, huncut⟩ := exists_uncut h hn hw
    refine ⟨l, hl, rfl, p, hp, ?_⟩
    have hle := hp.length_le
    rw [List.length_drop] at hle
    rcases Nat.lt_or_ge (p + key.length) l.word.length with hlt | hge
    · rw [mem_cuts_iff_endsAt h hn hl hlt]
      exact hend hlt
    · rwa [show p + key.length = l.word.length by omega]

/-! ### How words go on -/

/-- How words go on from `u`: with a symbol, or, for `none`, by a leaf with an empty tail. -/
def Goes (F : Forest ι α) (u : List α) : Option α → Prop
  | some c => ∃ w ∈ F.words [], u ++ [c] <+: w
  | none => F.EndsAt True [] u

omit [DecidableEq α] in
theorem exists_root_of_key {F : Forest ι α} {k : Option α} (hk : k ∈ F.keys) (u : List α) :
    ∃ S ∈ F.sites u, S.pre = u ∧ S.tail.head? = k := by
  induction F with
  | nil => cases hk
  | node id t leaf cs sib _ ih =>
    rcases List.mem_cons.mp hk with rfl | hk
    · exact ⟨_, mem_sites_node.mpr (.inl rfl), rfl, rfl⟩
    · obtain ⟨S, hS, hrest⟩ := ih hk
      exact ⟨S, mem_sites_node.mpr (.inr (.inr hS)), hrest⟩

omit [DecidableEq α] in
/-- Words go on with the first symbol of a tail, or end there if it is empty. -/
theorem WF.goes {F : Forest ι α} (h : F.WF) {S : Site ι α} (hS : S ∈ F.sites []) : F.Goes S.pre S.tail.head? := by
  cases ht : S.tail with
  | nil => exact ⟨S, hS, ((h.site hS).1 ht).1, by simp [Site.word, ht], iff_true_intro ht⟩
  | cons c t =>
    obtain ⟨w, hw, hp⟩ := h.exists_word_append hS
    rw [Site.word, ht] at hp
    exact ⟨w, hw, List.IsPrefix.trans (by simp) hp⟩

omit [DecidableEq α] in
theorem WF.goes_of_mem_keys {F : Forest ι α} (h : F.WF) {S : Site ι α} (hS : S ∈ F.sites []) {k : Option α}
    (hk : k ∈ S.children.keys) : F.Goes S.word k := by
  obtain ⟨S', hS', hpre, rfl⟩ := exists_root_of_key hk S.word
  exact hpre ▸ h.goes (mem_sites_trans hS hS')

omit [DecidableEq α] in
/-- Under no word the words go on with the keys. -/
theorem WF.goes_nil_iff {F : Forest ι α} (h : F.WF) {k : Option α} : F.Goes [] k ↔ k ∈ F.keys := by
  constructor
  · intro hg
    cases k with
    | none =>
      obtain ⟨S, hS, hl, hw, -⟩ := hg
      exact h.none_mem_keys hS hl hw
    | some c =>
      obtain ⟨w, hw, hp⟩ := hg
      by_contra hk
      exact h.not_prefix_of_notMem (List.cons_ne_nil c []) hk w hw hp
  · intro hk
    obtain ⟨S, hS, hpre, rfl⟩ := exists_root_of_key hk []
    exact hpre ▸ h.goes hS

/-- Words that go on from a node go on with a key of its children. -/
theorem WF.mem_keys_of_goes {F : Forest ι α} (h : F.WF) {S : Site ι α} (hS : S ∈ F.sites []) (ht : S.tail ≠ [])
    {k : Option α} (hg : F.Goes S.word k) : k ∈ S.children.keys := by
  obtain ⟨-, -, hcs⟩ := h.site hS
  cases k with
  | none =>
    obtain ⟨L, hL, hl, hw, he⟩ := hg
    exact hcs.none_mem_keys (mem_sites_below h hS ht hL (by rw [hw]) fun h0 => absurd (he.mpr trivial) h0) hl hw
  | some c =>
    obtain ⟨w, hw, hp⟩ := hg
    obtain ⟨L, hL, -, rfl⟩ := mem_words_iff_site.mp hw
    have hlong : L.word ≠ S.word := fun he => by
      have := hp.length_le
      rw [he, List.length_append, List.length_singleton] at this
      omega
    exact hcs.head?_mem_keys_of_site (mem_sites_below h hS ht hL ((List.prefix_append _ _).trans hp) fun _ => hlong)
      (List.cons_ne_nil c []) hp

/-- Where words go on in two ways there is a node. -/
theorem WF.exists_site_of_goes {F : Forest ι α} (h : F.WF) {u : List α} (hu : u ≠ []) {k k' : Option α} (hne : k ≠ k')
    (hg : F.Goes u k) (hg' : F.Goes u k') : ∃ S ∈ F.sites [], S.word = u ∧ S.tail ≠ [] := by
  -- the words that go on from `u`
  have hlong : ∀ {k}, F.Goes u k → ∃ L ∈ F.sites [], L.leaf = true ∧ u <+: L.word ∧
      ∀ d x, u ++ d :: x <+: L.word → k = some d := by
    intro k hg
    cases k with
    | none =>
      obtain ⟨L, hL, hl, rfl, he⟩ := hg
      refine ⟨L, hL, hl, List.prefix_rfl, fun d x hp => ?_⟩
      have := hp.length_le
      rw [List.length_append, List.length_cons] at this
      omega
    | some c =>
      obtain ⟨w, hw, x, rfl⟩ := hg
      obtain ⟨L, hL, hl, hword⟩ := mem_words_iff_site.mp hw
      rw [List.append_assoc] at hword
      refine ⟨L, hL, hl, hword ▸ List.prefix_append _ _, fun d y hp => ?_⟩
      rw [hword, List.prefix_append_right_inj] at hp
      exact congrArg some (List.cons_prefix_cons.mp hp).1.symm
  obtain ⟨L, hL, hl, hp, -⟩ := hlong hg
  obtain ⟨hit, hseek⟩ := exists_seek_of_prefix h hu (mem_words_iff_site.mpr ⟨L, hL, hl, rfl⟩) hp
  obtain ⟨S, hS, -, -, -, hword, ht⟩ := exists_site_of_seek (u := []) hu hseek
  rw [List.nil_append] at hword
  cases hrest : hit.rest with
  | nil => exact ⟨S, hS, by rw [hword, hrest, List.append_nil], ht⟩
  | cons d x =>
    -- they would all go on as the tail does
    have hone : ∀ {k}, F.Goes u k → k = some d := by
      intro k hg
      obtain ⟨L, hL, -, hp, hk⟩ := hlong hg
      refine hk d x ?_
      rcases site_of_seek h hu hseek hL (by rwa [List.nil_append]) with ⟨-, hw, -⟩ | hm
      · rw [hw, hrest, List.nil_append]
      · rw [List.nil_append, hrest] at hm
        exact (prefix_pre_of_mem_sites hm).trans (List.prefix_append _ _)
    exact absurd ((hone hg).trans (hone hg').symm) hne

/-! ### The numbers of children -/

/-- No node has more than `n` children. -/
def WidthsLe (n : ℕ) : Forest ι α → Prop
  | nil => True
  | node _ _ _ cs sib => cs.width ≤ n ∧ cs.WidthsLe n ∧ sib.WidthsLe n

omit [DecidableEq α] in
theorem widthsLe_iff_sites {n : ℕ} {F : Forest ι α} (u : List α) :
    F.WidthsLe n ↔ ∀ S ∈ F.sites u, S.children.width ≤ n := by
  induction F generalizing u with
  | nil => simp [WidthsLe, sites]
  | node id t leaf cs sib ihc ihs =>
    rw [WidthsLe, ihc (u ++ t), ihs u]
    simp only [mem_sites_node, or_imp, forall_and, forall_eq]

/-- An insertion keeps to this if there is room for it. -/
theorem widthsLe_insert {n : ℕ} (hn : 2 ≤ n) (r : List α) (F : Forest ι α) :
    (F.insert a b r).WidthsLe n ↔ F.WidthsLe n ∧ F.Room n r := by
  induction F generalizing r with
  | nil => simp [insert, WidthsLe, Room, width]
  | node id t leaf cs sib ihc ihs =>
    refine insert_cases t r cs (fun hh => ?_) (fun hrt => ?_) (fun hh hrt hf => ?_) (fun hh hrt hf => ?_)
    · rw [insert_skip _ _ _ _ _ _ _ _ hh, WidthsLe, WidthsLe, Room, if_neg hh, ihs]
      simp only [and_assoc]
    · subst hrt
      simp [insert_self, WidthsLe, Room]
    · rw [insert_fork _ _ _ _ _ _ _ _ hh hrt hf]
      simp [WidthsLe, Room, width, hh, hf, hn, and_assoc]
    · rw [insert_down _ _ _ _ _ _ _ _ hh hrt hf, WidthsLe, WidthsLe, Room, if_pos hh, ihc]
      simp only [hrt, hf, false_or]
      have hwidth : (cs.insert a b (r.drop (agree t r))).width ≤ n ↔
          cs.width ≤ n ∧ ((r.drop (agree t r)).head? ∉ cs.keys → cs.width < n) := by
        rw [← length_roots, ← length_roots]
        by_cases hk : (r.drop (agree t r)).head? ∈ cs.keys
        · simp only [(insert_of_mem hk).1, hk, not_true_eq_false, false_imp_iff, and_true]
        · simp only [(insert_of_notMem hk).1, hk, List.length_append, List.length_singleton, not_false_eq_true,
            true_imp_iff]
          omega
      rw [hwidth]
      tauto

/-- **No node has more than `n` children** if and only if words go on in no more than `n` ways
from any word. -/
theorem widthsLe_iff_goes {n : ℕ} (hn : 0 < n) {F : Forest ι α} (h : F.WF) :
    (F.width ≤ n ∧ F.WidthsLe n) ↔
      ∀ (u : List α) (ks : List (Option α)), ks.Nodup → (∀ k ∈ ks, F.Goes u k) → ks.length ≤ n := by
  rw [widthsLe_iff_sites [], ← length_keys]
  constructor
  · rintro ⟨htop, hall⟩ u ks hnd hgoes
    rcases eq_or_ne u [] with rfl | hu
    · exact (hnd.subperm fun k hk => h.goes_nil_iff.mp (hgoes k hk)).length_le.trans htop
    · rcases ks with _ | ⟨k, _ | ⟨k', ks⟩⟩
      · exact Nat.zero_le n
      · exact hn
      · have hne : k ≠ k' := fun he => (List.nodup_cons.mp hnd).1 (he ▸ List.mem_cons_self)
        obtain ⟨S, hS, rfl, ht⟩ := h.exists_site_of_goes hu hne (hgoes k (by simp)) (hgoes k' (by simp))
        have hsub := (hnd.subperm fun k hk => h.mem_keys_of_goes hS ht (hgoes k hk)).length_le
        rw [length_keys] at hsub
        exact hsub.trans (hall S hS)
  · intro hall
    refine ⟨hall [] F.keys h.keyed.nodup_keys fun k hk => h.goes_nil_iff.mpr hk, fun S hS => ?_⟩
    rw [← length_keys]
    exact hall S.word _ (h.site hS).2.2.keyed.nodup_keys fun k hk => h.goes_of_mem_keys hS hk

end InfixSearch.Library.Forest
