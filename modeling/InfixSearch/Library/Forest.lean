import Mathlib

/-!
# Radix forests

A radix tree keeps a set of words by branching where they part: a node has a
tail (the symbols its edge is labelled with), a flag saying whether a word ends
at it, and children. A forest is a list of such trees, kept as first child and
next sibling so that an induction over it is an ordinary one. Nodes carry a name
of type `ι`.

A tree is found among its siblings by its *key*, the first symbol of its tail,
or `none` for an empty tail, which marks the end of a word that other words run
through. `WF` says that siblings have different keys, that an empty tail is a
leaf without children, and that every node is a leaf or branches.

* `sites u F` — the nodes of `F`, parents first, each with the word above it,
  where `u` is the word above `F`;
* `words u F` — the words that end at leaves;
* `leaves u A F` — the leaves themselves, each with its word and its *cuts*: the
  lengths of the words that end at the leaves above it.
-/

namespace InfixSearch.Library

universe u v

/-- A forest: nothing, or a tree (its root's name, tail and leaf flag, and its
children) and its siblings. -/
inductive Forest (ι : Type u) (α : Type v) where
  /-- No tree. -/
  | nil
  /-- A tree and its siblings. -/
  | node (id : ι) (tail : List α) (leaf : Bool) (children siblings : Forest ι α)

namespace Forest

variable {ι : Type u} {α : Type v}

/-- The number of trees. -/
def width : Forest ι α → ℕ
  | nil => 0
  | node _ _ _ _ sib => sib.width + 1

/-- The names of the roots. -/
def roots : Forest ι α → List ι
  | nil => []
  | node id _ _ _ sib => id :: sib.roots

/-- The keys of the trees. -/
def keys : Forest ι α → List (Option α)
  | nil => []
  | node _ t _ _ sib => t.head? :: sib.keys

/-- The names of all nodes, parents first. -/
def ids : Forest ι α → List ι
  | nil => []
  | node id _ _ cs sib => id :: (cs.ids ++ sib.ids)

/-- The number of levels. -/
def depth : Forest ι α → ℕ
  | nil => 0
  | node _ _ _ cs sib => max (cs.depth + 1) sib.depth

/-- The root of the tree with key `k`. -/
def rootOf (k : Option α) [DecidableEq α] : Forest ι α → Option ι
  | nil => none
  | node id t _ _ sib => if t.head? = k then some id else sib.rootOf k

/-- Siblings have different keys. -/
def Keyed : Forest ι α → Prop
  | nil => True
  | node _ t _ cs sib => t.head? ∉ sib.keys ∧ cs.Keyed ∧ sib.Keyed

/-- Well formed. -/
def WF : Forest ι α → Prop
  | nil => True
  | node _ t leaf cs sib =>
    (t = [] → leaf = true ∧ cs = nil) ∧ (leaf = true ∨ 2 ≤ cs.width) ∧ t.head? ∉ sib.keys ∧ cs.WF ∧ sib.WF

/-- A tree of a well-formed forest, by itself. -/
theorem WF.tree {id : ι} {t : List α} {leaf : Bool} {cs sib : Forest ι α} (h : (node id t leaf cs sib).WF) :
    (node id t leaf cs nil).WF := ⟨h.1, h.2.1, List.not_mem_nil, h.2.2.2.1, trivial⟩

/-- A tree with another tail that is not empty. -/
theorem WF.single {id : ι} {t : List α} {leaf : Bool} {cs : Forest ι α} (ht : t ≠ [])
    (hbranch : leaf = true ∨ 2 ≤ cs.width) (h : cs.WF) : (node id t leaf cs nil).WF :=
  ⟨fun h0 => absurd h0 ht, hbranch, List.not_mem_nil, h, trivial⟩

@[simp] theorem length_roots (F : Forest ι α) : F.roots.length = F.width := by
  induction F with
  | nil => rfl
  | node id t leaf cs sib _ ih => simp [roots, width, ih]

@[simp] theorem length_keys (F : Forest ι α) : F.keys.length = F.width := by
  induction F with
  | nil => rfl
  | node id t leaf cs sib _ ih => simp [keys, width, ih]

theorem roots_eq_nil_iff {F : Forest ι α} : F.roots = [] ↔ F = nil := by
  cases F <;> simp [roots]

theorem depth_le_length_ids (F : Forest ι α) : F.depth ≤ F.ids.length := by
  induction F with
  | nil => rfl
  | node id t leaf cs sib ihc ihs => simp [depth, ids]; omega

theorem width_le_length_ids (F : Forest ι α) : F.width ≤ F.ids.length := by
  induction F with
  | nil => rfl
  | node id t leaf cs sib _ ihs => simp [width, ids]; omega

theorem roots_subset_ids (F : Forest ι α) : F.roots ⊆ F.ids := by
  induction F with
  | nil => simp [roots]
  | node id t leaf cs sib _ ih =>
    simp only [roots, ids, List.cons_subset, List.mem_cons_self, true_and]
    intro x hx
    exact List.mem_cons_of_mem _ (List.mem_append_right _ (ih hx))

theorem nodup_roots {F : Forest ι α} (hn : F.ids.Nodup) : F.roots.Nodup := by
  induction F with
  | nil => exact List.nodup_nil
  | node id t leaf cs sib _ ih =>
    simp only [ids, List.nodup_cons, List.mem_append, not_or, List.nodup_append] at hn
    exact List.nodup_cons.mpr ⟨fun h => hn.1.2 (roots_subset_ids _ h), ih hn.2.2.1⟩

theorem rootOf_eq_none_iff [DecidableEq α] {k : Option α} {F : Forest ι α} : F.rootOf k = none ↔ k ∉ F.keys := by
  induction F with
  | nil => simp [rootOf, keys]
  | node id t leaf cs sib _ ih =>
    simp only [rootOf, keys, List.mem_cons, not_or]
    split_ifs with h
    · simp [h]
    · rw [ih]; exact ⟨fun hk => ⟨Ne.symm h, hk⟩, And.right⟩

theorem mem_keys_of_rootOf [DecidableEq α] {k : Option α} {F : Forest ι α} {c : ι} (h : F.rootOf k = some c) :
    k ∈ F.keys := by
  by_contra hk
  rw [rootOf_eq_none_iff.mpr hk] at h
  cases h

theorem exists_rootOf [DecidableEq α] {k : Option α} {F : Forest ι α} (h : k ∈ F.keys) : ∃ c, F.rootOf k = some c :=
  Option.ne_none_iff_exists'.mp fun hn => rootOf_eq_none_iff.mp hn h

theorem rootOf_mem_roots [DecidableEq α] {k : Option α} {F : Forest ι α} {c : ι} (h : F.rootOf k = some c) :
    c ∈ F.roots := by
  induction F with
  | nil => simp [rootOf] at h
  | node id t leaf cs sib _ ih =>
    simp only [rootOf] at h
    split_ifs at h with hk
    · rw [Option.some.injEq] at h
      rw [← h]; exact List.mem_cons_self
    · exact List.mem_cons_of_mem _ (ih h)

/-- Every root has a key. -/
theorem exists_key_of_mem_roots [DecidableEq α] {F : Forest ι α} (hk : F.keys.Nodup) {c : ι} (hc : c ∈ F.roots) :
    ∃ k, F.rootOf k = some c := by
  induction F with
  | nil => cases hc
  | node id t leaf cs sib _ ih =>
    rw [keys, List.nodup_cons] at hk
    rcases List.mem_cons.mp hc with rfl | hc
    · exact ⟨t.head?, by rw [rootOf, if_pos rfl]⟩
    · obtain ⟨k, h⟩ := ih hk.2 hc
      refine ⟨k, ?_⟩
      rw [rootOf, if_neg (fun e : t.head? = k => hk.1 (e ▸ mem_keys_of_rootOf h)), h]

theorem WF.keyed {F : Forest ι α} (h : F.WF) : F.Keyed := by
  induction F with
  | nil => trivial
  | node id t leaf cs sib ihc ihs => exact ⟨h.2.2.1, ihc h.2.2.2.1, ihs h.2.2.2.2⟩

theorem Keyed.nodup_keys {F : Forest ι α} (h : F.Keyed) : F.keys.Nodup := by
  induction F with
  | nil => simp [keys]
  | node id t leaf cs sib _ ih => exact List.nodup_cons.mpr ⟨h.1, ih h.2.2⟩

/-! ### Sites -/

/-- A node in its place: the word above it, and what it is. -/
structure Site (ι : Type u) (α : Type v) where
  /-- The word above the node. -/
  pre : List α
  /-- The name. -/
  id : ι
  /-- The tail. -/
  tail : List α
  /-- Whether a word ends here. -/
  leaf : Bool
  /-- The children. -/
  children : Forest ι α

/-- The word that a site spells. -/
def Site.word (S : Site ι α) : List α := S.pre ++ S.tail

/-- The nodes of a forest under the word `u`, parents first. -/
def sites : List α → Forest ι α → List (Site ι α)
  | _, nil => []
  | u, node id t leaf cs sib => ⟨u, id, t, leaf, cs⟩ :: (cs.sites (u ++ t) ++ sib.sites u)

theorem mem_sites_node {u : List α} {id : ι} {t : List α} {leaf : Bool} {cs sib : Forest ι α} {S : Site ι α} :
    S ∈ (node id t leaf cs sib).sites u ↔ S = ⟨u, id, t, leaf, cs⟩ ∨ S ∈ cs.sites (u ++ t) ∨ S ∈ sib.sites u := by
  simp [sites]

@[simp] theorem map_id_sites (u : List α) (F : Forest ι α) : (F.sites u).map Site.id = F.ids := by
  induction F generalizing u with
  | nil => rfl
  | node id t leaf cs sib ihc ihs => simp [sites, ids, ihc, ihs]

/-- A word put before the forest is put before its sites. -/
theorem sites_append (u u' : List α) (F : Forest ι α) :
    F.sites (u ++ u') = (F.sites u').map fun S => { S with pre := u ++ S.pre } := by
  induction F generalizing u' with
  | nil => rfl
  | node id t leaf cs sib ihc ihs => simp [sites, List.append_assoc, ← ihc, ← ihs]

theorem Site.id_mem {u : List α} {F : Forest ι α} {S : Site ι α} (h : S ∈ F.sites u) : S.id ∈ F.ids := by
  rw [← map_id_sites u]
  exact List.mem_map_of_mem h

/-- The sites below a site are sites of the forest. -/
theorem mem_sites_trans {u : List α} {F : Forest ι α} {S S' : Site ι α} (h : S ∈ F.sites u)
    (h' : S' ∈ S.children.sites S.word) : S' ∈ F.sites u := by
  induction F generalizing u with
  | nil => simp [sites] at h
  | node id t leaf cs sib ihc ihs =>
    rw [mem_sites_node] at h ⊢
    rcases h with rfl | h | h
    · exact .inr (.inl h')
    · exact .inr (.inl (ihc h))
    · exact .inr (.inr (ihs h))

/-- A site extends the word above the forest. -/
theorem prefix_pre_of_mem_sites {u : List α} {F : Forest ι α} {S : Site ι α} (h : S ∈ F.sites u) : u <+: S.pre := by
  induction F generalizing u with
  | nil => simp [sites] at h
  | node id t leaf cs sib ihc ihs =>
    rw [mem_sites_node] at h
    rcases h with rfl | h | h
    · exact List.prefix_rfl
    · exact (List.prefix_append u t).trans (ihc h)
    · exact ihs h

/-- Every root is a site right under the word above the forest. -/
theorem exists_site_of_mem_roots {F : Forest ι α} {c : ι} (u : List α) (h : c ∈ F.roots) :
    ∃ S ∈ F.sites u, S.id = c ∧ S.pre = u := by
  induction F with
  | nil => simp [roots] at h
  | node id t leaf cs sib _ ih =>
    rw [roots, List.mem_cons] at h
    rcases h with rfl | h
    · exact ⟨_, by rw [mem_sites_node]; exact .inl rfl, rfl, rfl⟩
    · obtain ⟨S, hS, hid, hpre⟩ := ih h
      exact ⟨S, by rw [mem_sites_node]; exact .inr (.inr hS), hid, hpre⟩

/-- A site is at a root, or a child of another site. -/
theorem mem_roots_or_child {u : List α} {F : Forest ι α} {S : Site ι α} (h : S ∈ F.sites u) :
    (S.id ∈ F.roots ∧ S.pre = u) ∨ ∃ P ∈ F.sites u, S.id ∈ P.children.roots ∧ S.pre = P.word := by
  induction F generalizing u with
  | nil => simp [sites] at h
  | node id t leaf cs sib ihc ihs =>
    rw [mem_sites_node] at h
    rcases h with rfl | h | h
    · exact .inl ⟨List.mem_cons_self, rfl⟩
    · rcases ihc h with ⟨hr, hp⟩ | ⟨P, hP, hr, hp⟩
      · exact .inr ⟨⟨u, id, t, leaf, cs⟩, by rw [mem_sites_node]; exact .inl rfl, hr, hp⟩
      · exact .inr ⟨P, by rw [mem_sites_node]; exact .inr (.inl hP), hr, hp⟩
    · rcases ihs h with ⟨hr, hp⟩ | ⟨P, hP, hr, hp⟩
      · exact .inl ⟨List.mem_cons_of_mem _ hr, hp⟩
      · exact .inr ⟨P, by rw [mem_sites_node]; exact .inr (.inr hP), hr, hp⟩

/-- What is below a site is in the forest. -/
theorem ids_children_subset {u : List α} {F : Forest ι α} {S : Site ι α} (h : S ∈ F.sites u) :
    S.children.ids ⊆ F.ids := by
  intro x hx
  rw [← map_id_sites S.word, List.mem_map] at hx
  obtain ⟨S', hS', rfl⟩ := hx
  exact Site.id_mem (mem_sites_trans h hS')

/-- With no name used twice, none is used twice at and below a site. -/
theorem nodup_site {u : List α} {F : Forest ι α} (hn : F.ids.Nodup) {S : Site ι α} (hS : S ∈ F.sites u) :
    (S.id :: S.children.ids).Nodup := by
  induction F generalizing u with
  | nil => simp [sites] at hS
  | node id t leaf cs sib ihc ihs =>
    rw [ids, ← List.cons_append, List.nodup_append] at hn
    rw [mem_sites_node] at hS
    rcases hS with rfl | hS | hS
    · exact hn.1
    · exact ihc (List.nodup_cons.mp hn.1).2 hS
    · exact ihs hn.2.1 hS

/-- With no name used twice, a name is at one site. -/
theorem site_unique {u : List α} {F : Forest ι α} (hn : F.ids.Nodup) {S S' : Site ι α}
    (h : S ∈ F.sites u) (h' : S' ∈ F.sites u) (hid : S.id = S'.id) : S = S' := by
  rw [← map_id_sites u] at hn
  exact List.inj_on_of_nodup_map hn h h' hid

theorem WF.site {u : List α} {F : Forest ι α} (h : F.WF) {S : Site ι α} (hS : S ∈ F.sites u) :
    (S.tail = [] → S.leaf = true ∧ S.children = nil) ∧ (S.leaf = true ∨ 2 ≤ S.children.width) ∧ S.children.WF := by
  induction F generalizing u with
  | nil => simp [sites] at hS
  | node id t leaf cs sib ihc ihs =>
    rw [mem_sites_node] at hS
    rcases hS with rfl | hS | hS
    · exact ⟨h.1, h.2.1, h.2.2.2.1⟩
    · exact ihc h.2.2.2.1 hS
    · exact ihs h.2.2.2.2 hS

/-- A site that is not a leaf has children. -/
theorem WF.branch {u : List α} {F : Forest ι α} (h : F.WF) {S : Site ι α} (hS : S ∈ F.sites u) :
    S.leaf = true ∨ S.children ≠ nil := by
  obtain ⟨-, hbranch, -⟩ := h.site hS
  refine hbranch.imp_right fun hwidth h0 => ?_
  rw [h0] at hwidth
  simp [width] at hwidth

/-- The nodes of a forest, each under what `f` keeps of the tails above it. -/
def sitesBy (f : List α → List α) : List α → Forest ι α → List (Site ι α)
  | _, nil => []
  | u, node id t leaf cs sib => ⟨u, id, t, leaf, cs⟩ :: (cs.sitesBy f (u ++ f t) ++ sib.sitesBy f u)

theorem mem_sitesBy_node {f : List α → List α} {u : List α} {id : ι} {t : List α} {leaf : Bool} {cs sib : Forest ι α}
    {S : Site ι α} : S ∈ (node id t leaf cs sib).sitesBy f u ↔
      S = ⟨u, id, t, leaf, cs⟩ ∨ S ∈ cs.sitesBy f (u ++ f t) ∨ S ∈ sib.sitesBy f u := by
  simp [sitesBy]

@[simp] theorem map_id_sitesBy (f : List α → List α) (u : List α) (F : Forest ι α) :
    (F.sitesBy f u).map Site.id = F.ids := by
  induction F generalizing u with
  | nil => rfl
  | node id t leaf cs sib ihc ihs => simp [sitesBy, ids, ihc, ihs]

/-- Only the word above a node depends on what is kept. -/
theorem exists_site_of_mem_sitesBy {f : List α → List α} {u : List α} {F : Forest ι α} {S : Site ι α}
    (h : S ∈ F.sitesBy f u) (v : List α) : ∃ w, { S with pre := w } ∈ F.sites v := by
  induction F generalizing u v with
  | nil => simp [sitesBy] at h
  | node id t leaf cs sib ihc ihs =>
    simp only [mem_sites_node]
    rcases mem_sitesBy_node.mp h with rfl | h | h
    · exact ⟨v, .inl rfl⟩
    · obtain ⟨w, hw⟩ := ihc h (v ++ t)
      exact ⟨w, .inr (.inl hw)⟩
    · obtain ⟨w, hw⟩ := ihs h v
      exact ⟨w, .inr (.inr hw)⟩

/-- Where every tail is kept, the nodes are in their places. -/
theorem sitesBy_eq_sites {f : List α → List α} {u : List α} {F : Forest ι α} (h : ∀ S ∈ F.sites u, f S.tail = S.tail) :
    F.sitesBy f u = F.sites u := by
  induction F generalizing u with
  | nil => rfl
  | node id t leaf cs sib ihc ihs =>
    simp only [mem_sites_node] at h
    have ht : f t = t := h ⟨u, id, t, leaf, cs⟩ (.inl rfl)
    rw [sitesBy, sites, ht]
    rw [ihc fun S hS => h S (.inr (.inl hS)), ihs fun S hS => h S (.inr (.inr hS))]

/-- No tail is longer than `n`. -/
def TailsLe (n : ℕ) : Forest ι α → Prop
  | nil => True
  | node _ t _ cs sib => t.length ≤ n ∧ cs.TailsLe n ∧ sib.TailsLe n

theorem TailsLe.site {n : ℕ} {u : List α} {F : Forest ι α} (h : F.TailsLe n) {S : Site ι α} (hS : S ∈ F.sites u) :
    S.tail.length ≤ n := by
  induction F generalizing u with
  | nil => simp [sites] at hS
  | node id t leaf cs sib ihc ihs =>
    rw [mem_sites_node] at hS
    rcases hS with rfl | hS | hS
    · exact h.1
    · exact ihc h.2.1 hS
    · exact ihs h.2.2 hS

/-! ### Words -/

/-- The words that end at the leaves of a forest under the word `u`. -/
def words : List α → Forest ι α → List (List α)
  | _, nil => []
  | u, node _ t leaf cs sib => (if leaf then [u ++ t] else []) ++ (cs.words (u ++ t) ++ sib.words u)

theorem mem_words_node {u : List α} {id : ι} {t : List α} {leaf : Bool} {cs sib : Forest ι α} {w : List α} :
    w ∈ (node id t leaf cs sib).words u ↔ (leaf = true ∧ w = u ++ t) ∨ w ∈ cs.words (u ++ t) ∨ w ∈ sib.words u := by
  cases leaf <;> simp [words]

theorem mem_words_or {u : List α} {id : ι} {t : List α} {leaf : Bool} {cs sib : Forest ι α} {w : List α} :
    w ∈ (node id t leaf cs sib).words u ↔ w ∈ (node id t leaf cs nil).words u ∨ w ∈ sib.words u := by
  simp [words, or_assoc]

theorem mem_words_iff_site {u : List α} {F : Forest ι α} {w : List α} :
    w ∈ F.words u ↔ ∃ S ∈ F.sites u, S.leaf = true ∧ S.word = w := by
  induction F generalizing u with
  | nil => simp [words, sites]
  | node id t leaf cs sib ihc ihs =>
    rw [mem_words_node, ihc, ihs]
    simp only [mem_sites_node, or_and_right, exists_or, exists_eq_left]
    exact or_congr_left (and_congr_right fun _ => eq_comm)

/-- A word put before the forest is put before its words. -/
theorem words_append (u u' : List α) (F : Forest ι α) : F.words (u ++ u') = (F.words u').map (u ++ ·) := by
  induction F generalizing u' with
  | nil => rfl
  | node id t leaf cs sib ihc ihs =>
    cases leaf <;> simp [words, List.append_assoc, ← ihc, ← ihs]

theorem exists_of_mem_words {u w : List α} {F : Forest ι α} (hw : w ∈ F.words u) : ∃ x ∈ F.words [], w = u ++ x := by
  rw [← List.append_nil u, words_append, List.mem_map] at hw
  obtain ⟨x, hx, rfl⟩ := hw
  exact ⟨x, hx, rfl⟩

/-- What ends below a site ends in the forest. -/
theorem mem_words_of_site {u w : List α} {F : Forest ι α} {S : Site ι α} (hS : S ∈ F.sites u)
    (hw : w ∈ S.children.words S.word) : w ∈ F.words u := by
  obtain ⟨S', hS', hl, rfl⟩ := mem_words_iff_site.mp hw
  exact mem_words_iff_site.mpr ⟨S', mem_sites_trans hS hS', hl, rfl⟩

theorem depth_site {u : List α} {F : Forest ι α} {S : Site ι α} (hS : S ∈ F.sites u) : S.children.depth < F.depth := by
  induction F generalizing u with
  | nil => simp [sites] at hS
  | node id t leaf cs sib ihc ihs =>
    rw [mem_sites_node] at hS
    rw [depth]
    rcases hS with rfl | hS | hS
    · exact Nat.lt_of_lt_of_le (Nat.lt_succ_self _) (Nat.le_max_left _ _)
    · have := ihc hS; omega
    · have := ihs hS; omega

/-- There is a word below every node of a well-formed forest. -/
theorem WF.exists_word_append {F : Forest ι α} (h : F.WF) {u : List α} {S : Site ι α} (hS : S ∈ F.sites u) :
    ∃ w ∈ F.words u, S.word <+: w := by
  induction F generalizing u S with
  | nil => simp [sites] at hS
  | node id t leaf cs sib ihc ihs =>
    rw [mem_sites_node] at hS
    rcases hS with rfl | hS | hS
    · rcases h.2.1 with rfl | h2
      · exact ⟨u ++ t, by rw [mem_words_node]; exact .inl ⟨rfl, rfl⟩, List.prefix_rfl⟩
      · -- a node that is not a leaf has a child, and there is a word below that one
        cases hc : cs with
        | nil => simp [hc, width] at h2
        | node id' t' leaf' cs' sib' =>
          have hS' : ⟨u ++ t, id', t', leaf', cs'⟩ ∈ cs.sites (u ++ t) := by
            rw [hc, mem_sites_node]; exact .inl rfl
          obtain ⟨w, hw, hp⟩ := ihc h.2.2.2.1 hS'
          exact ⟨w, by rw [mem_words_node, ← hc]; exact .inr (.inl hw), (List.prefix_append _ _).trans hp⟩
    · obtain ⟨w, hw, hp⟩ := ihc h.2.2.2.1 hS
      exact ⟨w, by rw [mem_words_node]; exact .inr (.inl hw), hp⟩
    · obtain ⟨w, hw, hp⟩ := ihs h.2.2.2.2 hS
      exact ⟨w, by rw [mem_words_node]; exact .inr (.inr hw), hp⟩

/-- A well-formed forest that is not empty has a word. -/
theorem WF.exists_word {F : Forest ι α} (h : F.WF) (hne : F ≠ nil) (u : List α) : ∃ w ∈ F.words u, u <+: w := by
  cases F with
  | nil => exact absurd rfl hne
  | node id t leaf cs sib =>
    obtain ⟨w, hw, hp⟩ := h.exists_word_append (mem_sites_node (u := u).mpr (.inl rfl))
    exact ⟨w, hw, (List.prefix_append u t).trans hp⟩

/-- Of two trees one has a word that is not empty. -/
theorem WF.exists_word_ne_nil {F : Forest ι α} (h : F.WF) (h2 : 2 ≤ F.width) : ∃ w ∈ F.words [], w ≠ [] := by
  obtain ⟨S, hS, ht⟩ : ∃ S ∈ F.sites [], S.tail ≠ [] := by
    match F, h, h2 with
    | node id t leaf cs (node id' t' leaf' cs' sib), h, _ =>
      by_cases ht : t = []
      · refine ⟨⟨[], id', t', leaf', cs'⟩, by simp [sites], ?_⟩
        rintro (rfl : t' = [])
        exact h.2.2.1 (by simp [keys, ht])
      · exact ⟨⟨[], id, t, leaf, cs⟩, by simp [sites], ht⟩
  obtain ⟨w, hw, hp⟩ := h.exists_word_append hS
  refine ⟨w, hw, ?_⟩
  rintro rfl
  exact ht (List.append_eq_nil_iff.mp (List.prefix_nil.mp hp)).2

/-- The words of a tree start with its tail. -/
theorem mem_words_single {id : ι} {t w : List α} {leaf : Bool} {cs : Forest ι α} :
    w ∈ (node id t leaf cs nil).words [] ↔ (leaf = true ∧ w = t) ∨ ∃ x ∈ cs.words [], w = t ++ x := by
  have hcs := words_append t [] cs
  rw [List.append_nil] at hcs
  rw [mem_words_node, List.nil_append, hcs, List.mem_map]
  simp only [words, List.not_mem_nil, or_false, eq_comm]

theorem prefix_of_mem_words {id : ι} {t w : List α} {leaf : Bool} {cs : Forest ι α} (hw : w ∈ (node id t leaf cs nil).words []) :
    t <+: w := by
  rcases mem_words_single.mp hw with ⟨-, rfl⟩ | ⟨x, -, rfl⟩
  · exact List.prefix_rfl
  · exact List.prefix_append t x

/-- A word of a well-formed forest starts with the key of one of its trees. -/
theorem WF.head?_mem_keys {F : Forest ι α} (h : F.WF) {w : List α} (hw : w ∈ F.words []) : w.head? ∈ F.keys := by
  induction F with
  | nil => simp [words] at hw
  | node id t leaf cs sib _ ih =>
    rw [mem_words_node, List.nil_append] at hw
    rcases hw with ⟨-, rfl⟩ | hw | hw
    · exact List.mem_cons_self
    · have htree : w ∈ (node id t leaf cs nil).words [] := mem_words_node.mpr (.inr (.inl hw))
      rcases mem_words_single.mp htree with ⟨-, rfl⟩ | ⟨x, hx, rfl⟩
      · exact List.mem_cons_self
      · cases t with
        | nil => rw [(h.1 rfl).2] at hx; simp [words] at hx
        | cons c t => exact List.mem_cons_self
    · exact List.mem_cons_of_mem _ (ih h.2.2.2.2 hw)

/-- No tail is longer than a word. -/
theorem WF.tailsLe {n : ℕ} {F : Forest ι α} (h : F.WF) {u : List α} (hw : ∀ w ∈ F.words u, w.length ≤ n) :
    F.TailsLe n := by
  induction F generalizing u with
  | nil => trivial
  | node id t leaf cs sib ihc ihs =>
    simp only [mem_words_node] at hw
    refine ⟨?_, ihc h.2.2.2.1 fun w hm => hw w (.inr (.inl hm)), ihs h.2.2.2.2 fun w hm => hw w (.inr (.inr hm))⟩
    obtain ⟨w, hm, hp⟩ := h.exists_word_append (mem_sites_node (u := u).mpr (.inl rfl))
    have h₁ := hw w (mem_words_node.mp hm)
    have h₂ := hp.length_le
    simp only [Site.word, List.length_append] at h₂
    omega

/-- Where no leaf has children every word ends at one leaf. -/
theorem WF.words_nodup {F : Forest ι α} (h : F.WF) {u : List α}
    (hleaf : ∀ S ∈ F.sites u, S.leaf = true → S.children = nil) : (F.words u).Nodup := by
  induction F generalizing u with
  | nil => exact List.nodup_nil
  | node id t leaf cs sib ihc ihs =>
    have hself := h.tree
    obtain ⟨-, -, h3, h4, h5⟩ := h
    simp only [mem_sites_node] at hleaf
    have hsplit : (node id t leaf cs sib).words u = (node id t leaf cs nil).words u ++ sib.words u := by simp [words]
    rw [hsplit]
    refine List.nodup_append.mpr ⟨?_, ihs h5 fun S hS => hleaf S (.inr (.inr hS)), ?_⟩
    · cases leaf with
      | true =>
        have hcs : cs = nil := hleaf ⟨u, id, t, true, cs⟩ (.inl rfl) rfl
        rw [hcs]
        simp [words]
      | false => simpa [words] using ihc h4 fun S hS => hleaf S (.inr (.inl hS))
    · -- words of different trees start differently
      rintro w hw w' hw' rfl
      obtain ⟨x, hx, rfl⟩ := exists_of_mem_words hw
      obtain ⟨y, hy, he⟩ := exists_of_mem_words hw'
      obtain rfl := List.append_cancel_left he
      have hkey := hself.head?_mem_keys hx
      rw [keys, keys, List.mem_singleton] at hkey
      exact h3 (hkey ▸ h5.head?_mem_keys hy)

end Forest

end InfixSearch.Library
