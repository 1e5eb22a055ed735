import InfixSearch.Search.Add

/-!
# The trie as a whole

A `Trie` is what `add` builds: the leaf flag of the head, and a well-formed forest
under it. `s.Holds T` says that the heap of `s` is the trie `T`, with the head at
pointer `0` and every node constructed in it. `add` keeps to this (`add_eq`), or
exits (`add_exit`), and so does a run of calls (`adds_eq`, `adds_exit`).
-/

namespace InfixSearch

open Library SearchT

/-- What `add` builds under the head. -/
structure Trie where
  /-- Whether the empty word is stored. -/
  leaf : Bool
  /-- The trees under the head. -/
  forest : Forest Ptr Byte
  /-- They are well formed. -/
  wf : forest.WF

namespace Trie

/-- No word. -/
def empty : Trie := ⟨false, .nil, trivial⟩

/-- With the head, which is node `0` and has the tail `*`. -/
def tree (T : Trie) : Forest Ptr Byte := .node 0 [sentinel] T.leaf T.forest .nil

/-- The number of nodes. -/
def size (T : Trie) : ℕ := T.forest.ids.length + 1

/-- The words stored. -/
def words (T : Trie) : List Str := (if T.leaf then [[]] else []) ++ T.forest.words []

/-- `add` makes no 127th child. -/
def Room (T : Trie) (w : Str) : Prop := T.tree.Room Node2T.capacity (sentinel :: w)

/-- `add` takes a wrong turn. -/
def Strays (T : Trie) (w : Str) : Prop := w ≠ [] ∧ T.forest.Strays w

/-- The word that `add` stores. -/
def filed (T : Trie) (w : Str) : Str := if w = [] then [] else T.forest.filed w

/-- `add`, with the next pointers for new nodes. -/
def add (T : Trie) (w : Str) : Trie :=
  if w = [] then ⟨true, T.forest, T.wf⟩ else ⟨T.leaf, T.forest.insert T.size (T.size + 1) w, T.wf.insert w⟩

/-- A run of calls of `add`. -/
def adds (T : Trie) (ws : List Str) : Trie := ws.foldl add T

/-- No call of the run makes a 127th child. -/
def Rooms : Trie → List Str → Prop
  | _, [] => True
  | T, w :: ws => T.Room w ∧ (T.add w).Rooms ws

theorem length_ids_tree (T : Trie) : T.tree.ids.length = T.size := by simp [tree, Forest.ids, size]

theorem tree_keyed (T : Trie) : T.tree.Keyed := ⟨by simp [Forest.keys], T.wf.keyed, trivial⟩

/-- The head as a site. -/
theorem head_mem_sites (T : Trie) : ⟨[], 0, [sentinel], T.leaf, T.forest⟩ ∈ T.tree.sites [] :=
  Forest.mem_sites_node.mpr (.inl rfl)

/-- The other sites are those of the forest, under the head. -/
theorem mem_sites_tree {T : Trie} {S : Forest.Site Ptr Byte} :
    S ∈ T.tree.sites [] ↔ S = ⟨[], 0, [sentinel], T.leaf, T.forest⟩ ∨
      ∃ S' ∈ T.forest.sites [], S = { S' with pre := sentinel :: S'.pre } := by
  have hsites : T.forest.sites [sentinel] = (T.forest.sites []).map fun S => { S with pre := sentinel :: S.pre } :=
    Forest.sites_append [sentinel] [] T.forest
  rw [tree, Forest.mem_sites_node, List.nil_append, hsites, List.mem_map]
  simp [Forest.sites, eq_comm]

/-- A node with an empty tail has no children. -/
theorem children_of_tail_nil {T : Trie} {S : Forest.Site Ptr Byte} (hS : S ∈ T.tree.sites []) (h0 : S.tail = []) :
    S.children = .nil := by
  rcases mem_sites_tree.mp hS with rfl | ⟨S', hS', rfl⟩
  · cases h0
  · exact ((T.wf.site hS').1 h0).2

theorem agree_sentinel (w : Str) : agree [sentinel] (sentinel :: w) = 1 := by simp [agree]

theorem not_forks (T : Trie) (w : Str) : ¬ Forest.Forks [sentinel] (sentinel :: w) T.forest := by
  simp [Forest.Forks, agree_sentinel]

/-- Inserting below the head. -/
theorem insert_tree (T : Trie) (w : Str) : T.tree.insert T.size (T.size + 1) (sentinel :: w) = (T.add w).tree := by
  by_cases hw : w = []
  · rw [add, if_pos hw, hw]
    exact Forest.insert_self T.size (T.size + 1) 0 [sentinel] T.leaf T.forest .nil
  · have hdown := Forest.insert_down T.size (T.size + 1) 0 [sentinel] (sentinel :: w) T.leaf T.forest .nil rfl
      (by simpa using hw) (T.not_forks w)
    rw [agree_sentinel] at hdown
    rw [add, if_neg hw]
    exact hdown

/-- The words that the whole trie spells begin with the `*` of the head. -/
theorem mem_words_tree {T : Trie} {x : Str} : x ∈ T.tree.words [] ↔ ∃ w ∈ T.words, x = sentinel :: w := by
  rw [tree, Forest.mem_words_single, words]
  cases T.leaf <;> simp

theorem mem_words_add {T : Trie} {w x : Str} : x ∈ (T.add w).words ↔ x ∈ T.words ∨ x = T.filed w := by
  by_cases hw : w = []
  · simp only [add, words, filed, if_pos hw, if_true, List.mem_append, List.mem_singleton]
    cases T.leaf <;> simp <;> tauto
  · simp only [add, words, filed, if_neg hw, List.mem_append, Forest.mem_words_insert, List.nil_append]
    tauto

theorem filed_eq_iff {T : Trie} {w : Str} : T.filed w = w ↔ ¬ T.Strays w := by
  by_cases hw : w = []
  · simp [filed, Strays, hw]
  · simp [filed, Strays, hw, Forest.filed_eq_iff]

theorem tailsLe_adds {n : ℕ} {T : Trie} (h : T.forest.TailsLe n) {ws : List Str} (hw : ∀ w ∈ ws, w.length ≤ n) :
    (T.adds ws).forest.TailsLe n := by
  induction ws generalizing T with
  | nil => exact h
  | cons w ws ih =>
    refine ih (T := T.add w) ?_ fun x hx => hw x (List.mem_cons_of_mem _ hx)
    unfold add
    split_ifs
    · exact h
    · exact h.insert (hw w List.mem_cons_self)

/-- A stored word is added again without a wrong turn. -/
theorem not_strays_of_mem {T : Trie} {w : Str} (h : w ∈ T.words) : ¬ T.Strays w := by
  rintro ⟨hne, hs⟩
  refine Forest.not_strays_of_mem T.wf ?_ hs
  rw [words, List.mem_append] at h
  refine h.resolve_left fun hm => hne ?_
  cases hl : T.leaf
  · simp [hl] at hm
  · simpa [hl] using hm

/-- A word takes at most two nodes: the lower half of a tail, and a leaf. -/
theorem size_add_le (T : Trie) (w : Str) : (T.add w).size ≤ T.size + 2 := by
  have hins := (Forest.ids_insert T.size (T.size + 1) (sentinel :: w) T.tree).length_eq
  rw [T.insert_tree, length_ids_tree, List.length_append, length_ids_tree, List.length_take] at hins
  simp only [List.length_cons, List.length_nil] at hins
  omega

theorem size_adds_le (T : Trie) (ws : List Str) : (T.adds ws).size ≤ T.size + 2 * ws.length := by
  induction ws generalizing T with
  | nil => exact le_rfl
  | cons w ws ih =>
    have hadd := T.size_add_le w
    have hrest : (T.adds (w :: ws)).size ≤ (T.add w).size + 2 * ws.length := ih (T.add w)
    rw [List.length_cons]
    omega

/-- The nodes of a heap of `n` nodes. -/
def Owns (T : Trie) (n : ℕ) : Prop := T.tree.ids.Perm (List.range n)

theorem Owns.size {T : Trie} {n : ℕ} (h : T.Owns n) : T.size = n := by
  rw [← T.length_ids_tree, h.length_eq, List.length_range]

theorem Owns.nodup {T : Trie} {n : ℕ} (h : T.Owns n) : T.tree.ids.Nodup := h.nodup_iff.mpr List.nodup_range

theorem Owns.nodup_forest {T : Trie} {n : ℕ} (h : T.Owns n) : 0 ∉ T.forest.ids ∧ T.forest.ids.Nodup := by
  have := h.nodup
  rw [tree, Forest.ids, List.nodup_cons] at this
  exact ⟨fun hm => this.1 (List.mem_append_left _ hm), this.2.of_append_left⟩

theorem Owns.add {T : Trie} {n : ℕ} (h : T.Owns n) (w : Str) : (T.add w).Owns (n + T.tree.grown (sentinel :: w)) := by
  have hg := Forest.grown_le (sentinel :: w) T.tree
  have hins := Forest.ids_insert T.size (T.size + 1) (sentinel :: w) T.tree
  rw [T.insert_tree, h.size] at hins
  refine hins.trans ((h.append_right _).trans (.of_eq ?_))
  -- at most two new names, in order
  generalize T.tree.grown (sentinel :: w) = g at hg
  match g, hg with
  | 0, _ => simp
  | 1, _ => simp [List.range_succ]
  | 2, _ => simp [List.range_succ]

end Trie

/-- The heap of `s` is the trie. -/
structure SearchT.Holds (s : SearchT Node2T) (T : Trie) : Prop where
  /-- The head is the first node made. -/
  head : s.head = some 0
  /-- The nodes are as in the trie. -/
  rep : Rep s.heap none T.tree
  /-- There are no others. -/
  owns : T.Owns s.heap.length
  /-- `node_count` counts them. -/
  count : s.nodeCount = s.heap.length

/-- What is not the trie is the same. -/
structure SearchT.Others (s s' : SearchT Node2T) : Prop where
  tpm : s'.tpm = s.tpm
  rowLookupMap : s'.rowLookupMap = s.rowLookupMap
  pFile : s'.pFile = s.pFile
  rowBuffer : s'.rowBuffer = s.rowBuffer

/-- The heap of `s` is the trie, or there is no head yet and the trie is empty. -/
def SearchT.Ready (s : SearchT Node2T) (T : Trie) : Prop :=
  (s.head = none ∧ s.heap = [] ∧ s.nodeCount = 0 ∧ T = Trie.empty) ∨ s.Holds T

namespace SearchT

variable {s s' s'' : SearchT Node2T} {T : Trie}

theorem Others.refl (s : SearchT Node2T) : Others s s := ⟨rfl, rfl, rfl, rfl⟩

theorem Others.trans (h : Others s s') (h' : Others s' s'') : Others s s'' :=
  ⟨h'.tpm.trans h.tpm, h'.rowLookupMap.trans h.rowLookupMap, h'.pFile.trans h.pFile, h'.rowBuffer.trans h.rowBuffer⟩

theorem others_of_same (h : s' = { s with heap := s'.heap, nodeCount := s'.nodeCount }) : Others s s' := by
  rw [h]
  exact ⟨rfl, rfl, rfl, rfl⟩

/-- A new `search_t`, with the program's node type. -/
abbrev fresh : SearchT Node2T := construct

theorem ready_fresh : fresh.Ready Trie.empty := .inl ⟨rfl, rfl, rfl, rfl⟩

/-- The first word finds an empty trie. -/
theorem makeHead_empty (hhead : s.head = none) (hheap : s.heap = []) (hcount : s.nodeCount = 0) :
    ∃ s', s.makeHead = .ok (s', 0) ∧ s'.Holds Trie.empty ∧ s.Others s' := by
  obtain ⟨s₁, e₁, a₁, l₁, g₁⟩ := makeNode_eq s
  rw [hheap, List.length_nil] at e₁ a₁ l₁
  obtain ⟨s₂, e₂, a₂, l₂, g₂⟩ := setVal_eq (s := { s₁ with head := some 0 }) a₁ sentinel
  obtain ⟨s₃, e₃, a₃, l₃, g₃⟩ := setTail_eq a₂ (show NulFree [sentinel] by decide)
  have hlen : s₃.heap.length = 1 := by rw [l₃, l₂, l₁]
  have hcount₁ : s₁.nodeCount = 1 := by
    have := g₁.count
    rw [hheap, hcount, l₁] at this
    simpa using this
  refine ⟨s₃, ?_, ⟨?_, ⟨a₃, trivial, trivial⟩, ?_, ?_⟩, ?_⟩
  · rw [makeHead, hhead]
    simp only [e₁, ok_bind, e₂, e₃, pure_ok]
  · rw [g₃.same, g₂.same]
  · rw [hlen]
    exact List.Perm.refl _
  · have h₂ := (g₂.trans g₃).count
    rw [hlen, show s₁.heap.length = 1 from l₁, show s₁.nodeCount = 1 from hcount₁] at h₂
    rw [hlen]
    exact Nat.add_right_cancel h₂
  · refine (others_of_same g₁.same).trans (Others.trans ?_ (others_of_same (g₂.trans g₃).same))
    exact ⟨rfl, rfl, rfl, rfl⟩

theorem Ready.makeHead (h : s.Ready T) : ∃ s', s.makeHead = .ok (s', 0) ∧ s'.Holds T ∧ s.Others s' := by
  rcases h with ⟨hhead, hheap, hcount, rfl⟩ | h
  · exact makeHead_empty hhead hheap hcount
  · exact ⟨s, by rw [SearchT.makeHead, h.head]; rfl, h, Others.refl s⟩

/-- `add` inserts the word. -/
theorem add_eq (h : s.Ready T) {w : Str} (hw : NulFree w) (hroom : T.Room w) :
    ∃ s', s.add w = .ok s' ∧ s'.Holds (T.add w) ∧ s.Others s' := by
  obtain ⟨s₀, e₀, hs, ho⟩ := h.makeHead
  have hw' : NulFree (sentinel :: w) := nulFree_cons.mpr ⟨by decide, hw⟩
  obtain ⟨s', e', r', l', g'⟩ := addFrom_eq (i := 0) (p := 0) hw' hs.rep T.tree_keyed hs.owns.nodup rfl
    (show ((sentinel :: w).drop 0).length < (sentinel :: w).length + 1 by simp) hroom
  rw [List.drop_zero, ← hs.owns.size, T.insert_tree] at r'
  refine ⟨s', ?_, ⟨?_, r', ?_, ?_⟩, ho.trans (others_of_same g'.same)⟩
  · simp only [add, e₀, ok_bind]
    exact e'
  · rw [g'.same, ← hs.head]
  · rw [l']
    exact hs.owns.add w
  · have := g'.count
    have := hs.count
    omega

/-- Where there is no room for the word the program exits. -/
theorem add_exit (h : s.Ready T) {w : Str} (hw : NulFree w) (hroom : ¬ T.Room w) : s.add w = .error .exit := by
  obtain ⟨s₀, e₀, hs, ho⟩ := h.makeHead
  have hw' : NulFree (sentinel :: w) := nulFree_cons.mpr ⟨by decide, hw⟩
  simp only [add, e₀, ok_bind]
  exact addFrom_exit (i := 0) (p := 0) hw' hs.rep rfl (by simp) hroom

/-! ### Runs -/

theorem adds_eq (h : s.Ready T) {ws : List Str} (hw : ∀ w ∈ ws, NulFree w) (hroom : T.Rooms ws) :
    ∃ s', s.adds ws = .ok s' ∧ s'.Ready (T.adds ws) ∧ s.Others s' := by
  induction ws generalizing s T with
  | nil => exact ⟨s, rfl, h, Others.refl s⟩
  | cons w ws ih =>
    obtain ⟨s₁, e₁, h₁, o₁⟩ := add_eq h (hw w List.mem_cons_self) hroom.1
    obtain ⟨s₂, e₂, h₂, o₂⟩ := ih (.inr h₁) (fun x hx => hw x (List.mem_cons_of_mem _ hx)) hroom.2
    exact ⟨s₂, by rw [adds, e₁, ok_bind, e₂], h₂, o₁.trans o₂⟩

theorem adds_exit (h : s.Ready T) {ws : List Str} (hw : ∀ w ∈ ws, NulFree w) (hroom : ¬ T.Rooms ws) :
    s.adds ws = .error .exit := by
  induction ws generalizing s T with
  | nil => exact absurd trivial hroom
  | cons w ws ih =>
    rw [adds]
    by_cases hr : T.Room w
    · obtain ⟨s₁, e₁, h₁, o₁⟩ := add_eq h (hw w List.mem_cons_self) hr
      rw [e₁, ok_bind]
      exact ih (.inr h₁) (fun x hx => hw x (List.mem_cons_of_mem _ hx)) fun h => hroom ⟨hr, h⟩
    · rw [add_exit h (hw w List.mem_cons_self) hr, error_bind]

/-- A call that does not exit. -/
theorem add_of_not_exit (h : s.Ready T) {w : Str} (hw : NulFree w) (hexit : s.add w ≠ .error .exit) :
    ∃ s', s.add w = .ok s' ∧ s'.Holds (T.add w) ∧ s.Others s' :=
  add_eq h hw (not_not.mp fun hr => hexit (add_exit h hw hr))

/-- A run that does not exit. -/
theorem adds_of_not_exit (h : s.Ready T) {ws : List Str} (hw : ∀ w ∈ ws, NulFree w) (hexit : s.adds ws ≠ .error .exit) :
    ∃ s', s.adds ws = .ok s' ∧ s'.Ready (T.adds ws) ∧ s.Others s' :=
  adds_eq h hw (not_not.mp fun hr => hexit (adds_exit h hw hr))

theorem ready_of_adds {ws : List Str} (hw : ∀ w ∈ ws, NulFree w) (hs : fresh.adds ws = .ok s) :
    s.Ready (Trie.empty.adds ws) := by
  obtain ⟨s', e', h', -⟩ := adds_of_not_exit ready_fresh hw (by rw [hs]; exact fun h => nomatch h)
  rw [hs, Except.ok.injEq] at e'
  exact e' ▸ h'

theorem Ready.holds_of_add (h : s.Ready T) {w : Str} (hw : NulFree w) (hs : s.add w = .ok s') : s'.Holds (T.add w) := by
  obtain ⟨s₁, e₁, h₁, -⟩ := add_of_not_exit h hw (by rw [hs]; exact fun h => nomatch h)
  rw [hs, Except.ok.injEq] at e₁
  exact e₁ ▸ h₁

theorem Holds.adds (h : s.Holds T) {ws : List Str} (hw : ∀ w ∈ ws, NulFree w) (hs : s.adds ws = .ok s') :
    s'.Holds (T.adds ws) := by
  induction ws generalizing s T with
  | nil =>
    rw [SearchT.adds, pure_ok, Except.ok.injEq] at hs
    exact hs ▸ h
  | cons w ws ih =>
    rw [SearchT.adds, bind_eq_ok] at hs
    obtain ⟨s₁, e₁, e₂⟩ := hs
    exact ih (Ready.holds_of_add (.inr h) (hw w List.mem_cons_self) e₁) (fun x hx => hw x (List.mem_cons_of_mem _ hx)) e₂

/-- After a call there is a head. -/
theorem Ready.holds_of_adds (h : s.Ready T) {ws : List Str} (hne : ws ≠ []) (hw : ∀ w ∈ ws, NulFree w)
    (hs : s.adds ws = .ok s') : s'.Holds (T.adds ws) := by
  obtain ⟨w, ws, rfl⟩ := List.exists_cons_of_ne_nil hne
  rw [SearchT.adds, bind_eq_ok] at hs
  obtain ⟨s₁, e₁, e₂⟩ := hs
  exact (h.holds_of_add (hw w List.mem_cons_self) e₁).adds (fun x hx => hw x (List.mem_cons_of_mem _ hx)) e₂

theorem others_of_adds {ws : List Str} (hw : ∀ w ∈ ws, NulFree w) (hs : fresh.adds ws = .ok s) : fresh.Others s := by
  obtain ⟨s', e', -, h'⟩ := adds_of_not_exit ready_fresh hw (by rw [hs]; exact fun h => nomatch h)
  rw [hs, Except.ok.injEq] at e'
  exact e' ▸ h'

/-- A run seen not to exit. -/
theorem adds_of_isOk (ws : List Str) (hw : ∀ w ∈ ws, NulFree w) (h : (fresh.adds ws).isOk = true) :
    ∃ s, fresh.adds ws = .ok s ∧ s.Ready (Trie.empty.adds ws) := by
  obtain ⟨s, hs⟩ := exists_ok_of_isOk h
  exact ⟨s, hs, ready_of_adds hw hs⟩

/-- A run in two parts. -/
theorem adds_append (s : SearchT Node2T) (us vs : List Str) : s.adds (us ++ vs) = s.adds us >>= fun s => s.adds vs := by
  induction us generalizing s with
  | nil => rfl
  | cons u us ih => simp only [List.cons_append, adds, ih, bind_assoc]

theorem adds_ne_exit {us ws : List Str} (h : us <+: ws) (hexit : s.adds ws ≠ .error .exit) : s.adds us ≠ .error .exit := by
  obtain ⟨vs, rfl⟩ := h
  intro he
  rw [adds_append, he] at hexit
  exact hexit rfl

theorem adds_concat (s : SearchT Node2T) (us : List Str) (w : Str) : s.adds (us ++ [w]) = s.adds us >>= fun s => s.add w := by
  simp only [adds_append, adds]
  exact congrArg (s.adds us >>= ·) (funext fun s => bind_pure (s.add w))

end SearchT

end InfixSearch
