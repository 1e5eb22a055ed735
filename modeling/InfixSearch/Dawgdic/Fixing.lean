import InfixSearch.Dawgdic.Matching

/-!
# Fixing units

The units that are not fixed stand on a stack of levels (`Level`), each with its older siblings.
Together with the states that are fixed already they make up the tree of the words inserted so
far. Fixing the units of the deepest level puts its items among the states, or finds them there
(`exists_fixUnit`), and leaves that tree as it is; `FixUnits` does so down to a level
(`exists_fixUnits`).
-/

namespace InfixSearch.Dawgdic

open Library WordTree

/-- A unit on the stack. -/
structure Level where
  /-- Its index. -/
  unit : ℕ
  /-- Its label. -/
  label : UInt8
  /-- Whether a sibling is about to follow. -/
  hasSibling : Bool
  /-- Its siblings, the last first. -/
  older : List (ℕ × Item)

namespace Level

/-- The unit, whose child is `p`, and its siblings. -/
def chain (l : Level) (p : ℕ) : List (ℕ × Item) := (l.unit, (l.label, p)) :: l.older

/-- The units. -/
def cells (l : Level) (p : ℕ) : List (ℕ × DawgUnit) := chainCells l.hasSibling (l.chain p)

/-- The items. -/
def items (l : Level) (p : ℕ) : List Item := chainItems (l.chain p)

/-- The units are in a pool, and are different. -/
structure In (l : Level) (p : ℕ) (pool : List DawgUnit) : Prop where
  /-- They are in the pool. -/
  shows : Shows pool (l.cells p)
  /-- None is the root. -/
  ne_zero : ∀ u ∈ l.chain p, u.1 ≠ 0
  /-- They are different. -/
  nodup : ((l.chain p).map Prod.fst).Nodup

end Level

/-- The units of the levels, the deepest first, whose child is `p`, and the root. -/
def stackCells : ℕ → List Level → List (ℕ × DawgUnit)
  | p, [] => [(0, ⟨p, 0, 0xFF, false, false⟩)]
  | p, l :: ls => l.cells p ++ stackCells l.unit ls

/-- The unit on top of the stack. -/
def topUnit (ls : List Level) : ℕ := (ls.map Level.unit).headD 0

/-- The states that are fixed. -/
structure Arena (s : DawgBuilder) (nodes : List (List Item)) : Prop where
  /-- The pools hold them. -/
  pools : Pools nodes s.basePool s.labelPool
  /-- They are well formed. -/
  wellFormed : WellFormed nodes
  /-- No state is held twice. -/
  nodup : nodes.Nodup
  /-- Each spells an ordered tree with those before it. -/
  spells : ∀ pre xs post, nodes = pre ++ xs :: post → ∃ t, Spells pre xs t ∧ t.Ordered
  /-- They are in the hash table. -/
  table : Table nodes (starts 1 nodes) s.hashTable
  /-- It has a free cell. -/
  room : nodes.length < s.hashTable.length
  /-- They are counted, and the root. -/
  states : s.numOfStates = nodes.length + 1
  /-- There is a flag for each transition. -/
  flags : s.flagPool.length = s.basePool.length
  /-- The flags that are set are counted. -/
  merging : s.numOfMergingStates = s.flagPool.count true

/-- The units that are not fixed: those of the levels, and `pending` siblings that are on no level yet. -/
structure Units (s : DawgBuilder) (pending : List (ℕ × Item)) (p : ℕ) (levels : List Level) : Prop where
  /-- The stack. -/
  stack : s.unfixedUnits = levels.map Level.unit ++ [0]
  /-- The units. -/
  shows : Shows s.unitPool (chainCells true pending ++ stackCells p levels)
  /-- No unit is there twice, or unused. -/
  nodup : (pending.map Prod.fst ++ (stackCells p levels).map Prod.fst ++ s.unusedUnits).Nodup
  /-- The unused units are in the pool. -/
  unused : ∀ i ∈ s.unusedUnits, i < s.unitPool.length

variable {s : DawgBuilder} {nodes : List (List Item)} {levels ls : List Level} {l : Level} {p m : ℕ} {us : List (ℕ × Item)}

/-! ### Units -/

/-- The child of the unit on top is the only part of the cells that depends on it. -/
theorem exists_stackCells (ls : List Level) :
    ∃ (u : DawgUnit) (rest : List (ℕ × DawgUnit)), ∀ p, stackCells p ls = (topUnit ls, { u with child := p }) :: rest := by
  cases ls with
  | nil => exact ⟨⟨0, 0, 0xFF, false, false⟩, [], fun p => rfl⟩
  | cons l ls =>
    exact ⟨⟨0, firstLink (l.older.map Prod.fst), l.label, l.older.isEmpty, l.hasSibling⟩,
      chainCells true l.older ++ stackCells l.unit ls,
      fun p => rfl⟩

theorem map_fst_stackCells (p q : ℕ) (ls : List Level) :
    (stackCells p ls).map Prod.fst = (stackCells q ls).map Prod.fst := by
  obtain ⟨u, rest, h⟩ := exists_stackCells ls
  rw [h, h, List.map_cons, List.map_cons]

theorem length_stackCells (p q : ℕ) (ls : List Level) : (stackCells p ls).length = (stackCells q ls).length := by
  rw [← List.length_map (f := Prod.fst), map_fst_stackCells p q, List.length_map]

theorem length_stackCells_cons (p : ℕ) (l : Level) (ls : List Level) :
    (stackCells p (l :: ls)).length = l.older.length + 1 + (stackCells 0 ls).length := by
  rw [stackCells, List.length_append, length_stackCells l.unit 0, Level.cells, length_chainCells]
  rfl

theorem zero_mem_stackCells (p : ℕ) (ls : List Level) : 0 ∈ (stackCells p ls).map Prod.fst := by
  induction ls generalizing p with
  | nil => exact List.mem_singleton.mpr rfl
  | cons l ls ih =>
    rw [stackCells, List.map_append]
    exact List.mem_append_right _ (ih _)

theorem topUnit_mem_stackCells (p : ℕ) (deep rest : List Level) :
    topUnit rest ∈ (stackCells p (deep ++ rest)).map Prod.fst := by
  induction deep generalizing p with
  | nil =>
    obtain ⟨u, cells, h⟩ := exists_stackCells rest
    rw [List.nil_append, h]
    exact List.mem_cons_self
  | cons l deep ih =>
    rw [List.cons_append, stackCells, List.map_append]
    exact List.mem_append_right _ (ih _)

/-- A change of a unit shows in its cell. -/
theorem Shows.set {pool : List DawgUnit} {rest rest' : List (ℕ × DawgUnit)} {i : ℕ} {u : DawgUnit}
    (h : Shows pool (rest ++ (i, u) :: rest')) (hi : i ∉ rest.map Prod.fst) (hi' : i ∉ rest'.map Prod.fst)
    (u' : DawgUnit) :
    Shows (pool.set i u') (rest ++ (i, u') :: rest') := by
  rw [shows_append, shows_cons] at h ⊢
  have hother : ∀ {cells : List (ℕ × DawgUnit)}, i ∉ cells.map Prod.fst → Shows pool cells → Shows (pool.set i u') cells := by
    intro cells hnot hshows c hc
    have hne : i ≠ c.1 := fun he => hnot (List.mem_map.mpr ⟨c, hc, he.symm⟩)
    rw [List.getElem?_set_ne hne]
    exact hshows c hc
  exact ⟨hother hi h.1, Pool.getElem?_set_self h.2.1 u', hother hi' h.2.2⟩

namespace Units

/-- The child of the unit on top is set. -/
theorem setChild (h : Units s us p ls) (q : ℕ) :
    ∃ pool, s.modifyUnit (topUnit ls) (fun unit => { unit with child := q }) = .ok { s with unitPool := pool } ∧
      Units { s with unitPool := pool } us q ls := by
  obtain ⟨u, rest, hcells⟩ := exists_stackCells ls
  have hshows := h.shows
  have hnodup := h.nodup
  rw [hcells] at hshows hnodup
  have htop := hshows (topUnit ls, { u with child := p }) (by simp)
  have hnot : topUnit ls ∉ us.map Prod.fst ∧ topUnit ls ∉ rest.map Prod.fst := by
    rw [List.map_cons, List.append_assoc, List.nodup_append, List.cons_append, List.nodup_cons] at hnodup
    exact ⟨fun hm => hnodup.2.2 _ hm _ List.mem_cons_self rfl, fun hm => hnodup.2.1.1 (List.mem_append_left _ hm)⟩
  refine ⟨s.unitPool.set (topUnit ls) { u with child := q }, ?_, h.stack, ?_, ?_, fun i hi => ?_⟩
  · rw [DawgBuilder.modifyUnit, Pool.modify_eq htop]
    rfl
  · rw [hcells]
    exact hshows.set (by rw [map_fst_chainCells]; exact hnot.1) hnot.2 _
  · rw [map_fst_stackCells q p]
    exact h.nodup
  · rw [List.length_set]
    exact h.unused i hi

/-- The deepest level. -/
theorem deepest (h : Units s [] p (l :: ls)) : l.In p s.unitPool := by
  have hshows := h.shows
  have hnodup := h.nodup
  rw [chainCells, List.nil_append, stackCells, shows_append] at hshows
  rw [List.map_nil, List.nil_append, stackCells, List.map_append, Level.cells, map_fst_chainCells, List.append_assoc,
    List.nodup_append] at hnodup
  refine ⟨hshows.1, fun u hu h0 => ?_, hnodup.1⟩
  exact hnodup.2.2 _ (List.mem_map_of_mem hu) _ (List.mem_append_left _ (zero_mem_stackCells _ _)) h0

/-- The units of the deepest level are given back. -/
theorem free (h : Units s [] p (l :: ls)) :
    Units { s with unfixedUnits := s.unfixedUnits.tail, unusedUnits := ((l.chain p).map Prod.fst).reverse ++ s.unusedUnits } []
      l.unit ls where
  stack := by
    rw [h.stack]
    rfl
  shows := by
    have hshows := h.shows
    rw [chainCells, List.nil_append, stackCells, shows_append] at hshows
    exact hshows.2
  nodup := by
    have hnodup := h.nodup
    rw [List.map_nil, List.nil_append, stackCells, List.map_append, Level.cells, map_fst_chainCells] at hnodup
    refine (List.Perm.nodup_iff ?_).mp hnodup
    rw [List.map_nil, List.nil_append, List.append_assoc]
    refine List.perm_append_comm.trans ?_
    rw [List.append_assoc]
    exact List.Perm.append_left _ (List.perm_append_comm.trans (List.Perm.append_right _ (List.reverse_perm _).symm))
  unused := by
    intro i hi
    rw [List.mem_append, List.mem_reverse] at hi
    rcases hi with hi | hi
    · obtain ⟨c, hc, rfl⟩ := List.mem_map.mp ((map_fst_chainCells l.hasSibling (l.chain p)) ▸ hi)
      exact Pool.lt_of_getElem? (h.deepest.shows c hc)
    · exact h.unused i hi

end Units

/-! ### States -/

namespace Arena

theorem searchable (h : Arena s nodes) (hl : l.In p s.unitPool) (hsibling : l.hasSibling = false)
    (hfits : ∀ x ∈ l.items p, Fits x) : DawgBuilder.Searchable s nodes (starts 1 nodes) (l.chain p) where
  pools := h.pools
  wellFormed := h.wellFormed
  table := h.table
  room := by
    rw [length_starts]
    exact h.room
  states _ hm := exists_at_of_mem_starts hm
  shows := by
    have hshows := hl.shows
    rwa [Level.cells, hsibling] at hshows
  ne_zero := hl.ne_zero
  nodup := hl.nodup
  fits := hfits

end Arena

namespace DawgBuilder

/-- New transitions at the ends of the pools. -/
theorem fold_allocateTransition (n : ℕ) (s : DawgBuilder) (hn : 0 < n) (i : ℕ) :
    n.fold (fun _ _ p => p.2.allocateTransition) (i, s) = (s.labelPool.length + n - 1, { s with
      flagPool := s.flagPool ++ List.replicate n false, basePool := s.basePool ++ List.replicate n BaseUnit.construct,
      labelPool := s.labelPool ++ List.replicate n none }) := by
  induction n with
  | zero => exact absurd hn (Nat.lt_irrefl 0)
  | succ n ih =>
    rw [Nat.fold_succ]
    cases n with
    | zero => rfl
    | succ n =>
      rw [ih (Nat.succ_pos n), allocateTransition, List.append_assoc, List.append_assoc, List.append_assoc,
        ← List.replicate_succ',
        ← List.replicate_succ', ← List.replicate_succ', List.length_append, List.length_replicate]
      rfl

/-- The units of a chain are written to the pools, from the last transition down. -/
theorem foldlM_fixTransition {sibling : Bool} (s : DawgBuilder) (bs bs' : List BaseUnit) (ls ls' : Block UInt8)
    (hus : Shows s.unitPool (chainCells sibling us)) (hlen : bs.length = ls.length) :
    (us.map Prod.fst).foldlM fixTransition
      (ls.length + us.length - 1, { s with
        basePool := bs ++ (List.replicate us.length BaseUnit.construct ++ bs'),
        labelPool := ls ++ (List.replicate us.length none ++ ls') }) =
    .ok (ls.length - 1, { s with
      basePool := bs ++ ((encodeWith true sibling (chainItems us)).map (fun t => ⟨t.1⟩) ++ bs'),
      labelPool := ls ++ ((encodeWith true sibling (chainItems us)).map (fun t => some t.2) ++ ls') }) := by
  induction us generalizing sibling bs' ls' with
  | nil => rfl
  | cons u us ih =>
    rw [chainCells, shows_cons] at hus
    have hbase : (bs ++ (List.replicate (u :: us).length BaseUnit.construct ++ bs')).set (ls.length + us.length)
        ⟨itemBase us.isEmpty sibling u.2⟩ =
        bs ++ (List.replicate us.length BaseUnit.construct ++ ⟨itemBase us.isEmpty sibling u.2⟩ :: bs') := by
      rw [List.length_cons, List.replicate_succ', List.append_assoc, List.set_append_right _ _ (by omega),
        List.set_append_right _ _ (by simp [hlen])]
      simp [hlen]
    have hlabel : (ls ++ (List.replicate (u :: us).length none ++ ls')).set (ls.length + us.length) (some u.2.1) =
        ls ++ (List.replicate us.length none ++ some u.2.1 :: ls') := by
      rw [List.length_cons, List.replicate_succ', List.append_assoc, List.set_append_right _ _ (by omega),
        List.set_append_right _ _ (by simp)]
      simp
    have hrec := ih (⟨itemBase us.isEmpty sibling u.2⟩ :: bs') (some u.2.1 :: ls') hus.2
    rw [List.map_cons, List.foldlM_cons, fixTransition, Pool.get_eq hus.1, ok_bind]
    simp only [List.length_cons] at hbase hlabel ⊢
    rw [show ls.length + (us.length + 1) - 1 = ls.length + us.length by omega, Pool.set_eq (by simp; omega), ok_bind,
      Block.write_of_lt (by simp; omega), ok_bind, pure_ok, ok_bind]
    have hown : DawgUnit.base ⟨u.2.2, firstLink (us.map Prod.fst), u.2.1, us.isEmpty, sibling⟩ = itemBase us.isEmpty sibling u.2 := rfl
    have hstate : (chainItems us).isEmpty = us.isEmpty := by cases us <;> simp [chainItems]
    rw [hown, hbase, hlabel]
    refine hrec.trans ?_
    rw [chainItems_cons, encodeWith_concat, hstate, Bool.and_true, List.map_append, List.map_append,
      List.append_assoc, List.append_assoc]
    rfl

/-- The units become a new state. -/
theorem fixTransitions_eq (hpools : Pools nodes s.basePool s.labelPool) (hus : Shows s.unitPool (chainCells false us))
    (hne : ∀ u ∈ us, u.1 ≠ 0) (hnodup : (us.map Prod.fst).Nodup) (hpos : us ≠ []) {hashId : ℕ}
    (hid : hashId < s.hashTable.length) :
    ∃ basePool labelPool, s.fixTransitions us.length (firstLink (us.map Prod.fst)) hashId = .ok (1 + nodes.flatten.length, { s with
        basePool := basePool, labelPool := labelPool, flagPool := s.flagPool ++ List.replicate us.length false,
        hashTable := s.hashTable.set hashId (1 + nodes.flatten.length), numOfStates := s.numOfStates + 1 }) ∧
      Pools (nodes ++ [chainItems us]) basePool labelPool := by
  have hlen := hpools.length_label
  have hlen' := hpools.length_base
  have hloop := foldlM_fixTransition { s with flagPool := s.flagPool ++ List.replicate us.length false } s.basePool [] s.labelPool []
    hus (by omega)
  rw [List.append_nil, List.append_nil, List.append_nil, List.append_nil] at hloop
  refine ⟨s.basePool ++ (encode (chainItems us)).map (fun t => ⟨t.1⟩),
    s.labelPool ++ (encode (chainItems us)).map (fun t => some t.2), ?_, ?_⟩
  · have hfor := forSiblings_eq (s := { s with
      flagPool := s.flagPool ++ List.replicate us.length false, basePool := s.basePool ++ List.replicate us.length BaseUnit.construct,
      labelPool := s.labelPool ++ List.replicate us.length none }) hus hne hnodup fixTransition
      (s.labelPool.length + us.length - 1, { s with
        flagPool := s.flagPool ++ List.replicate us.length false, basePool := s.basePool ++ List.replicate us.length BaseUnit.construct,
        labelPool := s.labelPool ++ List.replicate us.length none })
    rw [fixTransitions, fold_allocateTransition us.length s (List.length_pos_iff.mpr hpos)]
    dsimp only
    rw [hfor, hloop, ok_bind]
    dsimp only
    rw [Pool.set_eq hid, ok_bind, show s.labelPool.length - 1 + 1 = 1 + nodes.flatten.length by omega]
    rfl
  · obtain ⟨r, hr⟩ := hpools.base
    obtain ⟨k, hk⟩ := hpools.label
    have htrans : transitions (nodes ++ [chainItems us]) = transitions nodes ++ encode (chainItems us) := by
      rw [transitions_append]
      simp [transitions]
    refine ⟨⟨r, ?_⟩, k, ?_⟩
    · rw [hr, htrans, List.map_append, List.cons_append]
    · rw [hk, htrans, List.map_append, List.cons_append]

/-- The units are merged into a state that is there. -/
theorem exists_mergeTransitions (hm : m < s.flagPool.length) (hcount : s.numOfMergingStates = s.flagPool.count true)
    (n : ℕ) :
    ∃ flagPool numOfMergingStates, s.mergeTransitions n m = .ok { s with
        numOfMergedTransitions := s.numOfMergedTransitions + n, numOfMergingStates := numOfMergingStates, flagPool := flagPool } ∧
      flagPool.length = s.flagPool.length ∧ numOfMergingStates = flagPool.count true := by
  have hget := List.getElem?_eq_getElem hm
  cases hflag : s.flagPool[m] with
  | true =>
    rw [hflag] at hget
    refine ⟨s.flagPool, s.numOfMergingStates, ?_, rfl, hcount⟩
    rw [mergeTransitions, Pool.get_eq hget]
    rfl
  | false =>
    rw [hflag] at hget
    refine ⟨s.flagPool.set m true, s.numOfMergingStates + 1, ?_, List.length_set, ?_⟩
    · rw [mergeTransitions, Pool.get_eq hget, ok_bind, Pool.set_eq hm]
      rfl
    · rw [List.count_set hm, hflag, hcount]
      simp

/-- If need be the table is expanded, so that there is room for one more state. -/
theorem exists_expanded (ha : Arena s nodes) :
    ∃ s', s.expanded = .ok s' ∧ Arena s' nodes ∧ nodes.length + 1 < s'.hashTable.length ∧ s'.unitPool = s.unitPool ∧
      s'.unfixedUnits = s.unfixedUnits ∧ s'.unusedUnits = s.unusedUnits ∧ s'.initialHashTableSize = s.initialHashTableSize := by
  have hroom := ha.room
  rw [expanded]
  by_cases hfull : s.numOfStates ≥ s.hashTable.length - (s.hashTable.length >>> 2)
  · obtain ⟨table, hexpand, hlen, htable⟩ := expandHashTable_eq ha.pools ha.wellFormed (by omega)
    rw [if_pos hfull]
    refine ⟨{ s with hashTable := table }, hexpand, ⟨ha.pools, ha.wellFormed, ha.nodup, ha.spells, htable, ?_, ha.states, ha.flags,
      ha.merging⟩, ?_, rfl, rfl, rfl, rfl⟩
    · simp only [hlen]
      omega
    · simp only [hlen]
      omega
  · rw [if_neg hfull]
    rw [ha.states, Nat.shiftRight_eq_div_pow] at hfull
    exact ⟨s, rfl, ha, by omega, rfl, rfl, rfl, rfl⟩

/-- The siblings are counted. -/
theorem foldlM_count (is : List ℕ) (n : ℕ) :
    is.foldlM (fun n _ => (pure (n + 1) : Except Fault ℕ)) n = .ok (n + is.length) := by
  induction is generalizing n with
  | nil => rfl
  | cons i is ih =>
    rw [List.foldlM_cons, pure_ok, ok_bind, ih, List.length_cons, Nat.add_assoc, Nat.add_comm 1]

/-- The units are given back. -/
theorem foldlM_freeUnit (is : List ℕ) (s : DawgBuilder) :
    is.foldlM (fun s i => (pure (s.freeUnit i) : Except Fault DawgBuilder)) s = .ok { s with unusedUnits := is.reverse ++ s.unusedUnits } := by
  induction is generalizing s with
  | nil => rfl
  | cons i is ih =>
    rw [List.foldlM_cons, pure_ok, ok_bind, ih, freeUnit, List.reverse_cons, List.append_assoc]
    rfl

/-- The items of the deepest level are a state, or become one. -/
theorem exists_matchUnit (ha : Arena s nodes) (hl : l.In p s.unitPool) (hsibling : l.hasSibling = false)
    (hroom : nodes.length + 1 < s.hashTable.length) (hfits : ∀ x ∈ l.items p, Fits x)
    (hspells : ∃ t, Spells nodes (l.items p) t ∧ t.Ordered) :
    ∃ s' nodes' m, s.matchUnit (l.chain p).length l.unit = .ok (m, s') ∧
      Arena s' nodes' ∧ At nodes' m (l.items p) ∧ (nodes' = nodes ∨ nodes' = nodes ++ [l.items p]) ∧
      s'.unitPool = s.unitPool ∧ s'.unfixedUnits = s.unfixedUnits ∧ s'.unusedUnits = s.unusedUnits ∧
      s'.initialHashTableSize = s.initialHashTableSize := by
  have hsearch := ha.searchable hl hsibling hfits
  by_cases hmem : l.items p ∈ nodes
  · obtain ⟨m, hm⟩ := At.of_mem hmem
    obtain ⟨hashId, hfind⟩ := findUnit_of_mem hsearch (mem_starts_of_at hm) hm ha.nodup
    have hlt : m < s.flagPool.length := by
      obtain ⟨pre, post, hnodes, rfl⟩ := hm
      have hpos := List.length_pos_iff.mpr (ha.wellFormed _ hmem).1
      rw [ha.flags, ha.pools.length_base, hnodes, List.flatten_append, List.length_append, List.flatten_cons,
        List.length_append]
      omega
    obtain ⟨flagPool, n, hmerge, hflags, hcount⟩ := exists_mergeTransitions hlt ha.merging (l.chain p).length
    refine ⟨{ s with
      numOfMergedTransitions := s.numOfMergedTransitions + (l.chain p).length, numOfMergingStates := n, flagPool := flagPool },
      nodes, m, ?_, ?_, hm, .inl rfl, rfl, rfl, rfl, rfl⟩
    · rw [matchUnit, hfind, ok_bind]
      dsimp only
      rw [if_pos hm.pos.ne', hmerge]
      rfl
    · exact ⟨ha.pools, ha.wellFormed, ha.nodup, ha.spells, ha.table, ha.room, ha.states, hflags.trans ha.flags, hcount⟩
  · obtain ⟨k, hfind, hfree, hpath⟩ := findUnit_of_notMem hsearch hmem
    have hshows := hl.shows
    rw [Level.cells, hsibling] at hshows
    obtain ⟨t, ht, hord⟩ := hspells
    have hwf : WellFormed (nodes ++ [l.items p]) := by
      intro xs hxs
      rw [List.mem_append, List.mem_singleton] at hxs
      rcases hxs with hxs | rfl
      · exact ha.wellFormed xs hxs
      · refine ⟨?_, hfits, ht.tail_ne_zero hord⟩
        rw [← List.length_pos_iff, Level.items, length_chainItems]
        exact Nat.succ_pos _
    have hat := At.last nodes (l.items p)
    obtain ⟨basePool, labelPool, hfix, hpools⟩ :=
      fixTransitions_eq ha.pools hshows hl.ne_zero hl.nodup (List.cons_ne_nil _ _)
      (Nat.mod_lt _ (Nat.zero_lt_of_lt ha.room))
    have htable := ha.table.append_nodes ha.wellFormed (fun m hm => exists_at_of_mem_starts hm) hwf
    have hhome : ∀ size, home (nodes ++ [l.items p]) size (1 + nodes.flatten.length) =
        (hashAll (encode (chainItems ((l.unit, l.label, p) :: l.older))) 0).toNat % size := home_eq hwf hat
    rw [← hhome] at hfree hpath
    have hset := htable.set hat.pos.ne' hfree hpath
    rw [← starts_concat] at hset
    rw [hhome] at hset
    refine ⟨{ s with
      basePool := basePool, labelPool := labelPool, flagPool := s.flagPool ++ List.replicate (l.chain p).length false,
      hashTable := s.hashTable.set _ (1 + nodes.flatten.length), numOfStates := s.numOfStates + 1 },
      nodes ++ [l.items p], _, ?_, ⟨hpools, hwf, ?_, ?_, hset, ?_, ?_, ?_, ?_⟩, hat, .inr rfl, rfl, rfl, rfl, rfl⟩
    · rw [matchUnit, hfind, ok_bind]
      dsimp only
      rw [if_neg (not_not_intro rfl)]
      exact hfix
    · exact List.nodup_append.mpr ⟨ha.nodup, List.nodup_singleton _, fun xs hxs ys hys he => hmem (by
        rw [List.mem_singleton] at hys
        rwa [← hys, ← he])⟩
    · intro pre xs post he
      rcases List.eq_nil_or_concat post with rfl | ⟨post, ys, rfl⟩
      · obtain ⟨rfl, hxs⟩ := List.append_inj' he rfl
        rw [← List.singleton_inj.mp hxs]
        exact ⟨t, ht, hord⟩
      · rw [List.concat_eq_append, ← List.cons_append, ← List.append_assoc] at he
        exact ha.spells pre xs post (List.append_inj' he rfl).1
    · rw [List.length_set, List.length_append]
      exact hroom
    · rw [ha.states, List.length_append]
      rfl
    · rw [List.length_append, List.length_replicate, hpools.length_base, ha.flags, ha.pools.length_base,
        List.flatten_append,
        List.length_append, List.flatten_singleton, length_chainItems, Nat.add_assoc]
    · rw [List.count_append, List.count_replicate, ← ha.merging]
      rfl

/-- One turn of the loop of `FixUnits`. -/
theorem exists_fixUnit (ha : Arena s nodes) (hu : Units s [] p (l :: ls)) (hsibling : l.hasSibling = false)
    (hfits : ∀ x ∈ l.items p, Fits x) (hspells : ∃ t, Spells nodes (l.items p) t ∧ t.Ordered) :
    ∃ s' nodes' m, s.fixUnit = .ok s' ∧ Arena s' nodes' ∧ Units s' [] m ls ∧ At nodes' m (l.items p) ∧
      (nodes' = nodes ∨ nodes' = nodes ++ [l.items p]) ∧ s'.initialHashTableSize = s.initialHashTableSize := by
  have hl := hu.deepest
  have hstack := hu.stack
  rw [List.map_cons, List.cons_append] at hstack
  -- the stack is popped, and the table is expanded if need be
  have ha₁ : Arena { s with unfixedUnits := s.unfixedUnits.tail } nodes :=
    ⟨ha.pools, ha.wellFormed, ha.nodup, ha.spells, ha.table, ha.room, ha.states, ha.flags, ha.merging⟩
  obtain ⟨s₂, hexpand, ha₂, hroom, hpool₂, hunfixed₂, hunused₂, hsize₂⟩ := exists_expanded ha₁
  have hl₂ : l.In p s₂.unitPool := hpool₂ ▸ hl
  -- the items are a state, or become one
  obtain ⟨s₃, nodes', m, hmatch, ha₃, hm, hnodes, hpool, hunfixed, hunused, hsize⟩ :=
    exists_matchUnit ha₂ hl₂ hsibling hroom hfits hspells
  rw [hpool₂] at hpool
  rw [hunfixed₂] at hunfixed
  rw [hunused₂] at hunused
  -- the units are given back, and the unit above leads to the state
  have hu₄ : Units { s₃ with unusedUnits := ((l.chain p).map Prod.fst).reverse ++ s₃.unusedUnits } [] l.unit ls := by
    have hfree := hu.free
    refine ⟨hunfixed.trans hfree.stack, ?_, ?_, ?_⟩
    · simp only [hpool]
      exact hfree.shows
    · simp only [hunused]
      exact hfree.nodup
    · simp only [hunused, hpool]
      exact hfree.unused
  obtain ⟨pool, hmodify, hu₅⟩ := hu₄.setChild m
  refine ⟨{ s₃ with unusedUnits := ((l.chain p).map Prod.fst).reverse ++ s₃.unusedUnits, unitPool := pool }, nodes',
    m, ?_,
    ⟨ha₃.pools, ha₃.wellFormed, ha₃.nodup, ha₃.spells, ha₃.table, ha₃.room, ha₃.states, ha₃.flags, ha₃.merging⟩,
    hu₅, hm, hnodes, hsize.trans hsize₂⟩
  have hloop : ∀ {β : Type} (t : DawgBuilder) (body : β → ℕ → Except Fault β) (b : β), t.unitPool = s.unitPool →
      t.forSiblings body b l.unit = ((l.chain p).map Prod.fst).foldlM body b := by
    intro β t body b hpool
    have hshows := hl.shows
    rw [Level.cells, ← hpool] at hshows
    exact forSiblings_eq hshows hl.ne_zero hl.nodup body b
  have htop : topUnfixed s = .ok l.unit := by
    rw [topUnfixed, hstack]
    rfl
  have htop' : topUnfixed { s₃ with unusedUnits := ((l.chain p).map Prod.fst).reverse ++ s₃.unusedUnits } = .ok (topUnit ls) := by
    rw [topUnfixed, hu₄.stack]
    cases ls with
    | nil => rfl
    | cons l' ls => rfl
  rw [fixUnit, htop, ok_bind, hexpand, ok_bind, hloop _ _ _ hpool₂, foldlM_count, ok_bind, List.length_map,
    Nat.zero_add, hmatch, ok_bind]
  dsimp only
  rw [hloop _ _ _ hpool, foldlM_freeUnit, ok_bind, htop', ok_bind, hmodify]

end DawgBuilder

/-! ### What the levels stand for -/

/-- A level stands for a frame. -/
structure Level.Means (nodes : List (List Item)) (l : Level) (f : Frame UInt8 ℕ) : Prop where
  /-- The labels are the same. -/
  label : f.label = l.label
  /-- The older siblings spell those before the path. -/
  spells : Spells nodes (chainItems l.older) f.older
  /-- They have bits enough. -/
  fits : ∀ x ∈ chainItems l.older, Fits x

theorem Level.Means.append_nodes {f : Frame UInt8 ℕ} (h : l.Means nodes f) (nodes' : List (List Item)) :
    l.Means (nodes ++ nodes') f :=
  ⟨h.label, h.spells.append_nodes nodes', h.fits⟩

/-- What the deepest level spells, or the state below the root if there is none. -/
def TopSpells (nodes : List (List Item)) (p : ℕ) : List Level → WordTree UInt8 ℕ → Prop
  | [], t => ∃ xs, At nodes p xs ∧ Spells nodes xs t
  | l :: _, t => Spells nodes (l.items p) t ∧ ∀ x ∈ l.items p, Fits x

/-- The items that are not fixed. -/
def openItems (p : ℕ) : List Level → List Item
  | [] => [(0xFF, p)]
  | l :: ls => l.items p ++ ls.flatMap fun l => chainItems l.older

/-- Items of states, or of `xs`, lead to every state. -/
def Used (nodes : List (List Item)) (xs : List Item) : Prop := ∀ m ys, At nodes m ys → ∃ c, c ≠ 0 ∧ (c, m) ∈ nodes.flatten ++ xs

/-- The levels stand for frames, the deepest first, and the deepest for the tree `t`. -/
structure Stands (s : DawgBuilder) (nodes : List (List Item)) (p : ℕ) (levels : List Level) (fs : List (Frame UInt8 ℕ))
    (t : WordTree UInt8 ℕ) (n : ℕ) : Prop where
  /-- The states. -/
  arena : Arena s nodes
  /-- The units. -/
  units : Units s [] p levels
  /-- What the levels stand for. -/
  means : List.Forall₂ (Level.Means nodes) levels fs
  /-- The deepest level. -/
  spells : TopSpells nodes p levels t
  /-- Its tree is not empty. -/
  ne_nil : t ≠ .nil
  /-- Its tree is ordered. -/
  ordered : t.Ordered
  /-- So is the path above it. -/
  path : OrderedPath fs.tail
  /-- Only the deepest level can be the end of a word. -/
  labels : ∀ l ∈ levels.tail, l.label ≠ 0
  /-- Something leads to every state. -/
  used : Used nodes (openItems p levels)
  /-- There are not too many transitions and units. -/
  size : nodes.flatten.length + (stackCells p levels).length ≤ n

theorem At.le_length {xs : List Item} (hwf : WellFormed nodes) (h : At nodes m xs) : m ≤ nodes.flatten.length := by
  have hpos := List.length_pos_iff.mpr (hwf xs h.mem).1
  obtain ⟨pre, post, rfl, rfl⟩ := h
  rw [List.flatten_append, List.length_append, List.flatten_cons, List.length_append]
  omega

/-- An item that leads to what the deepest level leads to. -/
theorem exists_mem_openItems (p : ℕ) {levels : List Level} (h : ∀ l ∈ levels, l.label ≠ 0) :
    ∃ c, c ≠ 0 ∧ (c, p) ∈ openItems p levels := by
  cases levels with
  | nil => exact ⟨0xFF, by decide, List.mem_singleton.mpr rfl⟩
  | cons l ls =>
    refine ⟨l.label, h l List.mem_cons_self, List.mem_append_left _ ?_⟩
    rw [Level.items, Level.chain, chainItems_cons]
    exact List.mem_append_right _ (List.mem_singleton.mpr rfl)

/-- When the deepest level is fixed, its items are those of a state. -/
theorem Used.fix {nodes' : List (List Item)} (h : Used nodes (openItems p (l :: ls))) (hm : At nodes' m (l.items p))
    (hnodes : nodes' = nodes ∨ nodes' = nodes ++ [l.items p]) (hnodup : nodes'.Nodup) (hlabels : ∀ l ∈ ls, l.label ≠ 0) :
    Used nodes' (openItems m ls) := by
  have holder : ∀ x ∈ ls.flatMap (fun l => chainItems l.older), x ∈ openItems m ls := by
    intro x hx
    cases ls with
    | nil => exact (fun h => nomatch h) hx
    | cons l' ls =>
      rw [List.flatMap_cons, List.mem_append] at hx
      rw [openItems, Level.items, Level.chain, chainItems_cons]
      rcases hx with hx | hx
      · exact List.mem_append_left _ (List.mem_append_left _ hx)
      · exact List.mem_append_right _ hx
  have hold : ∀ m' ys, At nodes m' ys → ∃ c, c ≠ 0 ∧ (c, m') ∈ nodes'.flatten ++ openItems m ls := by
    intro m' ys hm'
    obtain ⟨c, hc, hmem⟩ := h m' ys hm'
    refine ⟨c, hc, ?_⟩
    rw [openItems, List.mem_append, List.mem_append] at hmem
    rcases hmem with hmem | hmem | hmem
    · refine List.mem_append_left _ ?_
      rcases hnodes with rfl | rfl
      · exact hmem
      · rw [List.flatten_append]
        exact List.mem_append_left _ hmem
    · exact List.mem_append_left _ (List.mem_flatten_of_mem hm.mem hmem)
    · exact List.mem_append_right _ (holder _ hmem)
  intro m' ys hm'
  rcases hnodes with rfl | rfl
  · exact hold m' ys hm'
  · rcases hm'.of_concat with hm' | ⟨rfl, -⟩
    · exact hold m' ys hm'
    · obtain rfl := hm'.index_unique hm hnodup
      obtain ⟨c, hc, hmem⟩ := exists_mem_openItems m' hlabels
      exact ⟨c, hc, List.mem_append_right _ hmem⟩

namespace Stands

variable {fs : List (Frame UInt8 ℕ)} {f : Frame UInt8 ℕ} {t : WordTree UInt8 ℕ} {n : ℕ}

/-- Fixing the deepest level leaves the tree as it is. -/
theorem exists_fixUnit (h : Stands s nodes p (l :: ls) fs t n) (hsibling : l.hasSibling = false) (hn : n < 2 ^ 30) :
    ∃ s' nodes' m t', s.fixUnit = .ok s' ∧ Stands s' nodes' m ls fs.tail t' n ∧
      plug fs.tail.tail.reverse t' = plug fs.tail.reverse t ∧ s'.initialHashTableSize = s.initialHashTableSize := by
  obtain ⟨s', nodes', m, hfix, ha, hu, hm, hnodes, hsize⟩ :=
    DawgBuilder.exists_fixUnit h.arena h.units hsibling h.spells.2 ⟨t, h.spells.1, h.ordered⟩
  have hspells : Spells nodes' (l.items p) t := by
    rcases hnodes with rfl | rfl
    · exact h.spells.1
    · exact h.spells.1.append_nodes _
  have hbound : nodes'.flatten.length + (stackCells m ls).length ≤ n := by
    have hold := h.size
    have hitems : (l.items p).length = l.older.length + 1 := by
      rw [Level.items, length_chainItems]
      rfl
    rw [length_stackCells_cons, length_stackCells 0 m] at hold
    rcases hnodes with rfl | rfl
    · omega
    · rw [List.flatten_append, List.length_append, List.flatten_singleton]
      omega
  have hused := h.used.fix hm hnodes ha.nodup
  cases h.means with
  | cons hl hls =>
    rename_i f fs
    have hls' : List.Forall₂ (Level.Means nodes') ls fs := by
      rcases hnodes with rfl | rfl
      · exact hls
      · exact hls.imp fun _ _ hl => hl.append_nodes _
    cases hls with
    | nil =>
      exact ⟨s', nodes', m, t, hfix, ⟨ha, hu, hls', ⟨_, hm, hspells⟩, h.ne_nil, h.ordered, (fun f hf => nomatch hf),
        (fun l hl => nomatch hl), hused (fun l hl => nomatch hl), hbound⟩, rfl, hsize⟩
    | cons hl' hls'' =>
      rename_i l' f' ls fs
      have hl' : l'.Means nodes' f' := by
        cases hls' with
        | cons h _ => exact h
      have hlabel : l'.label ≠ 0 := h.labels l' List.mem_cons_self
      have hpath : OrderedPath (f' :: fs) := h.path
      refine ⟨s', nodes', m, plug [f'] t, hfix, ⟨ha, hu, hls', ⟨?_, ?_⟩, plug_ne_nil h.ne_nil, ordered_plug ?_ h.ordered h.ne_nil, ?_, ?_,
        hused fun l hl => h.labels l hl, hbound⟩, ?_, hsize⟩
      · rw [Level.items, Level.chain, chainItems_cons, plug, hl'.label]
        exact hl'.spells.append (.edge hlabel hm hspells .nil)
      · intro x hx
        rw [Level.items, Level.chain, chainItems_cons, List.mem_append, List.mem_singleton] at hx
        rcases hx with hx | rfl
        · exact hl'.fits x hx
        · have hle := hm.le_length ha.wellFormed
          rw [Fits, if_neg hlabel]
          change m < 2 ^ 30
          omega
      · exact fun g hg => hpath g (by rw [List.mem_singleton.mp hg]; exact List.mem_cons_self)
      · exact fun g hg => hpath g (List.mem_cons_of_mem _ hg)
      · exact fun k hk => h.labels k (List.mem_cons_of_mem _ hk)
      · rw [List.tail_cons, List.tail_cons, List.reverse_cons, plug_append]

/-- So does fixing all levels down to some. -/
theorem exists_fixUnits {deep rest : List Level} {fuel : ℕ} (h : Stands s nodes p (deep ++ rest) fs t n)
    (hsibling : ∀ l ∈ deep, l.hasSibling = false) (hfuel : deep.length < fuel) (hn : n < 2 ^ 30) :
    ∃ s' nodes' p' t', DawgBuilder.fixUnits fuel s (topUnit rest) = .ok { s' with unfixedUnits := s'.unfixedUnits.tail } ∧
      Stands s' nodes' p' rest (fs.drop deep.length) t' n ∧ plug (fs.drop deep.length).tail.reverse t' = plug fs.tail.reverse t ∧
      s'.initialHashTableSize = s.initialHashTableSize := by
  induction deep generalizing s nodes p fs t fuel with
  | nil =>
    obtain ⟨fuel, rfl⟩ := Nat.exists_eq_succ_of_ne_zero (Nat.ne_zero_of_lt hfuel)
    refine ⟨s, nodes, p, t, ?_, h, rfl, rfl⟩
    have htop : s.topUnfixed = .ok (topUnit rest) := by
      rw [DawgBuilder.topUnfixed, h.units.stack]
      cases rest with
      | nil => rfl
      | cons l rest => rfl
    rw [DawgBuilder.fixUnits, htop, ok_bind, if_pos rfl]
    rfl
  | cons l deep ih =>
    obtain ⟨fuel, rfl⟩ := Nat.exists_eq_succ_of_ne_zero (Nat.ne_zero_of_lt hfuel)
    obtain ⟨s₁, nodes₁, p₁, t₁, hfix, h₁, hplug₁, hsize₁⟩ := h.exists_fixUnit (hsibling l List.mem_cons_self) hn
    obtain ⟨s', nodes', p', t', hfixes, h', hplug', hsize'⟩ := ih h₁ (fun k hk => hsibling k (List.mem_cons_of_mem _ hk))
      (Nat.lt_of_succ_lt_succ hfuel)
    have hdrop : fs.tail.drop deep.length = fs.drop (l :: deep).length := by
      rw [← List.drop_one, List.drop_drop, List.length_cons, Nat.add_comm]
    rw [hdrop] at h' hplug'
    refine ⟨s', nodes', p', t', ?_, h', hplug'.trans hplug₁, hsize'.trans hsize₁⟩
    have htop : s.topUnfixed = .ok l.unit := by
      rw [DawgBuilder.topUnfixed, h.units.stack]
      rfl
    have hne : l.unit ≠ topUnit rest := by
      have hnodup := h.units.nodup
      rw [List.map_nil, List.nil_append, List.cons_append, stackCells, List.map_append, Level.cells,
        map_fst_chainCells, Level.chain,
        List.map_cons, List.cons_append, List.cons_append, List.nodup_cons] at hnodup
      intro he
      exact hnodup.1 (List.mem_append_left _ (List.mem_append_right _ (he ▸ topUnit_mem_stackCells _ deep rest)))
    rw [DawgBuilder.fixUnits, htop, ok_bind, if_neg hne, hfix, ok_bind, hfixes]

end Stands

end InfixSearch.Dawgdic
