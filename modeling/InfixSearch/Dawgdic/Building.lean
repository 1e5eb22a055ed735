import InfixSearch.Dawgdic.Keeping

/-!
# Building a dawg

A builder is given keys, some of which it takes, and is then asked for the dawg. Whatever the
calls are, it answers each as it should and stands for the lexicon of the keys it took
(`exists_inserts`), and the dawg spells that lexicon and has no more states than it needs
(`inserts_finish`, `inserts_finish_minimal`).
-/

namespace InfixSearch.Dawgdic

open Library WordTree

/-- A call of `Insert`: a key with a length, or a null pointer, and a value. -/
abbrev Call := Option (List UInt8) × ℤ

/-- The lexicon after a call of `Insert`, if the key is taken. -/
def taken (es : List (List UInt8 × ℕ)) (call : Call) : Option (List (List UInt8 × ℕ)) :=
  match call.1 with
  | none => none
  | some key => if key.length = 0 ∨ call.2 < 0 ∨ 0 ∈ key then none else insertLast es key call.2.toNat

/-- What calls of `Insert` should answer, and the lexicon after them. -/
def lexicon (es : List (List UInt8 × ℕ)) : List Call → List Bool × List (List UInt8 × ℕ)
  | [] => ([], es)
  | call :: calls =>
    let rest := lexicon ((taken es call).getD es) calls
    ((taken es call).isSome :: rest.1, rest.2)

/-- The units a call may need. -/
def cost (call : Call) : ℕ := (call.1.map fun key => key.length + 1).getD 0

namespace DawgBuilder

/-- Calls of `Insert`, one after the other: what they answer, and the builder after them. -/
def inserts (s : DawgBuilder) : List Call → Except Fault (List Bool × DawgBuilder)
  | [] => pure ([], s)
  | call :: calls => do
    let (b, s) ← s.insert call.1 call.2
    let (bs, s) ← s.inserts calls
    pure (b :: bs, s)

/-- A builder that has taken a lexicon. -/
def Takes (s : DawgBuilder) (size : ℕ) (es : List (List UInt8 × ℕ)) (n : ℕ) : Prop :=
  (s = construct size ∧ es = [] ∧ 1 ≤ n) ∨ (Built s es n ∧ s.initialHashTableSize = size)

variable {s : DawgBuilder} {size n : ℕ} {es : List (List UInt8 × ℕ)}

/-! ### The first key -/

/-- A builder that is initialized has the root only. -/
theorem exists_init (hsize : 0 < size) :
    ∃ s, (construct size).initialized = .ok s ∧ Arena s [] ∧ Units s [] 0 [] ∧ s.initialHashTableSize = size := by
  refine ⟨{ construct size with
    hashTable := List.replicate size 0, unitPool := [⟨0, 0, 0xFF, false, false⟩], flagPool := [false],
    basePool := [BaseUnit.construct], labelPool := [none], unfixedUnits := [0] }, rfl,
    ⟨⟨⟨_, rfl⟩, _, rfl⟩, (fun xs hxs => nomatch hxs), .nil, ?_, .empty [] size, ?_, rfl, rfl, rfl⟩,
    ⟨rfl, ?_, ?_, fun i hi => nomatch hi⟩, rfl⟩
  · intro pre xs post he
    cases pre <;> cases he
  · simpa using hsize
  · intro c hc
    obtain rfl := List.mem_singleton.mp hc
    rfl
  · exact List.nodup_singleton 0

/-- The first key is taken. -/
theorem exists_insertKey_first {key : List UInt8} {value : ℤ} (hsize : 0 < size) (hne : key ≠ []) (hkey : 0 ∉ key)
    (hs : 0 ≤ value) (hlt : value < 2 ^ 31) (hn : 1 ≤ n) :
    ∃ s', (construct size).insertKey key value = .ok (true, s') ∧ Built s' [(key, value.toNat)] (n + (key.length + 1)) ∧
      s'.initialHashTableSize = size := by
  obtain ⟨k, ks, rfl⟩ := List.exists_cons_of_ne_nil hne
  obtain ⟨s, hinit, ha, hu, hinitial⟩ := exists_init hsize
  rw [List.mem_cons, not_or] at hkey
  have hroot : s.unitPool[0]? = some ⟨0, 0, 0xFF, false, false⟩ :=
    hu.shows (0, ⟨0, 0, 0xFF, false, false⟩) List.mem_cons_self
  obtain ⟨s', hadd, hbuilt, hinitial'⟩ := Built.exists_addUnits (k := k) (n := n + ((k :: ks).length + 1)) hs hlt ha hu
    (fun u hu => nomatch hu) (List.Forall₂.nil : List.Forall₂ (Level.Means []) [] []) (Spells.nil : Spells [] (chainItems []) .nil)
    (fun x hx => nomatch hx) (fun l hl => nomatch hl) (fun f hf => nomatch hf) List.not_mem_nil trivial
    (fun m ys hm => absurd hm.mem List.not_mem_nil) (fun x hx => nomatch hx) (Ne.symm hkey.1) hkey.2 (by
      simp only [stackCells, List.flatten_nil, List.length_nil, List.length_cons]
      omega)
  refine ⟨s', ?_, ?_, hinitial'.trans hinitial⟩
  · rw [insertKey, hinit, ok_bind, List.cons_append, separate, Pool.get_eq hroot, ok_bind]
    exact hadd
  · rw [past_turn] at hbuilt
    exact hbuilt

/-! ### A run -/

/-- A call of `Insert` does to the lexicon what it should, and answers whether the key is taken; if not, nothing is changed. -/
theorem Takes.exists_insert (h : Takes s size es n) (hsize : 0 < size) (call : Call) (hvalue : call.2 < 2 ^ 31)
    (hn : n + cost call < 2 ^ 30) :
    ∃ s', s.insert call.1 call.2 = .ok ((taken es call).isSome, s') ∧ Takes s' size ((taken es call).getD es) (n + cost call) ∧
      (taken es call = none → s' = s) := by
  have hmono : ∀ m, n ≤ m → Takes s size es m := by
    rintro m hm
    rcases h with ⟨rfl, rfl, h1⟩ | ⟨h, hinit⟩
    · exact .inl ⟨rfl, rfl, h1.trans hm⟩
    · obtain ⟨nodes, v, levels, fs, h, hrest⟩ := h
      exact .inr ⟨⟨nodes, v, levels, fs, { h with size := h.size.trans hm }, hrest⟩, hinit⟩
  obtain ⟨key, value⟩ := call
  cases key with
  | none => exact ⟨s, rfl, hmono _ (Nat.le_add_right _ _), fun _ => rfl⟩
  | some key =>
    rw [taken, insert]
    dsimp only
    split_ifs with hbad
    · exact ⟨s, rfl, hmono _ (Nat.le_add_right _ _), fun _ => rfl⟩
    · rw [not_or, not_or, List.length_eq_zero_iff, not_lt] at hbad
      obtain ⟨hne, hs, hkey⟩ := hbad
      rcases h with ⟨rfl, rfl, h1⟩ | ⟨h, hinit⟩
      · obtain ⟨s', hinsert, hbuilt, hinit⟩ := exists_insertKey_first hsize hne hkey hs hvalue h1
        exact ⟨s', hinsert, .inr ⟨hbuilt, hinit⟩, fun h => nomatch h⟩
      · obtain ⟨b, s', hinsert, hinit', hcase⟩ := h.exists_insertKey hs hvalue hkey hn
        cases htaken : insertLast es key value.toNat with
        | none =>
          rw [htaken] at hcase
          obtain ⟨rfl, rfl⟩ := hcase
          exact ⟨s', hinsert, hmono _ (Nat.le_add_right _ _), fun _ => rfl⟩
        | some es' =>
          rw [htaken] at hcase
          obtain ⟨rfl, hbuilt⟩ := hcase
          exact ⟨s', hinsert, .inr ⟨hbuilt, hinit'.trans hinit⟩, fun h => nomatch h⟩

/-- So do all calls of a run. -/
theorem Takes.exists_inserts {calls : List Call} (h : Takes s size es n) (hsize : 0 < size)
    (hvalues : ∀ call ∈ calls, call.2 < 2 ^ 31) (hn : n + (calls.map cost).sum < 2 ^ 30) :
    ∃ s', s.inserts calls = .ok ((lexicon es calls).1, s') ∧ Takes s' size (lexicon es calls).2 (n + (calls.map cost).sum) := by
  induction calls generalizing s es n with
  | nil => exact ⟨s, rfl, h⟩
  | cons call calls ih =>
    rw [List.forall_mem_cons] at hvalues
    rw [List.map_cons, List.sum_cons, ← Nat.add_assoc] at hn ⊢
    obtain ⟨s₁, hinsert, h₁, -⟩ := h.exists_insert hsize call hvalues.1 (by omega)
    obtain ⟨s', hinserts, h'⟩ := ih h₁ hvalues.2 hn
    refine ⟨s', ?_, h'⟩
    rw [inserts, hinsert, ok_bind]
    dsimp only
    rw [hinserts]
    rfl

/-! ### The end -/

/-- When all units are fixed, the root leads to the state of the lexicon. -/
theorem exists_finish_of_units {nodes : List (List Item)} {p : ℕ} {xs : List Item} {t : WordTree UInt8 ℕ}
    (ha : Arena s nodes) (hroot : s.unitPool[0]? = some ⟨p, 0, 0xFF, false, false⟩) (htop : Dawg.Top nodes p xs)
    (hxs : Spells nodes xs t) (ht : t.Ordered) (hused : Used nodes [(0xFF, p)])
    (hsize : nodes.flatten.length < 2 ^ 30) :
    ∃ d : Dawg, (do
        let unit ← Pool.get s.unitPool 0
        let basePool ← Pool.set s.basePool 0 ⟨unit.base⟩
        let labelPool ← s.labelPool.write 0 unit.label
        pure ((⟨basePool, labelPool, s.flagPool, s.numOfStates, s.numOfMergedTransitions, s.numOfMergedStates,
          s.numOfMergingStates⟩ : Dawg), construct s.initialHashTableSize)) = Except.ok (d, construct s.initialHashTableSize) ∧
      d.Keeps nodes t := by
  have hlen := ha.pools.length_base
  have hlen' := ha.pools.length_label
  have hp : p < 2 ^ 30 := by
    rcases htop with ⟨-, rfl, -⟩ | hat
    · decide
    · exact (hat.le_length ha.wellFormed).trans_lt hsize
  refine ⟨⟨s.basePool.set 0 ⟨DawgUnit.base ⟨p, 0, 0xFF, false, false⟩⟩, s.labelPool.set 0 (some 0xFF), s.flagPool, s.numOfStates,
    s.numOfMergedTransitions, s.numOfMergedStates, s.numOfMergingStates⟩, ?_, ?_⟩
  · rw [Pool.get_eq hroot, ok_bind, Pool.set_eq (by omega), ok_bind, Block.write_of_lt (by omega), ok_bind]
    rfl
  · obtain ⟨r, hr⟩ := ha.pools.base
    obtain ⟨l, hl⟩ := ha.pools.label
    have hchild : (Pool.get (s.basePool.set 0 ⟨DawgUnit.base ⟨p, 0, 0xFF, false, false⟩⟩) 0).map BaseUnit.child = .ok p := by
      rw [Pool.get_eq (List.getElem?_set_self (by omega))]
      exact congrArg Except.ok (child_itemBase (x := (0xFF, p)) hp fun h0 : (0xFF : UInt8) = 0 => nomatch h0)
    refine ⟨⟨⟨_, by rw [hr]; rfl⟩, _, by rw [hl]; rfl⟩, ha.wellFormed, ha.nodup, ha.spells, ?_,
      ⟨p, xs, hchild, htop, hxs⟩, ht, ?_, hsize,
      by rw [List.length_set]; exact ha.flags, ha.merging, ha.states⟩
    · exact Block.read_of_getElem? (List.getElem?_set_self (by omega))
    · intro m ys hm
      obtain ⟨c, hc, hmem⟩ := hused m ys hm
      rcases List.mem_append.mp hmem with hmem | hmem
      · exact .inl ⟨c, hc, hmem⟩
      · rw [(Prod.mk.injEq _ _ _ _ ▸ List.mem_singleton.mp hmem : c = 0xFF ∧ m = p).2]
        exact .inr hchild

/-- The dawg keeps the lexicon, and the builder is as it was at first. -/
theorem Takes.exists_finish (h : Takes s size es n) (hsize : 0 < size) (hn : n < 2 ^ 30) :
    ∃ d nodes t, s.finish = .ok (d, construct size) ∧ d.Keeps nodes t ∧ t.entries = es := by
  rcases h with ⟨rfl, rfl, -⟩ | ⟨⟨nodes, v, levels, fs, h, hsibling, -, rfl⟩, rfl⟩
  · obtain ⟨s, hinit, ha, hu, rfl⟩ := exists_init hsize
    obtain ⟨d, hfinish, hkeeps⟩ := exists_finish_of_units (p := 0) (t := .nil) ha (hu.shows _ List.mem_cons_self)
      (.inl ⟨rfl, rfl, rfl⟩) .nil trivial (fun m ys hm => absurd hm.mem List.not_mem_nil) (by decide)
    have hfix : fixUnits s.unfixedUnits.length s 0 = .ok { s with unfixedUnits := s.unfixedUnits.tail } := by
      have htop : s.topUnfixed = .ok 0 := by
        rw [topUnfixed, hu.stack]
        rfl
      rw [show s.unfixedUnits.length = 1 by rw [hu.stack]; rfl, fixUnits, htop, ok_bind, if_pos rfl]
      rfl
    refine ⟨d, [], .nil, ?_, hkeeps, rfl⟩
    rw [finish, hinit, ok_bind, hfix, ok_bind]
    exact hfinish
  · have hinit : s.initialized = .ok s := by
      have hroom := h.arena.room
      have hne : s.hashTable.isEmpty = false := by
        rw [List.isEmpty_eq_false_iff, ← List.length_pos_iff]
        omega
      rw [initialized, hne]
      rfl
    rw [← List.append_nil levels] at h
    obtain ⟨s', nodes', p, t, hfix, h', hplug, hsize'⟩ := h.exists_fixUnits hsibling
      (show levels.length < s.unfixedUnits.length by rw [h.units.stack]; simp) hn
    obtain ⟨xs, hat, hxs⟩ := h'.spells
    obtain ⟨d, hfinish, hkeeps⟩ := exists_finish_of_units h'.arena (h'.units.shows (0, ⟨p, 0, 0xFF, false, false⟩) List.mem_cons_self)
      (.inr hat) hxs h'.ordered h'.used (lt_of_le_of_lt (Nat.le_trans (Nat.le_add_right _ _) h'.size) hn)
    refine ⟨d, nodes', t, ?_, hkeeps, ?_⟩
    · rw [finish, hinit, ok_bind]
      have hfix' : fixUnits s.unfixedUnits.length s 0 = .ok { s' with unfixedUnits := s'.unfixedUnits.tail } := hfix
      rw [hfix', ok_bind, ← hsize']
      exact hfinish
    · have hdrop : (⟨.nil, 0⟩ :: fs).drop levels.length = [] := by
        rw [List.drop_eq_nil_iff, ← h.means.length_eq, List.append_nil]
      rw [hdrop] at hplug
      have ht : t = plug fs.reverse (.leaf v .nil) := hplug
      rw [ht, entries_plug]
      simp [WordTree.entries, under]

/-! ### The dawg of a run -/

/-- A run of calls, and the dawg of it. -/
theorem exists_build (hsize : 0 < size) {calls : List Call} (hvalues : ∀ call ∈ calls, call.2 < 2 ^ 31)
    (hroom : 1 + (calls.map cost).sum < 2 ^ 30) :
    ∃ s d nodes t, (construct size).inserts calls = .ok ((lexicon [] calls).1, s) ∧ s.finish = .ok (d, construct size) ∧
      d.Keeps nodes t ∧ t.entries = (lexicon [] calls).2 := by
  have h : Takes (construct size) size [] 1 := .inl ⟨rfl, rfl, le_rfl⟩
  obtain ⟨s, hinserts, hs⟩ := h.exists_inserts hsize hvalues hroom
  obtain ⟨d, nodes, t, hfinish, hkeeps, hentries⟩ := hs.exists_finish hsize hroom
  exact ⟨s, d, nodes, t, hinserts, hfinish, hkeeps, hentries⟩

/-- **A dawg is what its builder was given.** No call of a run is a fault, each answers whether its key is
taken, and the dawg spells, from its root on, the keys that were taken, in order and with their values. The
builder is then as it was at first. -/
theorem inserts_finish (size : ℕ) (hsize : 0 < size) (calls : List Call) (hvalues : ∀ call ∈ calls, call.2 < 2 ^ 31)
    (hroom : 1 + (calls.map cost).sum < 2 ^ 30) :
    ∃ s d p t, (construct size).inserts calls = .ok ((lexicon [] calls).1, s) ∧ s.finish = .ok (d, construct size) ∧
      d.child d.root = .ok p ∧ d.Spells p t ∧ t.Ordered ∧ t.entries = (lexicon [] calls).2 := by
  obtain ⟨s, d, nodes, t, hinserts, hfinish, hkeeps, hentries⟩ := exists_build hsize hvalues hroom
  obtain ⟨p, hp, hspells⟩ := hkeeps.spells_root
  exact ⟨s, d, p, t, hinserts, hfinish, hp, hspells, hkeeps.ordered, hentries⟩

/-- `ab` and `b` end alike. -/
theorem inserts_finish_ab_b :
    (∃ s d p t, (construct 4).inserts [(some [97, 98], 5), (some [98], 5)] = .ok ([true, true], s) ∧ s.finish = .ok (d, construct 4) ∧
      d.child d.root = .ok p ∧ d.Spells p t ∧ t.Ordered ∧ t.entries = [([97, 98], 5), ([98], 5)]) :=
  inserts_finish 4 (by decide) [(some [97, 98], 5), (some [98], 5)] (by decide) (by decide)

/-- **A dawg is minimal.** It has one state for each set of what may follow a word, with the values, and the root. -/
theorem inserts_finish_minimal (size : ℕ) (hsize : 0 < size) (calls : List Call)
    (hvalues : ∀ call ∈ calls, call.2 < 2 ^ 31) (hroom : 1 + (calls.map cost).sum < 2 ^ 30) :
    ∃ s d, (construct size).inserts calls = .ok ((lexicon [] calls).1, s) ∧ s.finish = .ok (d, construct size) ∧
      d.numOfStates = Set.ncard {r | r ≠ [] ∧ ∃ k, r = residual (lexicon [] calls).2 k} + 1 := by
  obtain ⟨s, d, nodes, t, hinserts, hfinish, hkeeps, hentries⟩ := exists_build hsize hvalues hroom
  exact ⟨s, d, hinserts, hfinish, hentries ▸ hkeeps.numOfStates_eq⟩

theorem inserts_finish_minimal_ab_b :
    ∃ s d, (construct 4).inserts [(some [97, 98], 5), (some [98], 5)] = .ok ([true, true], s) ∧ s.finish = .ok (d, construct 4) ∧
      d.numOfStates = Set.ncard {r | r ≠ [] ∧ ∃ k, r = residual [([97, 98], 5), (([98] : List UInt8), 5)] k} + 1 :=
  inserts_finish_minimal 4 (by decide) [(some [97, 98], 5), (some [98], 5)] (by decide) (by decide)

end DawgBuilder

/-! ### The keys that are taken -/

/-- The empty string is not taken, and no string with a `'\0'`. -/
theorem key_of_mem_lexicon {es : List (List UInt8 × ℕ)} {calls : List Call} (h : ∀ e ∈ es, e.1 ≠ [] ∧ 0 ∉ e.1) :
    ∀ e ∈ (lexicon es calls).2, e.1 ≠ [] ∧ 0 ∉ e.1 := by
  induction calls generalizing es with
  | nil => exact h
  | cons call calls ih =>
    refine ih ?_
    obtain ⟨key, value⟩ := call
    cases htaken : taken es (key, value) with
    | none => exact h
    | some es' =>
      rw [Option.getD_some]
      cases key with
      | none => exact nomatch htaken
      | some key =>
        rw [taken] at htaken
        dsimp only at htaken
        split_ifs at htaken with hc
        rw [not_or, not_or] at hc
        have hkey : key ≠ [] ∧ 0 ∉ key := ⟨fun he => hc.1 (by rw [he]; rfl), hc.2.2⟩
        have hnew : ∀ es'' : List (List UInt8 × ℕ), es'' ⊆ es → ∀ e ∈ es'' ++ [(key, value.toNat)], e.1 ≠ [] ∧ 0 ∉ e.1 := by
          intro es'' hsub e he
          rcases List.mem_append.mp he with he | he
          · exact h e (hsub he)
          · rw [List.mem_singleton.mp he]
            exact hkey
        rw [insertLast] at htaken
        cases hlast : es.getLast? with
        | none =>
          rw [hlast] at htaken
          rw [← Option.some.inj htaken]
          exact hnew [] (List.nil_subset es)
        | some e =>
          rw [hlast] at htaken
          dsimp only at htaken
          split_ifs at htaken
          · rw [← Option.some.inj htaken]
            exact hnew _ (List.dropLast_subset es)
          · rw [← Option.some.inj htaken]
            exact hnew es (List.Subset.refl es)

end InfixSearch.Dawgdic
