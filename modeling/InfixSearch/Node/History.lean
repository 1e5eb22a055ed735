import InfixSearch.Node.Shows

/-!
# Histories of a packed node

A history is a list of calls on a node, from its construction on. The attributes of
`node2_t` share their bytes: the two flags are in one byte, the count of the neighbors and the
tail in the array with it, the parent and the children in the other array. What a node shows
after a history is what the last call on each attribute stored, except that either flag is
cleared with the other (`attributes_iff`); and a history that gives a node 127 children ends
the program (`children_iff`).
-/

namespace InfixSearch

open Library

/-- The two flags of a node. -/
inductive NodeFlag where
  /-- Whether a word ends here. -/
  | leaf
  /-- Whether the node is indexed. -/
  | indexed
  deriving DecidableEq

/-- A call that changes the children. -/
inductive ChildOp where
  /-- `set_child`, with the value of the child. -/
  | setChild (c : Ptr)
  /-- `kill_children`. -/
  | killChildren
  deriving DecidableEq

/-- A call that changes a node. -/
inductive NodeOp where
  /-- `set_is_leaf`, or `set_is_indexed`. -/
  | setFlag (f : NodeFlag) (b : Bool)
  /-- `set_tail`. -/
  | setTail (t : Str)
  /-- `set_parent`. -/
  | setParent (p : Option Ptr)
  /-- `set_child`, or `kill_children`. -/
  | child (o : ChildOp)
  deriving DecidableEq

namespace ChildOp

/-- The children after a call. -/
def after (l : List Ptr) : ChildOp → List Ptr
  | setChild c => l ++ [c]
  | killChildren => []

/-- The children set since the last `kill_children`, in order. -/
def children (ops : List ChildOp) : List Ptr := ops.foldl after []

/-- At no time two of the children have the same value. -/
def Distinct (vals : Ptr → Byte) (ops : List ChildOp) : Prop := ∀ us, us <+: ops → ((children us).map vals).Nodup

/-- At no time there are more children than the count can count. -/
def Fits (ops : List ChildOp) : Prop := ∀ us, us <+: ops → (children us).length ≤ Node2T.capacity

instance (vals : Ptr → Byte) (ops : List ChildOp) : Decidable (Distinct vals ops) :=
  decidable_of_iff (∀ us ∈ ops.inits, ((children us).map vals).Nodup) (by simp [Distinct])

instance (ops : List ChildOp) : Decidable (Fits ops) :=
  decidable_of_iff (∀ us ∈ ops.inits, (children us).length ≤ Node2T.capacity) (by simp [Fits])

variable {vals : Ptr → Byte} {ops : List ChildOp} {o : ChildOp}

theorem children_concat (ops : List ChildOp) (o : ChildOp) : children (ops ++ [o]) = after (children ops) o := by
  simp [children]

theorem Distinct.of_append {ops' : List ChildOp} (h : Distinct vals (ops ++ ops')) : Distinct vals ops :=
  fun us hu => h us (hu.trans (List.prefix_append _ _))

theorem Fits.of_append {ops' : List ChildOp} (h : Fits (ops ++ ops')) : Fits ops :=
  fun us hu => h us (hu.trans (List.prefix_append _ _))

/-- A child that is set has a value that none of the others has. -/
theorem Distinct.ne {c : Ptr} (h : Distinct vals (ops ++ [setChild c])) : ∀ d ∈ children ops, vals d ≠ vals c := by
  have hn := h _ List.prefix_rfl
  rw [children_concat, after, List.map_append, List.nodup_append] at hn
  intro d hd
  exact hn.2.2 _ (List.mem_map_of_mem hd) _ (by simp)

theorem Fits.lt {c : Ptr} (h : Fits (ops ++ [setChild c])) : (children ops).length < Node2T.capacity := by
  have := h _ List.prefix_rfl
  rw [children_concat, after, List.length_append] at this
  exact this

theorem fits_concat_iff : Fits (ops ++ [o]) ↔ Fits ops ∧ (children (ops ++ [o])).length ≤ Node2T.capacity := by
  constructor
  · exact fun h => ⟨h.of_append, h _ List.prefix_rfl⟩
  · rintro ⟨h, hlast⟩ us hu
    rcases List.prefix_concat_iff.mp hu with rfl | hu
    · exact hlast
    · exact h us hu

/-- Without `kill_children` all the children stay. -/
theorem children_map_setChild (l : List Ptr) : children (l.map setChild) = l := by
  induction l using List.reverseRecOn with
  | nil => rfl
  | append_singleton l c ih => rw [List.map_append, List.map_singleton, children_concat, ih, after]

theorem distinct_map_setChild {l : List Ptr} (h : (l.map vals).Nodup) : Distinct vals (l.map setChild) := by
  intro us hu
  obtain ⟨l', hl', rfl⟩ := List.prefix_map_iff.mp hu
  rw [children_map_setChild]
  exact h.sublist (hl'.sublist.map vals)

end ChildOp

namespace NodeOp

/-- The value that a call stores in a flag. -/
def flag? (f : NodeFlag) : NodeOp → Option Bool
  | setFlag g b => if g = f then some b else none
  | _ => none

/-- The value that a call stores in the tail. -/
def tail? : NodeOp → Option Str
  | setTail t => some t
  | _ => none

/-- The value that a call stores in the parent. -/
def parent? : NodeOp → Option (Option Ptr)
  | setParent p => some p
  | _ => none

/-- A call that changes the children. -/
def child? : NodeOp → Option ChildOp
  | child o => some o
  | _ => none

/-- What the last call on an attribute stored, or else what the constructor did. -/
def last {α : Type} (attribute? : NodeOp → Option α) (default : α) (ops : List NodeOp) : α :=
  (ops.filterMap attribute?).getLastD default

/-- The calls on the children. -/
def childOps (ops : List NodeOp) : List ChildOp := ops.filterMap child?

/-- Where the flag is set, and a call clears the other flag, another call on the flag comes after
that. -/
def Kept (f : NodeFlag) (ops : List NodeOp) : Prop :=
  ∀ g, f ≠ g → ∀ us vs, ops = us ++ setFlag g false :: vs → last (flag? f) false us = true → ∃ b, setFlag f b ∈ vs

theorem last_concat {α : Type} (attribute? : NodeOp → Option α) (default : α) (ops : List NodeOp) (o : NodeOp) :
    last attribute? default (ops ++ [o]) = (attribute? o).getD (last attribute? default ops) := by
  cases h : attribute? o <;> simp [last, h]

theorem childOps_concat (ops : List NodeOp) (o : NodeOp) : childOps (ops ++ [o]) = childOps ops ++ (child? o).toList := by
  cases h : child? o <;> simp [childOps, h]

end NodeOp

namespace NodeFlag

/-- The bit of the flag. -/
def bit : NodeFlag → Byte
  | leaf => Node2T.bitIndexIsLeaf
  | indexed => Node2T.bitIndexIsIndexed

/-- The flag in the byte of flags. -/
def ofByte (metadata : Byte) (f : NodeFlag) : Bool := (metadata >>> f.bit) &&& 1 == 1

theorem ofByte_or : ∀ (metadata : Byte) (f g : NodeFlag),
    ofByte (metadata ||| (1 <<< f.bit)) g = (decide (f = g) || ofByte metadata g) := by
  rintro ⟨b⟩ f g
  cases f <;> cases g <;> revert b <;> decide +kernel

/-- Clearing a flag clears the byte. -/
theorem ofByte_and (metadata : Byte) (f g : NodeFlag) : ofByte (metadata &&& (0 <<< f.bit)) g = false := by
  rw [UInt8.zero_shiftLeft, UInt8.and_zero]
  cases g <;> rfl

/-- The flags after a call. -/
def after (flags : NodeFlag → Bool) : NodeOp → NodeFlag → Bool
  | .setFlag f true => fun g => decide (f = g) || flags g
  | .setFlag _ false => fun _ => false
  | _ => flags

end NodeFlag

namespace Node2T

/-- A call. -/
def call (vals : Ptr → Byte) (n : Node2T) : NodeOp → Except Fault Node2T
  | .setFlag .leaf b => n.setIsLeaf b
  | .setFlag .indexed b => n.setIsIndexed b
  | .setTail t => n.setTailNat t
  | .setParent p => n.setParent p
  | .child (.setChild c) => n.setChild (fun c => .ok (vals c)) (vals c) c
  | .child .killChildren => n.killChildren

/-- A history. -/
def calls (vals : Ptr → Byte) (ops : List NodeOp) : Except Fault Node2T := construct >>= fun n => ops.foldlM (call vals) n

variable {vals : Ptr → Byte} {n n' : Node2T} {v : NodeView}

theorem calls_concat (vals : Ptr → Byte) (ops : List NodeOp) (o : NodeOp) :
    calls vals (ops ++ [o]) = calls vals ops >>= fun n => n.call vals o := by
  simp only [calls, List.foldlM_append, List.foldlM_cons, List.foldlM_nil, bind_assoc, bind_pure]

/-! ### The byte of flags -/

/-- Only calls on the flags write to their byte. -/
theorem call_metadata (vals : Ptr → Byte) (o : NodeOp) (ho : ∀ f b, o ≠ .setFlag f b) (h : n.Shows v) (e : n.call vals o = .ok n') :
    n'.data[0]? = n.data[0]? := by
  match o with
  | .setFlag f b => exact absurd rfl (ho f b)
  | .setTail t =>
    obtain ⟨metadata, slack, hd, -⟩ := h.data
    have hlen : 0 < n.data.length := by simp [hd, layout]
    simp only [call, setTailNat, setTailWith, bind_eq_ok] at e
    obtain ⟨size, -, data, hdata, data', hdata', e⟩ := e
    obtain rfl := Except.ok.inj e
    rw [Block.getElem?_of_writeAll hdata' (show 0 < tailIndex by decide)]
    split_ifs at hdata
    · rw [reallocData_natCast (by omega)] at hdata
      rw [← Except.ok.inj hdata, Block.getElem?_realloc (by omega) hlen]
    · rw [Except.ok.inj hdata]
  | .setParent p =>
    rw [call, setParent, bind_eq_ok] at e
    obtain ⟨nb, -, e⟩ := e
    obtain rfl := Except.ok.inj e
    rfl
  | .child (.setChild c) =>
    simp only [call, setChild, bind_eq_ok] at e
    obtain ⟨total, -, slot, -, e⟩ := e
    cases slot with
    | free i =>
      rw [bind_eq_ok] at e
      obtain ⟨nb, -, e⟩ := e
      obtain rfl := Except.ok.inj e
      rfl
    | duplicate =>
      obtain rfl := Except.ok.inj e
      rfl
    | full =>
      simp only [bind_eq_ok] at e
      obtain ⟨data, hdata, nb, -, nb', -, e⟩ := e
      obtain rfl := Except.ok.inj e
      exact Block.getElem?_of_write hdata (show totalNeighborsIndex ≠ 0 by decide)
  | .child .killChildren =>
    simp only [call, killChildren, bind_eq_ok] at e
    obtain ⟨data, hdata, nb, -, nb', -, e⟩ := e
    obtain rfl := Except.ok.inj e
    exact Block.getElem?_of_write hdata (show totalNeighborsIndex ≠ 0 by decide)

/-- A call on a flag sets it, or clears both. -/
theorem call_setFlag {metadata : Byte} (h : n.Shows v) (hm : n.data[0]? = some (some metadata)) (f : NodeFlag) (b : Bool) :
    ∃ n' metadata', n.call vals (.setFlag f b) = .ok n' ∧ n'.data[0]? = some (some metadata') ∧
      (∀ g, NodeFlag.ofByte metadata' g = NodeFlag.after (NodeFlag.ofByte metadata) (.setFlag f b) g) ∧
      n'.Shows { v with leaf := NodeFlag.ofByte metadata' .leaf } := by
  obtain ⟨m, slack, hd, -⟩ := h.data
  obtain rfl : m = metadata := by
    rw [hd] at hm
    exact Option.some.inj (Option.some.inj hm)
  have hr : n.data.read metadataIndex = .ok m := Block.read_of_getElem? hm
  have hw (x : Byte) : n.data.write metadataIndex x = .ok (layout x v slack) := by
    rw [Block.write_of_lt (by simp [hd, layout, metadataIndex]), hd]; rfl
  have hcall : n.call vals (.setFlag f b) = setFlag f.bit n b := by cases f <;> rfl
  have hshows (x : Byte) : Shows ⟨layout x v slack, n.neighbors⟩ { v with leaf := NodeFlag.ofByte x .leaf } := by
    refine ⟨h.nulFree, h.room, h.neighbors, x, slack, rfl, ?_⟩
    simp [NodeFlag.ofByte, NodeFlag.bit, bitIndexIsLeaf]
  cases b with
  | true =>
    refine ⟨_, m ||| (1 <<< f.bit), ?_, rfl, NodeFlag.ofByte_or m f, hshows _⟩
    rw [hcall, setFlag, if_pos rfl, mapByte, hr, ok_bind, hw, ok_bind, pure_ok]
  | false =>
    refine ⟨_, m &&& (0 <<< f.bit), ?_, rfl, NodeFlag.ofByte_and m f, hshows _⟩
    rw [hcall, setFlag, if_neg Bool.false_ne_true, mapByte, hr, ok_bind, hw, ok_bind, pure_ok]

open NodeOp ChildOp in
/-- What a node shows after a history. -/
theorem calls_eq {ops : List NodeOp} (ht : ∀ t, .setTail t ∈ ops → NulFree t) (hd : Distinct vals (childOps ops))
    (hf : Fits (childOps ops)) :
    ∃ n metadata, calls vals ops = .ok n ∧ n.data[0]? = some (some metadata) ∧
      (∀ f, NodeFlag.ofByte metadata f = ops.foldl NodeFlag.after (fun _ => false) f) ∧
      n.Shows ⟨last tail? [] ops, NodeFlag.ofByte metadata .leaf, last parent? none ops, children (childOps ops)⟩ := by
  induction ops using List.reverseRecOn with
  | nil =>
    obtain ⟨n, hn, hs⟩ := construct_eq
    have hdata : (construct >>= fun n => pure n.data[0]?) = .ok (some (some 0)) := rfl
    rw [hn, ok_bind, pure_ok, Except.ok.injEq] at hdata
    exact ⟨n, 0, by rw [calls, hn]; rfl, hdata, fun f => by cases f <;> rfl, hs⟩
  | append_singleton ops o ih =>
    rw [childOps_concat] at hd hf ⊢
    obtain ⟨n, metadata, e, hm, hflags, hs⟩ := ih (fun t h => ht t (List.mem_append_left _ h)) hd.of_append hf.of_append
    rw [calls_concat, e, ok_bind, List.foldl_append, List.foldl_cons, List.foldl_nil, last_concat, last_concat,
      ← funext hflags]
    cases o with
    | setFlag f b =>
      obtain ⟨n', metadata', e', hm', hflags', hs'⟩ := call_setFlag hs hm f b
      exact ⟨n', metadata', e', hm', hflags', by simpa [tail?, parent?, child?] using hs'⟩
    | setTail t =>
      obtain ⟨n', e', hs'⟩ := hs.setTailNat_eq (ht t (by simp))
      have hm' := (call_metadata vals (.setTail t) (fun _ _ h => nomatch h) hs e').trans hm
      exact ⟨n', metadata, e', hm', fun f => rfl, by simpa [tail?, parent?, child?] using hs'⟩
    | setParent p =>
      obtain ⟨n', e', hs'⟩ := hs.setParent_eq p
      have hm' := (call_metadata vals (.setParent p) (fun _ _ h => nomatch h) hs e').trans hm
      exact ⟨n', metadata, e', hm', fun f => rfl, by simpa [tail?, parent?, child?] using hs'⟩
    | child o =>
      obtain ⟨n', e', hs'⟩ : ∃ n', n.call vals (.child o) = .ok n' ∧
          n'.Shows ⟨last tail? [] ops, NodeFlag.ofByte metadata .leaf, last parent? none ops, after (children (childOps ops)) o⟩ := by
        cases o with
        | setChild c => exact hs.setChild_eq (fun d _ => rfl) hd.ne hf.lt c
        | killChildren => exact hs.killChildren_eq
      have hm' := (call_metadata vals (.child o) (fun _ _ h => nomatch h) hs e').trans hm
      exact ⟨n', metadata, e', hm', fun f => rfl, by simpa [tail?, parent?, child?, children_concat] using hs'⟩

theorem childOps_map_child (ops : List ChildOp) : NodeOp.childOps (ops.map .child) = ops := by
  simp [NodeOp.childOps, List.filterMap_map, Function.comp_def, NodeOp.child?]

/-- A history of children only, that fits. -/
theorem calls_children {ops : List ChildOp} (hd : ChildOp.Distinct vals ops) (hf : ChildOp.Fits ops) :
    ∃ n, calls vals (ops.map .child) = .ok n ∧ ∃ v : NodeView, n.Shows v ∧ v.children = ChildOp.children ops := by
  have hops := childOps_map_child ops
  have ht : ∀ t, NodeOp.setTail t ∈ ops.map .child → NulFree t := by simp
  obtain ⟨n, metadata, e, -, -, hs⟩ := calls_eq ht (by rwa [hops]) (by rwa [hops])
  exact ⟨n, e, _, hs, by rw [hops]⟩

/-- A history that gives a node too many children ends the program. -/
theorem calls_exit {ops : List ChildOp} (hd : ChildOp.Distinct vals ops) (hf : ¬ ChildOp.Fits ops) :
    calls vals (ops.map .child) = .error .exit := by
  induction ops using List.reverseRecOn with
  | nil => exact absurd (by decide) hf
  | append_singleton ops o ih =>
    rw [List.map_append, List.map_singleton, calls_concat]
    by_cases hinit : ChildOp.Fits ops
    · obtain ⟨n, e, v, hs, hv⟩ := calls_children hd.of_append hinit
      rw [ChildOp.fits_concat_iff, ChildOp.children_concat] at hf
      have hlen := hinit ops List.prefix_rfl
      cases o with
      | killChildren => exact absurd ⟨hinit, Nat.zero_le _⟩ hf
      | setChild c =>
        simp only [hinit, true_and, ChildOp.after, List.length_append, List.length_singleton, not_le] at hf
        rw [e, ok_bind]
        rw [← hv] at hlen hf
        exact hs.setChild_exit (fun d _ => rfl) (fun d hm => hd.ne d (hv ▸ hm)) (le_antisymm hlen (Nat.le_of_lt_succ hf)) c
    · rw [ih hd.of_append hinit, error_bind]

/-- **When a node holds every child it is given.** A history of children with different values
does not end the program, and leaves the children set since the last `kill_children`, which are
found by their values, if and only if there were never more than 126 of them. -/
theorem children_iff {ops : List ChildOp} (hd : ChildOp.Distinct vals ops) :
    (∃ n, calls vals (ops.map .child) = .ok n ∧ n.getChildren = .ok (ChildOp.children ops) ∧
      ∀ val, n.getChild (fun c => .ok (vals c)) val = .ok ((ChildOp.children ops).find? fun c => vals c = val) ∧
        n.childExists (fun c => .ok (vals c)) val = .ok (decide (∃ c ∈ ChildOp.children ops, vals c = val))) ↔
      ChildOp.Fits ops := by
  constructor
  · rintro ⟨n, e, -⟩
    by_contra hf
    rw [calls_exit hd hf] at e
    cases e
  · intro hf
    obtain ⟨n, e, v, hs, hv⟩ := calls_children hd hf
    rw [← hv]
    refine ⟨n, e, hs.getChildren_eq, fun val => ?_⟩
    have hget : n.getChild (fun c => .ok (vals c)) val = _ := hs.getChild_eq val fun c _ => rfl
    refine ⟨hget, ?_⟩
    rw [childExists, hget, map_ok, List.isSome_find?, Except.ok.injEq, Bool.eq_iff_iff]
    simp

theorem children_iff_three :
    (∃ n, calls UInt8.ofNat ([.setChild 1, .killChildren, .setChild 2, .setChild 3].map .child) = .ok n ∧
      n.getChildren = .ok (ChildOp.children [.setChild 1, .killChildren, .setChild 2, .setChild 3]) ∧
      ∀ val, n.getChild (fun c => .ok (UInt8.ofNat c)) val =
          .ok ((ChildOp.children [.setChild 1, .killChildren, .setChild 2, .setChild 3]).find? fun c => UInt8.ofNat c = val) ∧
        n.childExists (fun c => .ok (UInt8.ofNat c)) val =
          .ok (decide (∃ c ∈ ChildOp.children [.setChild 1, .killChildren, .setChild 2, .setChild 3], UInt8.ofNat c = val))) ↔
      ChildOp.Fits [.setChild 1, .killChildren, .setChild 2, .setChild 3] :=
  children_iff (by decide)

/-- The 127th child ends the program. -/
theorem not_children_127 : ChildOp.Distinct UInt8.ofNat ((List.range 127).map .setChild) ∧
    calls UInt8.ofNat (((List.range 127).map ChildOp.setChild).map .child) = .error .exit := by
  have hd : ChildOp.Distinct UInt8.ofNat ((List.range 127).map .setChild) := ChildOp.distinct_map_setChild (by decide +kernel)
  refine ⟨hd, calls_exit hd fun hf => ?_⟩
  have := hf _ List.prefix_rfl
  rw [ChildOp.children_map_setChild, List.length_range] at this
  exact absurd this (by decide)

end Node2T

end InfixSearch
