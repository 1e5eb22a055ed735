import InfixSearch.Node.History

/-!
# Room for the tail

`set_tail` keeps the array it has when the size wanted is the one it computes from
`strlen(data)`. That counts from the byte of flags, which a cleared flag makes zero, and is not
the size of the array: `realloc` was given the length of a string that may have a NUL inside.
All the same the array always holds the tail with its NUL, and so whatever `set_tail` is
given, with any calls before it, it writes inside the array (`room_of_calls`), as long as the
size wanted fits in an `int`. A string of `2³²` bytes is copied to an array of three
(`not_room_of_calls`).

The calls are here with all they are given: any string, and for `set_child` any value, where
the children have the values they have by then.
-/

namespace InfixSearch

open Library

/-- A call that changes a node. -/
inductive NodeCall where
  /-- `set_tail`. -/
  | setTail (t : Str)
  /-- `set_is_leaf`, or `set_is_indexed`. -/
  | setFlag (f : NodeFlag) (b : Bool)
  /-- `set_parent`. -/
  | setParent (p : Option Ptr)
  /-- `set_child`, with the values that `get_val` of the neighbors returns. -/
  | setChild (vals : Ptr → Byte) (val : Byte) (c : Ptr)
  /-- `kill_children`. -/
  | killChildren

namespace NodeCall

/-- What a node shows after a call. -/
def after (v : NodeView) : NodeCall → NodeView
  | setTail t => { v with tail := cut t }
  | setFlag .leaf b => { v with leaf := b }
  | setFlag .indexed b => { v with leaf := b && v.leaf }
  | setParent p => { v with parent := p }
  | setChild vals val c => if ∃ d ∈ v.children, vals d = val then v else { v with children := v.children ++ [c] }
  | killChildren => { v with children := [] }

/-- What a node shows after calls from its construction on. -/
def view (ops : List NodeCall) : NodeView := ops.foldl after ⟨[], false, none, []⟩

/-- At no time there are more children than the count can count. -/
def InRange (ops : List NodeCall) : Prop := ∀ us, us <+: ops → (view us).children.length ≤ Node2T.capacity

/-- The sizes that `set_tail` is to make fit in an `int`. -/
def SizesFit (ops : List NodeCall) : Prop := ∀ t, .setTail t ∈ ops → 3 + t.length < 2 ^ 31

instance (ops : List NodeCall) : Decidable (InRange ops) :=
  decidable_of_iff (∀ us ∈ ops.inits, (view us).children.length ≤ Node2T.capacity) (by simp [InRange])

variable {ops : List NodeCall} {o : NodeCall}

theorem view_concat (ops : List NodeCall) (o : NodeCall) : view (ops ++ [o]) = after (view ops) o := by simp [view]

theorem InRange.of_append {ops' : List NodeCall} (h : InRange (ops ++ ops')) : InRange ops :=
  fun us hu => h us (hu.trans (List.prefix_append _ _))

theorem sizesFit_concat : SizesFit (ops ++ [o]) ↔ SizesFit ops ∧ ∀ t, o = .setTail t → 3 + t.length < 2 ^ 31 := by
  simp only [SizesFit, List.mem_append, List.mem_singleton, or_imp, forall_and, eq_comm (b := o)]

end NodeCall

namespace Node2T

open NodeCall

/-- A call. -/
def perform (n : Node2T) : NodeCall → Except Fault Node2T
  | .setTail t => n.setTail t
  | .setFlag .leaf b => n.setIsLeaf b
  | .setFlag .indexed b => n.setIsIndexed b
  | .setParent p => n.setParent p
  | .setChild vals val c => n.setChild (fun c => .ok (vals c)) val c
  | .killChildren => n.killChildren

/-- The constructor, and then the calls. -/
def performs (ops : List NodeCall) : Except Fault Node2T := construct >>= fun n => ops.foldlM perform n

variable {n : Node2T} {v : NodeView} {ops : List NodeCall} {o : NodeCall}

theorem performs_concat (ops : List NodeCall) (o : NodeCall) :
    performs (ops ++ [o]) = performs ops >>= fun n => n.perform o := by
  simp only [performs, List.foldlM_append, List.foldlM_cons, List.foldlM_nil, bind_assoc, bind_pure]

/-! ### Sizes in an `int` -/

theorem toInt_of_lt {size : ℕ} (h : size < 2 ^ 31) : toInt size = size := by
  unfold toInt
  exact Int.bmod_eq_of_le_mul_two (by omega) (by omega)

/-- As long as the sizes fit, they are as if there were no bound. -/
theorem setTail_eq_setTailNat {t : Str} (hdata : n.data.length < 2 ^ 31) (ht : 3 + t.length < 2 ^ 31) :
    n.setTail t = n.setTailNat t := by
  simp only [setTail, setTailNat, setTailWith]
  cases hs : strlen n.data with
  | error e => rw [error_bind, error_bind]
  | ok size =>
    have hlt := strlen_lt hs
    rw [ok_bind, ok_bind, toInt_of_lt (show size + 1 < 2 ^ 31 by omega), toInt_of_lt ht]

theorem length_data_setTailNat {n' : Node2T} {t : Str} (e : n.setTailNat t = .ok n') :
    n'.data.length = n.data.length ∨ n'.data.length = 3 + t.length := by
  simp only [setTailNat, setTailWith, bind_eq_ok] at e
  obtain ⟨size, -, data, hdata, data', hdata', e⟩ := e
  obtain rfl := Except.ok.inj e
  rw [Block.length_of_writeAll hdata']
  split_ifs at hdata
  · rw [reallocData_natCast (by omega)] at hdata
    exact .inr (by rw [← Except.ok.inj hdata, Block.length_realloc])
  · exact .inl (by rw [Except.ok.inj hdata])

/-- No other call makes an array of another size. -/
theorem length_data_perform {n' : Node2T} (e : n.perform o = .ok n') :
    n'.data.length = n.data.length ∨ ∃ t, o = .setTail t := by
  have hflag : ∀ bit b, n.setFlag bit b = .ok n' → n'.data.length = n.data.length := by
    intro bit b e
    rw [setFlag] at e
    split_ifs at e
    all_goals
      simp only [mapByte, bind_eq_ok] at e
      obtain ⟨c, -, data, hdata, e⟩ := e
      obtain rfl := Except.ok.inj e
      exact Block.length_of_write hdata
  cases o with
  | setTail t => exact .inr ⟨t, rfl⟩
  | setFlag f b =>
    cases f with
    | leaf => exact .inl (hflag _ b e)
    | indexed => exact .inl (hflag _ b e)
  | setParent p =>
    simp only [perform, setParent, bind_eq_ok] at e
    obtain ⟨nb, -, e⟩ := e
    obtain rfl := Except.ok.inj e
    exact .inl rfl
  | setChild vals val c =>
    simp only [perform, setChild, bind_eq_ok] at e
    obtain ⟨total, -, slot, -, e⟩ := e
    cases slot with
    | free i =>
      rw [bind_eq_ok] at e
      obtain ⟨nb, -, e⟩ := e
      obtain rfl := Except.ok.inj e
      exact .inl rfl
    | duplicate =>
      obtain rfl := Except.ok.inj e
      exact .inl rfl
    | full =>
      simp only [bind_eq_ok] at e
      obtain ⟨data, hdata, nb, -, nb', -, e⟩ := e
      obtain rfl := Except.ok.inj e
      exact .inl (Block.length_of_write hdata)
  | killChildren =>
    simp only [perform, killChildren, bind_eq_ok] at e
    obtain ⟨data, hdata, nb, -, nb', -, e⟩ := e
    obtain rfl := Except.ok.inj e
    exact .inl (Block.length_of_write hdata)

/-! ### Calls on a node -/

/-- `set_tail` of a string whose size fits. -/
theorem Shows.setTail_cut (h : n.Shows v) (hdata : n.data.length < 2 ^ 31) {t : Str} (ht : 3 + t.length < 2 ^ 31) :
    ∃ n', n.setTail t = .ok n' ∧ n'.Shows { v with tail := cut t } ∧ n'.data.length < 2 ^ 31 := by
  obtain ⟨n', e, hs⟩ := h.setTailNat_cut t
  refine ⟨n', (setTail_eq_setTailNat hdata ht).trans e, hs, ?_⟩
  rcases length_data_setTailNat e with hlen | hlen
  · rwa [hlen]
  · rwa [hlen]

/-- `set_is_indexed(false)` clears the leaf flag as well. -/
theorem Shows.setIsIndexed_false (h : n.Shows v) :
    ∃ n', n.setIsIndexed false = .ok n' ∧ n'.Shows { v with leaf := false } := by
  obtain ⟨metadata, slack, hd, -⟩ := h.data
  have hm : n.data[0]? = some (some metadata) := by rw [hd]; rfl
  obtain ⟨n', metadata', e, -, hflags, hs⟩ := @call_setFlag (fun _ => 0) _ _ _ h hm .indexed false
  refine ⟨n', e, ?_⟩
  rwa [hflags] at hs

/-- One call on a node that shows `v`, with room for the child if it makes one. -/
theorem perform_eq (h : n.Shows v) (hdata : n.data.length < 2 ^ 31) (hroom : (o.after v).children.length ≤ capacity)
    (hfit : ∀ t, o = .setTail t → 3 + t.length < 2 ^ 31) : ∃ n', n.perform o = .ok n' ∧ n'.Shows (o.after v) := by
  match o with
  | .setTail t =>
    obtain ⟨n', e, hs, -⟩ := h.setTail_cut hdata (hfit t rfl)
    exact ⟨n', e, hs⟩
  | .setFlag .leaf b => exact h.setIsLeaf_eq b
  | .setFlag .indexed true => exact h.setIsIndexed_eq
  | .setFlag .indexed false => exact h.setIsIndexed_false
  | .setParent p => exact h.setParent_eq p
  | .setChild vals val c =>
    rw [after] at hroom ⊢
    split_ifs at hroom ⊢ with hval
    · exact ⟨n, h.setChild_duplicate (fun d _ => rfl) hval c, h⟩
    · rw [List.length_append, List.length_singleton] at hroom
      exact h.setChild_eq (fun d _ => rfl) (fun d hd he => hval ⟨d, hd, he⟩) hroom c
  | .killChildren => exact h.killChildren_eq

/-- What a node shows after any calls within the range of the count, with sizes that fit. -/
theorem performs_eq (h : InRange ops) (hfit : SizesFit ops) :
    ∃ n, performs ops = .ok n ∧ n.Shows (view ops) ∧ n.data.length < 2 ^ 31 := by
  induction ops using List.reverseRecOn with
  | nil =>
    obtain ⟨n, hn, hs⟩ := construct_eq
    refine ⟨n, by rw [performs, hn]; rfl, hs, ?_⟩
    obtain rfl := Except.ok.inj hn
    decide
  | append_singleton ops o ih =>
    obtain ⟨hfit, ho⟩ := sizesFit_concat.mp hfit
    obtain ⟨n, e, hs, hdata⟩ := ih h.of_append hfit
    have hroom := h _ List.prefix_rfl
    rw [view_concat] at hroom ⊢
    rw [performs_concat, e, ok_bind]
    obtain ⟨n', e', hs'⟩ := perform_eq hs hdata hroom ho
    refine ⟨n', e', hs', ?_⟩
    rcases length_data_perform e' with hlen | ⟨t, rfl⟩
    · rwa [hlen]
    · obtain ⟨n'', e'', -, hlen⟩ := hs.setTail_cut hdata (ho t rfl)
      obtain rfl := Except.ok.inj (e'.symm.trans e'')
      exact hlen

/-- **When `set_tail` has room.** After any calls within the range of the count, with strings whose
sizes fit in an `int`, the array holds the tail that was set last, as far as its first NUL, with
three bytes more; `strlen` of it ends inside it; and whatever such string is set next, it is
written inside the array, reallocated or not, and read back as far as its first NUL. -/
theorem room_of_calls (h : InRange ops) (hfit : SizesFit ops) :
    ∃ n, performs ops = .ok n ∧ (n.getTail = .ok (view ops).tail ∧ 3 + (view ops).tail.length ≤ n.data.length) ∧
      (∃ k, strlen n.data = .ok k ∧ k < n.data.length) ∧
      ∀ t, 3 + t.length < 2 ^ 31 →
        ∃ n', n.setTail t = .ok n' ∧ n'.getTail = .ok (cut t) ∧ tailIndex + (cut t).length < n'.data.length := by
  obtain ⟨n, e, hs, hdata⟩ := performs_eq h hfit
  refine ⟨n, e, ⟨hs.getTail_eq, hs.length_data⟩, ?_, fun t ht => ?_⟩
  · obtain ⟨k, hk, -⟩ := hs.strlen_data
    exact ⟨k, hk, strlen_lt hk⟩
  · obtain ⟨n', e', hs', -⟩ := hs.setTail_cut hdata ht
    have hlen := hs'.length_data
    exact ⟨n', e', hs'.getTail_eq, Nat.lt_of_lt_of_le (Nat.add_lt_add_right (by decide) _) hlen⟩

/-- With a NUL in a tail the array is longer than its tail needs. -/
theorem room_of_calls_ab :
    ∃ n, performs [.setFlag .leaf true, .setTail [97, 0, 98], .setChild (fun _ => 99) 99 1] = .ok n ∧
      (n.getTail = .ok [97] ∧ 3 + [(97 : Byte)].length ≤ n.data.length) ∧ (∃ k, strlen n.data = .ok k ∧ k < n.data.length) ∧
      ∀ t, 3 + t.length < 2 ^ 31 →
        ∃ n', n.setTail t = .ok n' ∧ n'.getTail = .ok (cut t) ∧ tailIndex + (cut t).length < n'.data.length := by
  have hfit : SizesFit [.setFlag .leaf true, .setTail [97, 0, 98], .setChild (fun _ => 99) 99 1] := by
    intro t ht
    obtain rfl : t = [97, 0, 98] := by simpa using ht
    decide
  exact room_of_calls (by decide) hfit

theorem inRange_setTail (t : Str) : InRange [.setTail t] := by
  intro us hu
  rcases List.prefix_concat_iff.mp (show us <+: [] ++ [.setTail t] from hu) with rfl | hu
  · exact Nat.zero_le _
  · rw [List.prefix_nil.mp hu]
    exact Nat.zero_le _

/-- If the size wanted is 3 in an `int`, a long string is copied past the end of the array of a new node. -/
theorem setTail_overruns {t : Str} (ht : NulFree t) (hlen : 2 ^ 32 ≤ t.length) (hmod : toInt (3 + t.length) = 3) :
    performs [.setTail t] = .error .outOfBounds := by
  have hcopy : strcpy [some 0, some 2, some 0] tailIndex t = .error .outOfBounds := by
    rw [strcpy, cut_of_nulFree ht]
    refine Block.writeAll_error ?_ (by decide)
    rw [List.length_append, List.length_singleton, tailIndex]
    exact Nat.lt_of_lt_of_le (show 3 < 2 + 2 ^ 32 by decide) (Nat.add_le_add_left (Nat.le_succ_of_le hlen) 2)
  have hconstruct : construct = .ok ⟨[some 0, some 2, some 0], [some none, some none]⟩ := rfl
  have hstrlen : strlen [some 0, some 2, some 0] = .ok 0 := rfl
  have hresize : (if toInt (0 + 1) ≠ 3 then reallocData [some 0, some 2, some 0] 3 else pure [some 0, some 2, some 0]) =
      .ok [some 0, some 2, some 0] := by decide
  rw [performs, hconstruct, ok_bind, List.foldlM_cons, perform, setTail, setTailWith]
  simp only [hstrlen, ok_bind, hmod, hresize, hcopy, error_bind]

/-- A string of `2³²` bytes. -/
def longTail : Str := List.replicate (2 ^ 32) 97

/-- Its size, with three bytes more, is 3 in an `int`. -/
theorem not_room_of_calls : InRange [.setTail longTail] ∧ performs [.setTail longTail] = .error .outOfBounds ∧
    ¬ ∃ n, performs [.setTail longTail] = .ok n ∧
      (n.getTail = .ok (view [.setTail longTail]).tail ∧ 3 + (view [.setTail longTail]).tail.length ≤ n.data.length) ∧
      (∃ k, strlen n.data = .ok k ∧ k < n.data.length) ∧
      ∀ t, ∃ n', n.setTail t = .ok n' ∧ n'.getTail = .ok (cut t) ∧ tailIndex + (cut t).length < n'.data.length := by
  have hnul : NulFree longTail := fun h0 => absurd (List.eq_of_mem_replicate h0) (by decide)
  have hlen : longTail.length = 2 ^ 32 := List.length_replicate
  have hmod : toInt (3 + longTail.length) = 3 := by rw [hlen]; decide
  have herror := setTail_overruns hnul hlen.ge hmod
  refine ⟨inRange_setTail longTail, herror, ?_⟩
  rintro ⟨n, e, -⟩
  rw [herror] at e
  cases e

end Node2T

end InfixSearch
