import InfixSearch.Service.Master
import InfixSearch.Library.Tasks

/-!
# One request of a master

`findMatches` of a master (`RemoteInfixSearch_server.cpp`) hands a delegator for each worker to a
thread pool, waits for all of them, and puts their matches together. A delegator goes on call by
call: it opens the connection, sends the key, reads the reply item by item into its matches
(`RemoteInfixSearch_findMatches_presult::read`) and closes the connection. Any of these calls can
throw; the delegator catches that and ends, and keeps what it has read until then.

So the request is answered with the replies of the workers whose calls returned, and nothing else,
unless a call throws after it has read the length of a list that is not empty
(`merged_iff_of_findMatches`).
-/

namespace InfixSearch

open Library StateTransition

/-! ### What a connection delivers -/

/-- `TMessageType`. -/
inductive TMessageType where
  /-- `T_CALL`. -/
  | call
  /-- `T_REPLY`. -/
  | reply
  /-- `T_EXCEPTION`. -/
  | exception
  /-- `T_ONEWAY`. -/
  | oneway
  deriving DecidableEq

/-- `TType`. -/
inductive TType where
  /-- `T_STOP`. -/
  | stop
  /-- `T_LIST`. -/
  | list
  /-- Any other. -/
  | other
  deriving DecidableEq

/-- What a call of the protocol returns. -/
inductive Item where
  /-- Of `readMessageBegin`. -/
  | messageBegin (fname : Str) (mtype : TMessageType)
  /-- Of `readMessageEnd`. -/
  | messageEnd
  /-- Of `readStructBegin`. -/
  | structBegin
  /-- Of `readStructEnd`. -/
  | structEnd
  /-- Of `readFieldBegin`. -/
  | fieldBegin (ftype : TType) (fid : ℤ)
  /-- Of `readFieldEnd`. -/
  | fieldEnd
  /-- Of `readListBegin`. -/
  | listBegin (size : ℕ)
  /-- Of `readListEnd`. -/
  | listEnd
  /-- Of `readString`. -/
  | string (s : Str)
  /-- What `skip` reads. -/
  | value
  deriving DecidableEq

/-- The name of the function in a message. -/
def findMatchesName : Str := ascii "findMatches"

/-- What a connection does during one call of a delegator. -/
structure Wire where
  /-- Whether `open` returns. -/
  opens : Bool
  /-- Whether `send_findMatches` returns. -/
  sends : Bool
  /-- What the calls of the protocol return one after the other. A call throws if there is nothing
  more, or something else than it reads. -/
  incoming : List Item
  /-- Whether `close` returns. -/
  closes : Bool

/-! ### Delegators -/

/-- A call that a delegator makes, or a test after one. -/
inductive ClientCall where
  /-- `transport->open()`. -/
  | openTransport
  /-- `send_findMatches`. -/
  | send
  /-- `readMessageBegin`. -/
  | readMessageBegin
  /-- `skip`. -/
  | skip
  /-- `readMessageEnd`. -/
  | readMessageEnd
  /-- `readStructBegin`. -/
  | readStructBegin
  /-- `readFieldBegin`. -/
  | readFieldBegin
  /-- `readListBegin`. -/
  | readListBegin
  /-- `readString`, into the entry `i`. -/
  | readString (i : ℕ)
  /-- `readListEnd`. -/
  | readListEnd
  /-- `readFieldEnd`. -/
  | readFieldEnd
  /-- `readStructEnd`. -/
  | readStructEnd
  /-- The test of `__isset.success`. -/
  | checkSuccess
  /-- `transport->close()`. -/
  | closeTransport

/-- A delegator at work. -/
structure Delegation extends DelegatorT where
  /-- What its connection does. -/
  wire : Wire
  /-- `__isset.success`. -/
  isset : Bool
  /-- The calls that it makes next. -/
  todo : List ClientCall

namespace Delegation

/-- The calls of `delegator_t::operator()`, as long as nothing is known of the reply. -/
def calls : List ClientCall :=
  [.openTransport, .send, .readMessageBegin, .readStructBegin, .readFieldBegin, .readStructEnd, .readMessageEnd,
    .checkSuccess, .closeTransport]

/-- The delegator for a worker. -/
def create (wire : ℕ → Wire) (key : Str) (container : ThriftContainerT) : Delegation :=
  ⟨⟨key, container, [], .created⟩, wire container.conn, false, calls⟩

/-- The calls `cs` come first. -/
def first (d : Delegation) (cs : List ClientCall) : Delegation := { d with todo := cs ++ d.todo }

/-- A call has returned. -/
def reached (d : Delegation) (p : Progress) : Delegation := { d with progress := p }

/-- A call has thrown: the exception is caught outside of all of them. -/
def throw (d : Delegation) : Delegation := { d with progress := .failed, todo := [] }

/-- The calls that skip the body of a message: once if it is no reply, and once if it is not to
`findMatches`. -/
def skips (fname : Str) (mtype : TMessageType) : List ClientCall :=
  (if mtype = .reply then [] else [.skip, .readMessageEnd]) ++
    if fname = findMatchesName then [] else [.skip, .readMessageEnd]

/-- A call of the protocol gets an item. -/
def receive (d : Delegation) : ClientCall → Item → Delegation
  | .readMessageBegin, .messageBegin fname mtype =>
    -- an exception is read, and thrown
    if mtype = .exception then d.throw else d.first (skips fname mtype)
  | .skip, .value => d
  | .readMessageEnd, .messageEnd => d
  | .readStructBegin, .structBegin => d
  | .readFieldBegin, .fieldBegin ftype fid =>
    if ftype = .stop then d
    else if fid = 0 ∧ ftype = .list then { d with matched := [] }.first [.readListBegin, .readFieldEnd, .readFieldBegin]
    else d.first [.skip, .readFieldEnd, .readFieldBegin]
  | .readListBegin, .listBegin size =>
    { d with matched := List.replicate size [] }.first ((List.range size).map ClientCall.readString ++ [ClientCall.readListEnd])
  | .readString i, .string s => { d with matched := d.matched.set i s }
  | .readListEnd, .listEnd => { d with isset := true }
  | .readFieldEnd, .fieldEnd => d
  | .readStructEnd, .structEnd => d
  | _, _ => d.throw

/-- A call. -/
def perform (d : Delegation) : ClientCall → Delegation
  | .openTransport => if d.wire.opens then d.reached .opened else d.throw
  | .send => if d.wire.sends then d.reached .sent else d.throw
  | .checkSuccess => if d.isset then d.reached .received else d.throw
  | .closeTransport => if d.wire.closes then d.reached .completed else d.throw
  | call =>
    match d.wire.incoming with
    | [] => d.throw
    | item :: rest => { d with wire := { d.wire with incoming := rest } }.receive call item

/-- `delegator_t::operator()`, call by call. -/
def step (d : Delegation) : Option Delegation :=
  match d.todo with
  | [] => none
  | call :: todo => some ({ d with todo := todo }.perform call)

end Delegation

/-! ### The request -/

/-- The loop that puts the matches together. -/
def merge (ret : List Str) (delegators : List Delegation) : List Str := delegators.foldl (fun ret d => ret ++ d.matched) ret

/-- `findMatches` of a master leaves `ret'` in the vector that held `ret`. The pool lets any
delegator go on next, and its destructor waits for all of them. -/
inductive FindMatches (wire : ℕ → Wire) (hostList : List ThriftContainerT) (key : Str) (ret : List Str) : List Str → Prop where
  /-- There is no worker. -/
  | none : hostList = [] → FindMatches wire hostList key ret ret
  /-- There are workers. -/
  | some {is : List ℕ} {delegators : List Delegation} : hostList ≠ [] →
      Run (TaskStep Delegation.step) (hostList.map (Delegation.create wire key)) is delegators →
      (∀ d ∈ delegators, d.step = Option.none) → FindMatches wire hostList key ret (merge [] delegators)

/-! ### Replies -/

/-- A field of a reply. -/
inductive Field where
  /-- The list of the matches. -/
  | success (l : List Str)
  /-- A field that is skipped. -/
  | other (ftype : TType) (fid : ℤ) (h : ftype ≠ .stop ∧ ¬ (fid = 0 ∧ ftype = .list))

namespace Field

/-- The items of a field. -/
def items : Field → List Item
  | success l => .fieldBegin .list 0 :: .listBegin l.length :: (l.map .string ++ [.listEnd, .fieldEnd])
  | other ftype fid _ => [.fieldBegin ftype fid, .value, .fieldEnd]

/-- The matches after the field, if they were `m` before. -/
def read (m : List Str) : Field → List Str
  | success l => l
  | other _ _ _ => m

/-- Whether the matches are in the field. -/
def isSuccess : Field → Bool
  | success _ => true
  | other _ _ _ => false

theorem items_pos (f : Field) : 0 < f.items.length := by
  cases f with
  | success l => exact Nat.succ_pos _
  | other ftype fid h => exact Nat.succ_pos _

/-- A field is read in one way. -/
theorem items_append_inj {f f' : Field} {rest rest' : List Item} (h : f.items ++ rest = f'.items ++ rest') :
    f = f' ∧ rest = rest' := by
  cases f with
  | success l =>
    cases f' with
    | success l' =>
      simp only [items, List.cons_append, List.cons.injEq, Item.listBegin.injEq, true_and, List.append_assoc] at h
      obtain ⟨hlen, h⟩ := h
      obtain ⟨hl, h⟩ := List.append_inj h (by simp [hlen])
      have hinj : Function.Injective Item.string := fun s s' e => Item.string.inj e
      exact ⟨by rw [hinj.list_map hl], (List.cons.inj (List.cons.inj h).2).2⟩
    | other ftype fid h' =>
      cases h
  | other ftype fid h' =>
    cases f' with
    | success l' => cases h
    | other ftype' fid' h'' =>
      cases h
      exact ⟨rfl, rfl⟩

/-- The end of the fields is no field. -/
theorem not_prefix_stop (fid : ℤ) (rest : List Item) (f : Field) : ¬ f.items <+: .fieldBegin .stop fid :: rest := by
  rintro ⟨rest', e⟩
  cases f with
  | success l => cases e
  | other ftype fid' h =>
    cases e
    exact h.1 rfl

/-- Fields are read in one way, up to what is no field. -/
theorem flatMap_items_append_inj {fs fs' : List Field} {rest rest' : List Item} (h : ∀ f : Field, ¬ f.items <+: rest)
    (h' : ∀ f : Field, ¬ f.items <+: rest') (e : fs.flatMap items ++ rest = fs'.flatMap items ++ rest') :
    fs = fs' ∧ rest = rest' := by
  induction fs generalizing fs' with
  | nil =>
    cases fs' with
    | nil => exact ⟨rfl, e⟩
    | cons f fs' =>
      rw [List.flatMap_cons, List.append_assoc] at e
      exact absurd ⟨_, e.symm⟩ (h f)
  | cons f fs ih =>
    rw [List.flatMap_cons, List.append_assoc] at e
    cases fs' with
    | nil => exact absurd ⟨_, e⟩ (h' f)
    | cons f' fs' =>
      rw [List.flatMap_cons, List.append_assoc] at e
      obtain ⟨rfl, e'⟩ := items_append_inj e
      obtain ⟨rfl, rfl⟩ := ih e'
      exact ⟨rfl, rfl⟩

end Field

/-- What comes before the fields of a reply. -/
structure Opening where
  /-- The name of the function. -/
  fname : Str
  /-- The type of the message. -/
  mtype : TMessageType
  /-- It is not an exception. -/
  not_exception : mtype ≠ .exception

/-- The bodies that are skipped before the one that is read. -/
def skipped (fname : Str) (mtype : TMessageType) : List Item :=
  (if mtype = .reply then [] else [.value, .messageEnd]) ++
    if fname = findMatchesName then [] else [.value, .messageEnd]

/-- The items of an opening. -/
def Opening.items (o : Opening) : List Item := .messageBegin o.fname o.mtype :: (skipped o.fname o.mtype ++ [.structBegin])

/-- An opening is read in one way. -/
theorem Opening.items_append_inj {o o' : Opening} {rest rest' : List Item} (h : o.items ++ rest = o'.items ++ rest') :
    rest = rest' := by
  obtain ⟨fname, mtype, _⟩ := o
  obtain ⟨fname', mtype', _⟩ := o'
  obtain ⟨e, h⟩ := List.cons.inj h
  obtain ⟨rfl, rfl⟩ := Item.messageBegin.inj e
  exact List.append_cancel_left h

/-- No call throws, and the reply holds the matches `l`. -/
def Wire.Returns (w : Wire) (l : List Str) : Prop :=
  w.opens ∧ w.sends ∧ w.closes ∧ ∃ (o : Opening) (fields : List Field) (fid : ℤ) (rest : List Item),
    w.incoming = o.items ++ (fields.flatMap Field.items ++ .fieldBegin .stop fid :: .structEnd :: .messageEnd :: rest) ∧
      fields.any Field.isSuccess ∧ fields.foldl Field.read [] = l

/-- What a worker adds to the answer: the matches that it replied, or nothing if a call threw. -/
def Wire.Contributes (w : Wire) (l : List Str) : Prop := w.Returns l ∨ (∀ l', ¬ w.Returns l') ∧ l = []

/-- The replies of the workers whose calls returned, one after the other. -/
def Merged (wire : ℕ → Wire) (hostList : List ThriftContainerT) (ret : List Str) : Prop :=
  ∃ ls, List.Forall₂ (fun c l => (wire c.conn).Contributes l) hostList ls ∧ ret = ls.flatten

/-- How many strings the list has that was begun last: in the next field, or, if it is no list,
the one that was read into `m`. -/
def announced (m : List Str) : List Item → ℕ
  | .fieldBegin .list 0 :: .listBegin size :: _ => size
  | .fieldBegin .list 0 :: _ => 0
  | _ => m.length

/-- A call throws after the list that was begun last has turned out not to be empty. -/
def Wire.Spoils (w : Wire) : Prop :=
  w.opens ∧ w.sends ∧ (∀ l, ¬ w.Returns l) ∧ ∃ (o : Opening) (fields : List Field) (rest : List Item),
    w.incoming = o.items ++ (fields.flatMap Field.items ++ rest) ∧ (∀ f : Field, ¬ f.items <+: rest) ∧
      announced (fields.foldl Field.read []) rest ≠ 0

section Reading

variable {w : Wire} {o : Opening} {fs : List Field} {rest : List Item}

theorem Wire.returns_iff (hopens : w.opens) (hsends : w.sends)
    (hin : w.incoming = o.items ++ (fs.flatMap Field.items ++ rest)) (hne : ∀ f : Field, ¬ f.items <+: rest) (l : List Str) :
    w.Returns l ↔ w.closes ∧ (∃ fid rest', rest = .fieldBegin .stop fid :: .structEnd :: .messageEnd :: rest') ∧
      fs.any Field.isSuccess ∧ fs.foldl Field.read [] = l := by
  constructor
  · rintro ⟨-, -, hcloses, o', fs', fid, rest', hin', hany, hl⟩
    obtain ⟨rfl, rfl⟩ := Field.flatMap_items_append_inj hne (Field.not_prefix_stop fid _)
      (Opening.items_append_inj (hin.symm.trans hin'))
    exact ⟨hcloses, ⟨fid, rest', rfl⟩, hany, hl⟩
  · rintro ⟨hcloses, ⟨fid, rest', rfl⟩, hany, hl⟩
    exact ⟨hopens, hsends, hcloses, o, fs, fid, rest', hin, hany, hl⟩

theorem Wire.Returns.unique {l l' : List Str} (h : w.Returns l) (h' : w.Returns l') : l = l' := by
  obtain ⟨hopens, hsends, -, o, fs, fid, rest, hin, -, rfl⟩ := h
  exact ((Wire.returns_iff hopens hsends hin (Field.not_prefix_stop fid _) l').mp h').2.2.2

theorem Wire.spoils_iff (hopens : w.opens) (hsends : w.sends)
    (hin : w.incoming = o.items ++ (fs.flatMap Field.items ++ rest)) (hne : ∀ f : Field, ¬ f.items <+: rest) :
    w.Spoils ↔ (∀ l, ¬ w.Returns l) ∧ announced (fs.foldl Field.read []) rest ≠ 0 := by
  constructor
  · rintro ⟨-, -, hreturns, o', fs', rest', hin', hne', hl⟩
    obtain ⟨rfl, rfl⟩ := Field.flatMap_items_append_inj hne hne' (Opening.items_append_inj (hin.symm.trans hin'))
    exact ⟨hreturns, hl⟩
  · rintro ⟨hreturns, hl⟩
    exact ⟨hopens, hsends, hreturns, o, fs, rest, hin, hne, hl⟩

/-- No reply at all spoils nothing. -/
theorem Wire.not_spoils_of_opening (h : ∀ o : Opening, ¬ o.items <+: w.incoming) : (∀ l, ¬ w.Returns l) ∧ ¬ w.Spoils :=
  ⟨fun _ ⟨_, _, _, o, _, _, _, hin, _⟩ => h o ⟨_, hin.symm⟩, fun ⟨_, _, _, o, _, _, hin, _⟩ => h o ⟨_, hin.symm⟩⟩

end Reading

/-! ### What a delegator comes to -/

namespace Delegation

variable {d : Delegation} {items rest : List Item} {m : List Str} {b : Bool} {todo : List ClientCall}

/-- A delegator that reads. -/
def reading (d : Delegation) (items : List Item) (m : List Str) (b : Bool) (todo : List ClientCall) : Delegation :=
  { d with wire := { d.wire with incoming := items }, matched := m, isset := b, todo := todo }

/-- It comes to an end of that kind. -/
def Comes (d : Delegation) (P : Delegation → Prop) : Prop := ∃ d' ∈ eval step d, P d'

theorem comes_of_eval {d' : Delegation} {P : Delegation → Prop} (h : eval step d = eval step d') : d.Comes P ↔ d'.Comes P := by
  rw [Comes, Comes, h]

theorem comes_of_step {d' : Delegation} {P : Delegation → Prop} (h : d.step = some d') : d.Comes P ↔ d'.Comes P :=
  comes_of_eval (eval_of_step h)

theorem Comes.imp {P Q : Delegation → Prop} (h : d.Comes P) (himp : ∀ d', P d' → Q d') : d.Comes Q := by
  obtain ⟨d', hd', hP⟩ := h
  exact ⟨d', hd', himp d' hP⟩

/-- A call throws, and the delegator keeps its matches. -/
theorem comes_throw {P : Delegation → Prop} (h : P d.throw) : d.throw.Comes P := ⟨_, mem_eval_self rfl, h⟩

/-- The item that a call reads, if it reads only one kind, and nothing depends on it. -/
def expects : ClientCall → Option Item
  | .skip => some .value
  | .readMessageEnd => some .messageEnd
  | .readStructBegin => some .structBegin
  | .readFieldEnd => some .fieldEnd
  | .readStructEnd => some .structEnd
  | _ => none

theorem step_nil {c : ClientCall} {x : Item} (h : expects c = some x) :
    (d.reading [] m b (c :: todo)).step = some (d.reading [] m b todo).throw := by
  cases c <;> first | rfl | cases h

theorem step_cons {c : ClientCall} {x : Item} (h : expects c = some x) (y : Item) :
    (d.reading (y :: items) m b (c :: todo)).step =
      some (if y = x then d.reading items m b todo else (d.reading items m b todo).throw) := by
  cases c <;> simp only [expects, Option.some.injEq, reduceCtorEq] at h <;> subst h <;> cases y <;> rfl

/-- Calls that each read one kind of item: they all return, or one of them throws. -/
theorem expected (todo : List ClientCall) (cs : List ClientCall) (xs : List Item) (h : cs.map expects = xs.map some) (items : List Item) :
    (∃ rest, items = xs ++ rest ∧ eval step (d.reading items m b (cs ++ todo)) = eval step (d.reading rest m b todo)) ∨
      ¬ xs <+: items ∧ (d.reading items m b (cs ++ todo)).Comes fun d' => d'.matched = m ∧ d'.progress = .failed := by
  induction cs generalizing xs items with
  | nil =>
    obtain rfl := List.map_eq_nil_iff.mp h.symm
    exact .inl ⟨items, rfl, rfl⟩
  | cons c cs ih =>
    obtain ⟨x, xs, rfl, hx, h'⟩ := List.map_eq_cons_iff.mp h.symm
    cases items with
    | nil => exact .inr ⟨fun h => (nomatch List.prefix_nil.mp h), (comes_of_step (step_nil hx.symm)).mpr (comes_throw ⟨rfl, rfl⟩)⟩
    | cons y items =>
      have hstep : (d.reading (y :: items) m b (c :: cs ++ todo)).step = _ := step_cons hx.symm y
      by_cases hy : y = x
      · subst hy
        rw [if_pos rfl] at hstep
        rcases ih xs h'.symm items with ⟨rest, rfl, e⟩ | ⟨hne, hc⟩
        · exact .inl ⟨rest, rfl, (eval_of_step hstep).trans e⟩
        · exact .inr ⟨fun hp => hne (List.cons_prefix_cons.mp hp).2, (comes_of_step hstep).mpr hc⟩
      · rw [if_neg hy] at hstep
        exact .inr ⟨fun hp => hy (List.cons_prefix_cons.mp hp).1.symm, (comes_of_step hstep).mpr (comes_throw ⟨rfl, rfl⟩)⟩

/-- The strings of a list, `done` of which have been read, and `k` have not. -/
theorem strings (todo : List ClientCall) (k : ℕ) (done : List Str) (items : List Item) :
    (∃ l rest, l.length = k ∧ items = l.map .string ++ rest ∧
      eval step (d.reading items (done ++ List.replicate k []) b ((List.range' done.length k).map ClientCall.readString ++ todo)) =
        eval step (d.reading rest (done ++ l) b todo)) ∨
      (∀ l : List Str, l.length = k → ¬ l.map Item.string <+: items) ∧
        (d.reading items (done ++ List.replicate k []) b ((List.range' done.length k).map ClientCall.readString ++ todo)).Comes
          fun d' => d'.matched.length = done.length + k ∧ d'.progress = .failed := by
  induction k generalizing done items with
  | zero => exact .inl ⟨[], items, rfl, rfl, rfl⟩
  | succ k ih =>
    have hset (s : Str) : (done ++ List.replicate (k + 1) []).set done.length s = (done ++ [s]) ++ List.replicate k [] := by
      rw [List.set_append_right _ _ le_rfl, Nat.sub_self, List.replicate_succ, List.set_cons_zero, List.append_assoc]
      rfl
    by_cases hy : ∃ s rest, items = .string s :: rest
    · obtain ⟨s, items, rfl⟩ := hy
      have hstep : (d.reading (.string s :: items) (done ++ List.replicate (k + 1) []) b
          ((List.range' done.length (k + 1)).map ClientCall.readString ++ todo)).step =
            some (d.reading items ((done ++ [s]) ++ List.replicate k []) b
              ((List.range' (done ++ [s]).length k).map ClientCall.readString ++ todo)) := by
        rw [← hset, List.length_append, List.length_singleton, List.range'_succ]
        rfl
      rw [eval_of_step hstep, comes_of_step hstep]
      rcases ih (done ++ [s]) items with ⟨l, rest, rfl, rfl, e⟩ | ⟨hne, d', hd', hl, hp⟩
      · exact .inl ⟨s :: l, rest, rfl, rfl, by rw [e, List.append_assoc]; rfl⟩
      · refine .inr ⟨fun l hk hs => ?_, d', hd', ?_, hp⟩
        · cases l with
          | nil => cases hk
          | cons s' l => exact hne l (Nat.succ.inj hk) (List.cons_prefix_cons.mp hs).2
        · rw [hl, List.length_append, List.length_singleton, Nat.add_assoc, Nat.add_comm 1]
    · have hstep : (d.reading items (done ++ List.replicate (k + 1) []) b
          ((List.range' done.length (k + 1)).map ClientCall.readString ++ todo)).step =
            some (d.reading items.tail (done ++ List.replicate (k + 1) []) b
              ((List.range' (done.length + 1) k).map ClientCall.readString ++ todo)).throw := by
        rw [List.range'_succ]
        cases items with
        | nil => rfl
        | cons y items =>
          cases y with
          | string s => exact absurd ⟨s, items, rfl⟩ hy
          | _ => rfl
      have hlen : (done ++ List.replicate (k + 1) ([] : Str)).length = done.length + (k + 1) := by simp
      refine .inr ⟨fun l hk hs => ?_, (comes_of_step hstep).mpr (comes_throw ⟨hlen, rfl⟩)⟩
      cases l with
      | nil => cases hk
      | cons s l =>
        obtain ⟨rest, rfl⟩ := hs
        exact hy ⟨s, _, rfl⟩

/-- A list. -/
theorem list (size : ℕ) (items : List Item) :
    (∃ l rest, l.length = size ∧ items = l.map .string ++ .listEnd :: rest ∧
      eval step (d.reading (.listBegin size :: items) m b (.readListBegin :: todo)) = eval step (d.reading rest l true todo)) ∨
      (∀ l : List Str, l.length = size → ¬ l.map Item.string ++ [.listEnd] <+: items) ∧
        (d.reading (.listBegin size :: items) m b (.readListBegin :: todo)).Comes
          fun d' => d'.matched.length = size ∧ d'.progress = .failed := by
  have hstep : (d.reading (.listBegin size :: items) m b (.readListBegin :: todo)).step =
      some (d.reading items ([] ++ List.replicate size []) b
        ((List.range' 0 size).map ClientCall.readString ++ .readListEnd :: todo)) := by
    rw [← List.range_eq_range', List.append_cons]
    rfl
  have hstrings := strings (d := d) (b := b) (.readListEnd :: todo) size [] items
  rw [List.length_nil, Nat.zero_add] at hstrings
  rw [eval_of_step hstep, comes_of_step hstep]
  rcases hstrings with ⟨l, rest, hl, rfl, e⟩ | ⟨hne, hc⟩
  · by_cases hend : ∃ rest', rest = .listEnd :: rest'
    · obtain ⟨rest, rfl⟩ := hend
      exact .inl ⟨l, rest, hl, rfl, e.trans (eval_of_step rfl)⟩
    · have hthrow : (d.reading rest ([] ++ l) b (.readListEnd :: todo)).step =
          some (d.reading rest.tail ([] ++ l) b todo).throw := by
        cases rest with
        | nil => rfl
        | cons y rest =>
          cases y with
          | listEnd => exact absurd ⟨rest, rfl⟩ hend
          | _ => rfl
      rw [Comes, e]
      refine .inr ⟨fun l' hl' hp => ?_, (comes_of_step hthrow).mpr (comes_throw ⟨hl, rfl⟩)⟩
      obtain ⟨rest', e'⟩ := hp
      rw [List.append_assoc] at e'
      exact hend ⟨rest', (List.append_inj_right e' (by simp [hl, hl'])).symm⟩
  · exact .inr ⟨fun l hl hp => hne l hl ((List.prefix_append _ _).trans hp), hc⟩

/-- The field with the list of the matches, after its beginning. -/
theorem field_success (items : List Item) :
    (∃ (l : List Str) (rest : List Item), .fieldBegin .list 0 :: items = (Field.success l).items ++ rest ∧
      eval step (d.reading items [] b (.readListBegin :: .readFieldEnd :: todo)) = eval step (d.reading rest l true todo)) ∨
      (∀ l : List Str, ¬ (Field.success l).items <+: .fieldBegin .list 0 :: items) ∧
        (d.reading items [] b (.readListBegin :: .readFieldEnd :: todo)).Comes
          fun d' => d'.matched.length = announced m (.fieldBegin .list 0 :: items) ∧ d'.progress = .failed := by
  by_cases hsize : ∃ size rest, items = .listBegin size :: rest
  · obtain ⟨size, items, rfl⟩ := hsize
    rcases list size items with ⟨l, rest, rfl, rfl, e⟩ | ⟨hne, hc⟩
    · rw [Comes, e]
      rcases expected todo [.readFieldEnd] [.fieldEnd] rfl rest with ⟨rest, rfl, e'⟩ | ⟨hne, d', hd', hm, hp⟩
      · exact .inl ⟨l, rest, by simp [Field.items], e'⟩
      · refine .inr ⟨fun l' hp' => ?_, d', hd', by rw [hm]; rfl, hp⟩
        obtain ⟨rest', e'⟩ := hp'
        simp only [Field.items, List.cons_append, List.cons.injEq, Item.listBegin.injEq, true_and, List.append_assoc] at e'
        have hrest := List.append_inj_right e'.2 (by simp [e'.1])
        exact hne ⟨rest', (List.cons.inj hrest).2⟩
    · refine .inr ⟨fun l hp => ?_, hc⟩
      obtain ⟨rest', e'⟩ := hp
      simp only [Field.items, List.cons_append, List.cons.injEq, Item.listBegin.injEq, true_and, List.append_assoc] at e'
      exact hne l e'.1 ⟨.fieldEnd :: rest', by rw [← e'.2, List.append_assoc]; rfl⟩
  · have hthrow : (d.reading items [] b (.readListBegin :: .readFieldEnd :: todo)).step =
        some (d.reading items.tail [] b (.readFieldEnd :: todo)).throw ∧ announced m (.fieldBegin .list 0 :: items) = 0 := by
      cases items with
      | nil => exact ⟨rfl, rfl⟩
      | cons y rest =>
        cases y with
        | listBegin size => exact absurd ⟨size, rest, rfl⟩ hsize
        | _ => exact ⟨rfl, rfl⟩
    refine .inr ⟨fun l hp => ?_, (comes_of_step hthrow.1).mpr (comes_throw ⟨hthrow.2.symm, rfl⟩)⟩
    obtain ⟨rest', e'⟩ := hp
    exact hsize ⟨_, _, (List.cons.inj e').2.symm⟩

/-- What comes next is a field, or the end of the fields, or a call throws. -/
theorem field (todo : List ClientCall) (items : List Item) :
    (∃ (f : Field) (rest : List Item), items = f.items ++ rest ∧ eval step (d.reading items m b (.readFieldBegin :: todo)) =
      eval step (d.reading rest (f.read m) (b || f.isSuccess) (.readFieldBegin :: todo))) ∨
    (∃ fid rest, items = .fieldBegin .stop fid :: rest ∧
      eval step (d.reading items m b (.readFieldBegin :: todo)) = eval step (d.reading rest m b todo)) ∨
    (∀ f : Field, ¬ f.items <+: items) ∧ (∀ fid rest, items ≠ .fieldBegin .stop fid :: rest) ∧
      (d.reading items m b (.readFieldBegin :: todo)).Comes
        fun d' => d'.matched.length = announced m items ∧ d'.progress = .failed := by
  by_cases hf : ∃ ftype fid rest, items = .fieldBegin ftype fid :: rest
  · obtain ⟨ftype, fid, items, rfl⟩ := hf
    by_cases hstop : ftype = .stop
    · subst hstop
      exact .inr (.inl ⟨fid, items, rfl, eval_of_step rfl⟩)
    by_cases hlist : fid = 0 ∧ ftype = .list
    · obtain ⟨rfl, rfl⟩ := hlist
      have hstep : (d.reading (.fieldBegin .list 0 :: items) m b (.readFieldBegin :: todo)).step =
          some (d.reading items [] b (.readListBegin :: .readFieldEnd :: .readFieldBegin :: todo)) := rfl
      rw [eval_of_step hstep, comes_of_step hstep]
      rcases field_success items with ⟨l, rest, e, e'⟩ | ⟨hne, hc⟩
      · exact .inl ⟨.success l, rest, e, by rw [e', Field.isSuccess, Bool.or_true]; rfl⟩
      · refine .inr (.inr ⟨fun f hp => ?_, fun _ _ => by simp, hc⟩)
        cases f with
        | success l => exact hne l hp
        | other ftype fid h =>
          obtain ⟨rest, e⟩ := hp
          cases e
          exact h.2 ⟨rfl, rfl⟩
    · have hstep : (d.reading (.fieldBegin ftype fid :: items) m b (.readFieldBegin :: todo)).step =
          some (d.reading items m b (.skip :: .readFieldEnd :: .readFieldBegin :: todo)) := by
        simp only [reading, step, perform, receive, if_neg hstop, if_neg hlist]
        rfl
      have hm : announced m (.fieldBegin ftype fid :: items) = m.length := by
        rw [announced]
        · rintro size rest h
          exact hlist (by grind)
        · rintro rest h
          exact hlist (by grind)
      rw [eval_of_step hstep, comes_of_step hstep]
      rcases expected (.readFieldBegin :: todo) [.skip, .readFieldEnd] [.value, .fieldEnd] rfl items with ⟨rest, rfl, e⟩ | ⟨hne, d', hd', hm', hp⟩
      · exact .inl ⟨.other ftype fid ⟨hstop, hlist⟩, rest, rfl, by rw [Field.read, Field.isSuccess, Bool.or_false]; exact e⟩
      · refine .inr (.inr ⟨fun f hf => ?_, fun fid rest e => hstop (by cases e; rfl), d', hd', by rw [hm', hm], hp⟩)
        obtain ⟨rest, e⟩ := hf
        cases f with
        | success l =>
          cases e
          exact hlist ⟨rfl, rfl⟩
        | other ftype' fid' h =>
          cases e
          exact hne ⟨rest, rfl⟩
  · have hthrow : (d.reading items m b (.readFieldBegin :: todo)).step = some (d.reading items.tail m b todo).throw ∧
        announced m items = m.length := by
      cases items with
      | nil => exact ⟨rfl, rfl⟩
      | cons y rest =>
        cases y with
        | fieldBegin ftype fid => exact absurd ⟨ftype, fid, rest, rfl⟩ hf
        | _ => exact ⟨rfl, rfl⟩
    refine .inr (.inr ⟨fun f hp => ?_, fun fid rest e => hf ⟨_, _, _, e⟩,
      (comes_of_step hthrow.1).mpr (comes_throw ⟨hthrow.2.symm, rfl⟩)⟩)
    obtain ⟨rest, rfl⟩ := hp
    cases f with
    | success l => exact hf ⟨_, _, _, rfl⟩
    | other ftype fid h => exact hf ⟨_, _, _, rfl⟩

theorem skips_expects (fname : Str) (mtype : TMessageType) :
    (skips fname mtype ++ [ClientCall.readStructBegin]).map expects = (skipped fname mtype ++ [Item.structBegin]).map some := by
  rw [skips, skipped]
  split_ifs <;> rfl

/-- What comes next is an opening, or a call throws before anything is read into the matches. -/
theorem opening (todo : List ClientCall) (items : List Item) :
    (∃ (o : Opening) (rest : List Item), items = o.items ++ rest ∧
      eval step (d.reading items m b (.readMessageBegin :: .readStructBegin :: todo)) = eval step (d.reading rest m b todo)) ∨
      (∀ o : Opening, ¬ o.items <+: items) ∧ (d.reading items m b (.readMessageBegin :: .readStructBegin :: todo)).Comes
        fun d' => d'.matched = m ∧ d'.progress = .failed := by
  by_cases hf : ∃ fname mtype rest, items = .messageBegin fname mtype :: rest
  · obtain ⟨fname, mtype, items, rfl⟩ := hf
    by_cases hex : mtype = .exception
    · subst hex
      refine .inr ⟨fun o hp => ?_, (comes_of_step rfl).mpr (comes_throw ⟨rfl, rfl⟩)⟩
      obtain ⟨rest, e⟩ := hp
      exact o.not_exception (Item.messageBegin.inj (List.cons.inj e).1).2
    · have hstep : (d.reading (.messageBegin fname mtype :: items) m b (.readMessageBegin :: .readStructBegin :: todo)).step =
          some (d.reading items m b ((skips fname mtype ++ [.readStructBegin]) ++ todo)) := by
        simp only [reading, step, perform, receive, if_neg hex, first, List.append_assoc]
        rfl
      rw [eval_of_step hstep, comes_of_step hstep]
      rcases expected todo _ _ (skips_expects fname mtype) items with ⟨rest, rfl, e⟩ | ⟨hne, hc⟩
      · exact .inl ⟨⟨fname, mtype, hex⟩, rest, rfl, e⟩
      · refine .inr ⟨fun o hp => ?_, hc⟩
        obtain ⟨rest, e⟩ := hp
        obtain ⟨e, e'⟩ := List.cons.inj e
        cases e
        exact hne ⟨rest, e'⟩
  · have hthrow : (d.reading items m b (.readMessageBegin :: .readStructBegin :: todo)).step =
        some (d.reading items.tail m b (.readStructBegin :: todo)).throw := by
      cases items with
      | nil => rfl
      | cons y rest =>
        cases y with
        | messageBegin fname mtype => exact absurd ⟨fname, mtype, rest, rfl⟩ hf
        | _ => rfl
    refine .inr ⟨fun o hp => ?_, (comes_of_step hthrow).mpr (comes_throw ⟨rfl, rfl⟩)⟩
    obtain ⟨rest, rfl⟩ := hp
    exact hf ⟨_, _, _, rfl⟩

/-- All fields that come next: after them is the end of the fields, or a call throws. -/
theorem fields (todo : List ClientCall) (items : List Item) : ∃ (fs : List Field) (rest : List Item), items = fs.flatMap Field.items ++ rest ∧
    (∀ f : Field, ¬ f.items <+: rest) ∧
      ((∃ fid rest', rest = .fieldBegin .stop fid :: rest' ∧ eval step (d.reading items m b (.readFieldBegin :: todo)) =
        eval step (d.reading rest' (fs.foldl Field.read m) (b || fs.any Field.isSuccess) todo)) ∨
      (∀ fid rest', rest ≠ .fieldBegin .stop fid :: rest') ∧ (d.reading items m b (.readFieldBegin :: todo)).Comes
        fun d' => d'.matched.length = announced (fs.foldl Field.read m) rest ∧ d'.progress = .failed) := by
  induction hn : items.length using Nat.strong_induction_on generalizing items m b with
  | _ n ih =>
    rcases field (d := d) (m := m) (b := b) todo items with
      ⟨f, rest, rfl, e⟩ | ⟨fid, rest, rfl, e⟩ | ⟨hne, hstop, hc⟩
    · have hlt : rest.length < n := by
        rw [← hn, List.length_append]
        have := f.items_pos
        omega
      obtain ⟨fs, rest', rfl, hne, h⟩ := @ih _ hlt (f.read m) (b || f.isSuccess) rest rfl
      refine ⟨f :: fs, rest', by rw [List.flatMap_cons, List.append_assoc], hne, ?_⟩
      rwa [e, Comes, e, List.foldl_cons, List.any_cons, ← Bool.or_assoc]
    · exact ⟨[], _, rfl, Field.not_prefix_stop fid rest, .inl ⟨fid, rest, rfl, by rw [e, List.any_nil, Bool.or_false]; rfl⟩⟩
    · exact ⟨[], items, rfl, hne, .inr ⟨hstop, hc⟩⟩

/-- The calls after the fields. -/
theorem finish (items : List Item) :
    (d.reading items m b [.readStructEnd, .readMessageEnd, .checkSuccess, .closeTransport]).Comes fun d' => d'.matched = m ∧
      ((d.wire.closes ∧ (∃ rest, items = .structEnd :: .messageEnd :: rest) ∧ b) ∧ d'.progress = .completed ∨
        ¬ (d.wire.closes ∧ (∃ rest, items = .structEnd :: .messageEnd :: rest) ∧ b) ∧ d'.progress = .failed) := by
  rcases expected (d := d) (m := m) (b := b) [.checkSuccess, .closeTransport] [.readStructEnd, .readMessageEnd]
    [.structEnd, .messageEnd] rfl items with ⟨rest, rfl, e⟩ | ⟨hne, d', hd', hm, hp⟩
  · refine (comes_of_eval e).mpr ?_
    cases b with
    | false => exact (comes_of_step rfl).mpr (comes_throw ⟨rfl, .inr ⟨fun h => (nomatch h.2.2), rfl⟩⟩)
    | true =>
      refine (comes_of_step rfl).mpr ?_
      have hstep : ((d.reading rest m true [.closeTransport]).reached .received).step =
          some (if d.wire.closes then (d.reading rest m true []).reached .completed else (d.reading rest m true []).throw) := by
        rw [step]
        rfl
      refine (comes_of_step hstep).mpr ?_
      by_cases hc : d.wire.closes
      · rw [if_pos hc]
        exact ⟨_, mem_eval_self rfl, rfl, .inl ⟨⟨hc, ⟨rest, rfl⟩, rfl⟩, rfl⟩⟩
      · rw [if_neg hc]
        exact comes_throw ⟨rfl, .inr ⟨fun h => hc h.1, rfl⟩⟩
  · exact ⟨d', hd', hm, .inr ⟨fun ⟨_, ⟨rest, h⟩, _⟩ => hne ⟨rest, h.symm⟩, hp⟩⟩

/-- What a delegator comes to: it has received the matches that the worker replied, or a call threw, and
it has matches if and only if it spoils the answer. -/
def Concludes (w : Wire) (d' : Delegation) : Prop :=
  d'.progress = .completed ∧ w.Returns d'.matched ∨
    d'.progress = .failed ∧ (∀ l, ¬ w.Returns l) ∧ (d'.matched = [] ↔ ¬ w.Spoils)

/-- A call throws, and the length of the matches is that of the list that was begun last. -/
theorem concludes_of_announced {w : Wire} {o : Opening} {fs : List Field} {rest : List Item} {d' : Delegation}
    (hopens : w.opens) (hsends : w.sends) (hin : w.incoming = o.items ++ (fs.flatMap Field.items ++ rest))
    (hne : ∀ f : Field, ¬ f.items <+: rest) (hreturns : ∀ l, ¬ w.Returns l) (hp : d'.progress = .failed)
    (hlen : d'.matched.length = announced (fs.foldl Field.read []) rest) : Concludes w d' := by
  refine .inr ⟨hp, hreturns, ?_⟩
  rw [Wire.spoils_iff hopens hsends hin hne, ← hlen, ne_eq, List.length_eq_zero_iff, not_and_not_right]
  exact ⟨fun h _ => h, fun h => h hreturns⟩

/-- A delegator that has opened its connection and sent its key. -/
theorem comes_reading {w : Wire} (hd : d.wire = w) (hopens : w.opens) (hsends : w.sends) :
    (d.reading w.incoming [] false [.readMessageBegin, .readStructBegin, .readFieldBegin, .readStructEnd, .readMessageEnd,
      .checkSuccess, .closeTransport]).Comes (Concludes w) := by
  rcases opening (d := d) (m := []) (b := false) [.readFieldBegin, .readStructEnd, .readMessageEnd,
    .checkSuccess, .closeTransport] w.incoming with ⟨o, items, hin, e⟩ | ⟨hne, hc⟩
  · refine (comes_of_eval e).mpr ?_
    obtain ⟨fs, rest, rfl, hne, ⟨fid, rest, rfl, e⟩ | ⟨hstop, hc⟩⟩ := fields (d := d) (m := []) (b := false)
      [.readStructEnd, .readMessageEnd, .checkSuccess, .closeTransport] items
    · have hiff := Wire.returns_iff hopens hsends hin hne
      refine ((comes_of_eval e).mpr (finish rest)).imp fun d' ⟨hm, h⟩ => ?_
      rw [hd, Bool.false_or] at h
      rcases h with ⟨⟨hcloses, ⟨rest, rfl⟩, hany⟩, hp⟩ | ⟨hnot, hp⟩
      · exact .inl ⟨hp, (hiff _).mpr ⟨hcloses, ⟨fid, rest, rfl⟩, hany, hm.symm⟩⟩
      · refine concludes_of_announced hopens hsends hin hne (fun l hl => hnot ?_) hp (by rw [hm]; rfl)
        obtain ⟨hcloses, ⟨fid', rest', e⟩, hany, -⟩ := (hiff l).mp hl
        exact ⟨hcloses, ⟨rest', (List.cons.inj e).2⟩, hany⟩
    · refine hc.imp fun d' ⟨hlen, hp⟩ => concludes_of_announced hopens hsends hin hne (fun l hl => ?_) hp hlen
      obtain ⟨-, ⟨fid, rest', e⟩, -⟩ := (Wire.returns_iff hopens hsends hin hne l).mp hl
      exact hstop fid _ e
  · obtain ⟨hreturns, hspoils⟩ := Wire.not_spoils_of_opening hne
    exact hc.imp fun d' ⟨hm, hp⟩ => .inr ⟨hp, hreturns, iff_of_true hm hspoils⟩

/-- Every delegator comes to one of these ends. -/
theorem comes_create (wire : ℕ → Wire) (key : Str) (c : ThriftContainerT) :
    (create wire key c).Comes (Concludes (wire c.conn)) := by
  have hopen : (create wire key c).step = some (if (wire c.conn).opens then
      { create wire key c with todo := calls.tail }.reached .opened else { create wire key c with todo := calls.tail }.throw) :=
    rfl
  refine (comes_of_step hopen).mpr ?_
  by_cases hopens : (wire c.conn).opens
  · rw [if_pos hopens]
    have hsend : ({ create wire key c with todo := calls.tail }.reached .opened).step = some (if (wire c.conn).sends then
        { create wire key c with todo := calls.tail.tail }.reached .sent else
          ({ create wire key c with todo := calls.tail.tail }.reached .opened).throw) := rfl
    refine (comes_of_step hsend).mpr ?_
    by_cases hsends : (wire c.conn).sends
    · rw [if_pos hsends]
      exact comes_reading (d := { create wire key c with todo := calls.tail.tail }.reached .sent) rfl hopens hsends
    · rw [if_neg hsends]
      exact comes_throw (.inr ⟨rfl, fun l h => hsends h.2.1, iff_of_true rfl fun h => hsends h.2.1⟩)
  · rw [if_neg hopens]
    exact comes_throw (.inr ⟨rfl, fun l h => hopens h.1, iff_of_true rfl fun h => hopens h.1⟩)

end Delegation

/-! ### The answer -/

theorem merge_eq (ret : List Str) (delegators : List Delegation) : merge ret delegators = ret ++ delegators.flatMap (·.matched) := by
  induction delegators generalizing ret with
  | nil => simp [merge]
  | cons d delegators ih => rw [merge, List.foldl_cons, ← merge, ih, List.flatMap_cons, List.append_assoc]

/-- In whatever order the delegators go on, each comes to its own end. -/
theorem concludes_of_run {wire : ℕ → Wire} {hostList : List ThriftContainerT} {key : Str} {is : List ℕ}
    {delegators : List Delegation} (h : Run (TaskStep Delegation.step) (hostList.map (Delegation.create wire key)) is delegators)
    (hend : ∀ d ∈ delegators, d.step = none) :
    List.Forall₂ (fun (c : ThriftContainerT) d => Delegation.Concludes (wire c.conn) d) hostList delegators := by
  have hends := forall₂_eval_of_run h hend
  rw [List.forall₂_map_left_iff] at hends
  refine hends.imp fun c d hd => ?_
  obtain ⟨d', hd', hc⟩ := Delegation.comes_create wire key c
  exact Part.mem_unique hd' hd ▸ hc

/-- What the delegators hold is at least what their workers add to the answer, and it is more if one of them spoils it. -/
theorem length_of_contributes {wire : ℕ → Wire} {hostList : List ThriftContainerT} {delegators : List Delegation} {ls : List (List Str)}
    (h : List.Forall₂ (fun (c : ThriftContainerT) d => Delegation.Concludes (wire c.conn) d) hostList delegators)
    (hls : List.Forall₂ (fun (c : ThriftContainerT) l => (wire c.conn).Contributes l) hostList ls) :
    ls.flatten.length ≤ (delegators.flatMap (·.matched)).length ∧
      (ls.flatten.length = (delegators.flatMap (·.matched)).length → ∀ c ∈ hostList, ¬ (wire c.conn).Spoils) := by
  induction h generalizing ls with
  | nil =>
    cases hls
    exact ⟨le_rfl, fun _ _ hc => absurd hc List.not_mem_nil⟩
  | @cons c d hostList delegators hd _ ih =>
    cases hls with
    | @cons _ l _ ls hl hls =>
      obtain ⟨hle, hspoils⟩ := ih hls
      have hone : l.length ≤ d.matched.length ∧ (l.length = d.matched.length → ¬ (wire c.conn).Spoils) := by
        rcases hd with ⟨-, hd⟩ | ⟨-, hnot, hm⟩
        · rcases hl with hl | ⟨hnot, -⟩
          · exact ⟨by rw [hl.unique hd], fun _ h => h.2.2.1 l hl⟩
          · exact absurd hd (hnot _)
        · rcases hl with hl | ⟨-, rfl⟩
          · exact absurd hl (hnot _)
          · exact ⟨Nat.zero_le _, fun e => hm.mp (List.length_eq_zero_iff.mp e.symm)⟩
      rw [List.flatten_cons, List.flatMap_cons, List.length_append, List.length_append]
      refine ⟨by omega, fun e x hx => ?_⟩
      rcases List.mem_cons.mp hx with rfl | hx
      · exact hone.2 (by omega)
      · exact hspoils (by omega) x hx

theorem merged_iff {wire : ℕ → Wire} {hostList : List ThriftContainerT} {delegators : List Delegation}
    (h : List.Forall₂ (fun (c : ThriftContainerT) d => Delegation.Concludes (wire c.conn) d) hostList delegators) :
    Merged wire hostList (delegators.flatMap (·.matched)) ↔ ∀ c ∈ hostList, ¬ (wire c.conn).Spoils := by
  constructor
  · rintro ⟨ls, hls, e⟩
    exact (length_of_contributes h hls).2 (by rw [e])
  · intro hspoils
    refine ⟨delegators.map (·.matched), List.forall₂_map_right_iff.mpr ?_, List.flatMap_def⟩
    rw [List.forall₂_iff_get] at h ⊢
    obtain ⟨hlen, h⟩ := h
    refine ⟨hlen, fun i hi hi' => ?_⟩
    rcases h i hi hi' with ⟨-, hd⟩ | ⟨-, hnot, hm⟩
    · exact .inl hd
    · exact .inr ⟨hnot, hm.mpr (hspoils _ (List.get_mem _ _))⟩

/-- The delegators come to their ends, and then the request is answered. -/
theorem exists_findMatches (wire : ℕ → Wire) (hostList : List ThriftContainerT) (key : Str) (ret : List Str) :
    ∃ ret', FindMatches wire hostList key ret ret' := by
  rcases eq_or_ne hostList [] with rfl | hne
  · exact ⟨ret, .none rfl⟩
  · choose f hf _ using Delegation.comes_create wire key
    have hends : List.Forall₂ (fun d d' => d' ∈ eval Delegation.step d) (hostList.map (Delegation.create wire key))
        (hostList.map f) := by
      rw [List.forall₂_map_left_iff, List.forall₂_map_right_iff]
      exact List.forall₂_same.mpr fun c _ => hf c
    obtain ⟨is, hrun⟩ := exists_run_of_eval hends
    refine ⟨_, .some hne hrun fun d hd => ?_⟩
    obtain ⟨c, -, rfl⟩ := List.mem_map.mp hd
    exact (mem_eval.mp (hf c)).2

/-- **The answer of a master.** Whatever the workers do, and in whatever order the delegators go on: the request is
answered, and the answer is the replies of the workers whose calls returned, in the order of the host list, if and
only if no call throws after the list that was begun last has turned out not to be empty. -/
theorem merged_iff_of_findMatches (wire : ℕ → Wire) (hostList : List ThriftContainerT) (key : Str) :
    (∃ ret, FindMatches wire hostList key [] ret) ∧ ∀ ret, FindMatches wire hostList key [] ret →
      (Merged wire hostList ret ↔ ∀ c ∈ hostList, ¬ (wire c.conn).Spoils) := by
  refine ⟨exists_findMatches wire hostList key [], ?_⟩
  rintro ret (rfl | ⟨-, hrun, hend⟩)
  · exact iff_of_true ⟨[], .nil, rfl⟩ fun _ hc => absurd hc List.not_mem_nil
  · rw [merge_eq, List.nil_append]
    exact merged_iff (concludes_of_run hrun hend)

/-- A worker that announces two matches, sends one and is gone. -/
def gone : ℕ → Wire := fun _ => ⟨true, true, [.messageBegin findMatchesName .reply, .structBegin, .fieldBegin .list 0,
  .listBegin 2, .string (ascii "ab")], true⟩

/-- The answer is the match that was read, and an empty string for the other. -/
theorem not_merged_gone : FindMatches gone [⟨ascii "w", 9, 0⟩] (ascii "ab") [] [ascii "ab", []] ∧
    ¬ Merged gone [⟨ascii "w", 9, 0⟩] [ascii "ab", []] := by
  constructor
  · have hrun : Run (TaskStep Delegation.step) ([⟨ascii "w", 9, 0⟩].map (Delegation.create gone (ascii "ab")))
        [0, 0, 0, 0, 0, 0, 0, 0] _ :=
      .cons ⟨_, _, rfl, rfl, rfl⟩ (.cons ⟨_, _, rfl, rfl, rfl⟩ (.cons ⟨_, _, rfl, rfl, rfl⟩ (.cons ⟨_, _, rfl, rfl, rfl⟩
        (.cons ⟨_, _, rfl, rfl, rfl⟩ (.cons ⟨_, _, rfl, rfl, rfl⟩ (.cons ⟨_, _, rfl, rfl, rfl⟩
          (.cons ⟨_, _, rfl, rfl, rfl⟩ .nil)))))))
    exact .some (List.cons_ne_nil _ _) hrun fun d hd => List.mem_singleton.mp hd ▸ rfl
  · rintro ⟨ls, hls, e⟩
    obtain ⟨l, ls, hl, hnil, rfl⟩ := List.forall₂_cons_left_iff.mp hls
    obtain rfl := List.forall₂_nil_left_iff.mp hnil
    rcases hl with ⟨-, -, -, o, fields, fid, rest, hin, -⟩ | ⟨-, rfl⟩
    · have hmem : Item.messageEnd ∈ (gone 0).incoming := by rw [hin]; simp
      exact absurd hmem (by decide)
    · cases e

end InfixSearch
