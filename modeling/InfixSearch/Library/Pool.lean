import InfixSearch.Library.Block

/-!
# Pools

A pool is an array that its owner accesses by index; an access outside it is a fault. Entries of
a pool that are linked in a list, each with the index of the next and `0` after the last, are
gone through one by one (`forLinks_eq`).
-/

namespace InfixSearch.Library

variable {α β γ : Type}

namespace Pool

/-- `p[i]`. -/
def get (p : List α) (i : ℕ) : Except Fault α :=
  match p[i]? with
  | none => .error .outOfBounds
  | some x => .ok x

/-- `p[i] = x`. -/
def set (p : List α) (i : ℕ) (x : α) : Except Fault (List α) := if i < p.length then .ok (p.set i x) else .error .outOfBounds

/-- A change of `p[i]`. -/
def modify (p : List α) (i : ℕ) (f : α → α) : Except Fault (List α) := do set p i (f (← get p i))

variable {p : List α} {i j : ℕ} {x y : α}

theorem lt_of_getElem? (h : p[i]? = some x) : i < p.length := (List.getElem?_eq_some_iff.mp h).1

theorem get_eq (h : p[i]? = some x) : get p i = .ok x := by rw [get, h]

theorem set_eq (h : i < p.length) (x : α) : set p i x = .ok (p.set i x) := if_pos h

theorem modify_eq (h : p[i]? = some x) (f : α → α) : modify p i f = .ok (p.set i (f x)) := by
  rw [modify, get_eq h, ok_bind, set_eq (lt_of_getElem? h)]

theorem getElem?_set_self (h : p[i]? = some x) (y : α) : (p.set i y)[i]? = some y := List.getElem?_set_self (lt_of_getElem? h)

end Pool

/-- A loop whose steps change nothing. -/
theorem foldlM_same {f : β → γ → Except Fault β} {l : List γ} {b : β} (h : ∀ c ∈ l, f b c = .ok b) : l.foldlM f b = .ok b := by
  induction l with
  | nil => rfl
  | cons c l ih =>
    rw [List.foldlM_cons, h c List.mem_cons_self, ok_bind]
    exact ih fun d hd => h d (List.mem_cons_of_mem _ hd)

/-! ### Linked entries -/

/-- `for (; i != 0; i = next(i))`. -/
def forLinks (next : ℕ → Except Fault ℕ) (body : β → ℕ → Except Fault β) : ℕ → β → ℕ → Except Fault β
  | 0, _, _ => .error .diverges
  | fuel + 1, b, i => if i = 0 then pure b else do forLinks next body fuel (← body b i) (← next i)

/-- `do … while ((i = next(i)) != 0)`, which is left when its body fails. -/
def doLinks (next : ℕ → Except Fault ℕ) (body : β → ℕ → Except Fault (Option β)) : ℕ → β → ℕ → Except Fault (Option β)
  | 0, _, _ => .error .diverges
  | fuel + 1, b, i => do
    match ← body b i with
    | none => pure none
    | some b => do
      let i ← next i
      if i = 0 then pure (some b) else doLinks next body fuel b i

/-- The first of a list of links. -/
def firstLink (is : List ℕ) : ℕ := is.headD 0

/-- The entries of a list are linked one to the next. -/
def Linked (next : ℕ → Except Fault ℕ) : List ℕ → Prop
  | [] => True
  | i :: is => i ≠ 0 ∧ next i = .ok (firstLink is) ∧ Linked next is

theorem forLinks_eq {next : ℕ → Except Fault ℕ} {body : β → ℕ → Except Fault β} {is : List ℕ} {fuel : ℕ}
    (h : Linked next is) (hfuel : is.length < fuel) (b : β) :
    forLinks next body fuel b (firstLink is) = is.foldlM body b := by
  induction is generalizing fuel b with
  | nil =>
    obtain ⟨fuel, rfl⟩ := Nat.exists_eq_succ_of_ne_zero (Nat.ne_zero_of_lt hfuel)
    rfl
  | cons i is ih =>
    obtain ⟨fuel, rfl⟩ := Nat.exists_eq_succ_of_ne_zero (Nat.ne_zero_of_lt hfuel)
    rw [forLinks, firstLink, List.headD_cons, if_neg h.1, h.2.1, List.foldlM_cons]
    refine bind_congr fun b' => ?_
    rw [ok_bind]
    exact ih h.2.2 (Nat.lt_of_succ_lt_succ hfuel) b'

end InfixSearch.Library
