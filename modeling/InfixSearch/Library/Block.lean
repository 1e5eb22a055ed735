import Mathlib

/-!
# Blocks of memory

A block is what `malloc`, `realloc`, `new char[n]` or a local array `char a[n]`
gives a C++ program: a fixed number of cells, each holding a value or nothing
yet (an indeterminate cell). Reading or writing past the end of a block, and
reading an indeterminate cell, are faults, so that a run that ends in `.ok`
stayed inside its blocks and read only what it had written.

C strings are read off a block up to the first NUL (`cstr`) and written to it
with their NUL (`strcpy`). The rules of this module say when each operation
succeeds and what it leaves.
-/

namespace InfixSearch.Library

/-! ### Faults -/

/-- What ends a run of the program early. -/
inductive Fault where
  /-- A call of `exit(1)`. -/
  | exit
  /-- A null pointer is dereferenced. -/
  | nullPointer
  /-- A block, a string or the heap is accessed outside its bounds. -/
  | outOfBounds
  /-- A string is read before its first character. -/
  | beforeStart
  /-- A cell is read that nothing was written to. -/
  | indeterminate
  /-- The fuel of a loop or a recursion ran out. -/
  | diverges
  deriving DecidableEq, Repr

section Monad

variable {ε α β : Type}

@[simp] theorem ok_bind (a : α) (f : α → Except ε β) : (Except.ok a >>= f) = f a := rfl

@[simp] theorem error_bind (e : ε) (f : α → Except ε β) : (Except.error e >>= f) = .error e := rfl

@[simp] theorem pure_ok (a : α) : (pure a : Except ε α) = .ok a := rfl

@[simp] theorem throw_error (e : ε) : (throw e : Except ε α) = .error e := rfl

@[simp] theorem map_ok (g : α → β) (a : α) : (g <$> (Except.ok a : Except ε α)) = .ok (g a) := rfl

/-- A computation that succeeds did so at each of its two parts. -/
theorem bind_eq_ok {x : Except ε α} {f : α → Except ε β} {b : β} :
    (x >>= f) = .ok b ↔ ∃ a, x = .ok a ∧ f a = .ok b := by
  cases x with
  | error e => simp
  | ok a => simp

/-- Where `x` succeeds, `y` does with the same result. -/
def Below (x y : Except ε α) : Prop := ∀ a, x = .ok a → y = .ok a

namespace Below

theorem refl (x : Except ε α) : Below x x := fun _ h => h

theorem error (e : ε) (y : Except ε α) : Below (.error e) y := fun _ h => nomatch h

theorem bind {x y : Except ε α} {f g : α → Except ε β} (h : Below x y) (hf : ∀ a, Below (f a) (g a)) :
    Below (x >>= f) (y >>= g) := by
  intro b hb
  obtain ⟨a, ha, hb⟩ := bind_eq_ok.mp hb
  exact bind_eq_ok.mpr ⟨a, h a ha, hf a b hb⟩

end Below

theorem exists_ok_of_isOk {x : Except ε α} (h : x.isOk = true) : ∃ a, x = .ok a := by
  cases x with
  | error e => cases h
  | ok a => exact ⟨a, rfl⟩

/-- A loop whose steps all succeed. -/
theorem foldlM_ok {γ : Type} {f : β → γ → Except ε β} {g : β → γ → β} {l : List γ}
    (h : ∀ b, ∀ c ∈ l, f b c = .ok (g b c)) (b : β) : l.foldlM f b = .ok (l.foldl g b) := by
  induction l generalizing b with
  | nil => rfl
  | cons c l ih =>
    rw [List.foldlM_cons, h b c List.mem_cons_self, ok_bind, List.foldl_cons]
    exact ih (fun b d hd => h b d (List.mem_cons_of_mem _ hd)) _

end Monad

/-! ### Cells -/

/-- A block of cells; `none` is a cell nothing was written to. -/
abbrev Block (α : Type) := List (Option α)

variable {α : Type}

/-- `malloc`: `n` indeterminate cells. -/
def malloc (n : ℕ) : Block α := List.replicate n none

namespace Block

/-- `realloc`: what fits is kept, what is new is indeterminate. -/
def realloc (b : Block α) (n : ℕ) : Block α := b.take n ++ List.replicate (n - b.length) none

/-- `b[i]`. -/
def read (b : Block α) (i : ℕ) : Except Fault α :=
  match b[i]? with
  | none => .error .outOfBounds
  | some none => .error .indeterminate
  | some (some x) => .ok x

/-- `b[i] = x`. -/
def write (b : Block α) (i : ℕ) (x : α) : Except Fault (Block α) :=
  if i < b.length then .ok (b.set i (some x)) else .error .outOfBounds

/-- `b[i] = x₀; b[i+1] = x₁; …`. -/
def writeAll (b : Block α) (i : ℕ) : List α → Except Fault (Block α)
  | [] => .ok b
  | x :: xs => do (← b.write i x).writeAll (i + 1) xs

@[simp] theorem length_realloc (b : Block α) (n : ℕ) : (b.realloc n).length = n := by
  simp [realloc]; omega

theorem read_of_getElem? {b : Block α} {i : ℕ} {x : α} (h : b[i]? = some (some x)) : b.read i = .ok x := by
  simp [read, h]

theorem write_of_lt {b : Block α} {i : ℕ} (h : i < b.length) (x : α) : b.write i x = .ok (b.set i (some x)) := by
  simp [write, h]

theorem write_of_le {b : Block α} {i : ℕ} (h : b.length ≤ i) (x : α) : b.write i x = .error .outOfBounds := by
  simp [write, Nat.not_lt.mpr h]

theorem length_of_write {b b' : Block α} {i : ℕ} {x : α} (h : b.write i x = .ok b') : b'.length = b.length := by
  rw [write] at h
  split_ifs at h
  rw [← Except.ok.inj h, List.length_set]

theorem length_of_writeAll {b b' : Block α} {i : ℕ} {xs : List α} (h : b.writeAll i xs = .ok b') : b'.length = b.length := by
  induction xs generalizing b i with
  | nil =>
    obtain rfl := Except.ok.inj h
    rfl
  | cons x xs ih =>
    rw [writeAll, bind_eq_ok] at h
    obtain ⟨b₁, e₁, h⟩ := h
    rw [ih h, length_of_write e₁]

/-- A write leaves the other cells as they are. -/
theorem getElem?_of_write {b b' : Block α} {i j : ℕ} {x : α} (h : b.write i x = .ok b') (hij : i ≠ j) : b'[j]? = b[j]? := by
  rw [write] at h
  split_ifs at h
  obtain rfl := Except.ok.inj h
  exact List.getElem?_set_ne hij

/-- A run of writes leaves the cells before it as they are. -/
theorem getElem?_of_writeAll {b b' : Block α} {i j : ℕ} {xs : List α} (h : b.writeAll i xs = .ok b') (hij : j < i) :
    b'[j]? = b[j]? := by
  induction xs generalizing b i with
  | nil =>
    obtain rfl := Except.ok.inj h
    rfl
  | cons x xs ih =>
    rw [writeAll, bind_eq_ok] at h
    obtain ⟨b₁, e₁, h⟩ := h
    rw [ih h (Nat.lt_succ_of_lt hij), getElem?_of_write e₁ (Nat.ne_of_gt hij)]

theorem getElem?_realloc {b : Block α} {n i : ℕ} (hn : i < n) (hi : i < b.length) : (b.realloc n)[i]? = b[i]? := by
  rw [realloc, List.getElem?_append_left (by rw [List.length_take]; omega), List.getElem?_take_of_lt hn]

/-- Writing a run of values that fits replaces the cells from `i` on. -/
theorem writeAll_eq {b : Block α} {i : ℕ} {xs : List α} (h : i + xs.length ≤ b.length) :
    b.writeAll i xs = .ok (b.take i ++ xs.map some ++ b.drop (i + xs.length)) := by
  induction xs generalizing b i with
  | nil => simp [writeAll]
  | cons x xs ih =>
    simp only [List.length_cons] at h
    rw [writeAll, write_of_lt (by omega), ok_bind, ih (by simp; omega)]
    have ht : (b.set i (some x)).take (i + 1) = b.take i ++ [some x] := by
      rw [List.take_add_one, List.take_set_of_le le_rfl]
      simp [show i < b.length by omega]
    rw [ht, List.drop_set_of_lt (by omega)]
    simp [Nat.add_comm 1, Nat.add_assoc]

/-- A run that does not fit writes past the end. -/
theorem writeAll_error {b : Block α} {i : ℕ} {xs : List α} (h : b.length < i + xs.length) (hi : i ≤ b.length) :
    b.writeAll i xs = .error .outOfBounds := by
  induction xs generalizing b i with
  | nil => simp at h; omega
  | cons x xs ih =>
    simp only [List.length_cons] at h
    rw [writeAll]
    by_cases hlt : i < b.length
    · rw [write_of_lt hlt, ok_bind]
      exact ih (by simp; omega) (by simp; omega)
    · rw [write_of_le (by omega)]; rfl

/-- A block that starts with the values `xs`. -/
def starting (xs : List α) (rest : Block α) : Block α := xs.map some ++ rest

@[simp] theorem length_starting (xs : List α) (rest : Block α) : (starting xs rest).length = xs.length + rest.length := by
  simp [starting]

theorem starting_append (xs ys : List α) (rest : Block α) :
    starting (xs ++ ys) rest = starting xs (starting ys rest) := by
  simp [starting]

/-- Writing on where the values end. -/
theorem writeAll_starting (xs : List α) {ys : List α} {rest : Block α} (h : ys.length ≤ rest.length) :
    (starting xs rest).writeAll xs.length ys = .ok (starting (xs ++ ys) (rest.drop ys.length)) := by
  rw [writeAll_eq (by simpa using h)]
  simp [starting, List.drop_append]

theorem write_starting (xs : List α) (c : Option α) (rest : Block α) (x : α) :
    (starting xs (c :: rest)).write xs.length x = .ok (starting xs (some x :: rest)) := by
  rw [write_of_lt (by simp)]
  simp [starting]

end Block

/-! ### C strings -/

/-- The bytes of a block up to its first NUL: `string(b)`, for a `char *`. -/
def cstr : Block UInt8 → Except Fault (List UInt8)
  | [] => .error .outOfBounds
  | none :: _ => .error .indeterminate
  | some c :: b => if c = 0 then .ok [] else (c :: ·) <$> cstr b

/-- A block with a value in every cell is read up to its first NUL, or past its end. -/
theorem cstr_map_some (b : List UInt8) :
    cstr (b.map some) = if 0 ∈ b then .ok (b.takeWhile (· ≠ 0)) else .error .outOfBounds := by
  induction b with
  | nil => rfl
  | cons c b ih =>
    rw [List.map_cons, cstr, ih]
    by_cases hc : c = 0
    · simp [hc]
    · by_cases hb : 0 ∈ b
      · simp [hc, hb]
      · simp [hc, hb, Ne.symm hc]

/-- `strlen`. -/
def strlen (b : Block UInt8) : Except Fault ℕ := List.length <$> cstr b

/-- The part of a string before its first NUL: what `strcpy` sees of it. -/
def cut (s : List UInt8) : List UInt8 := s.takeWhile (· ≠ 0)

/-- `strcpy(dst + i, src)`: the bytes of `src` up to its first NUL, and a NUL. -/
def strcpy (dst : Block UInt8) (i : ℕ) (src : List UInt8) : Except Fault (Block UInt8) :=
  dst.writeAll i (cut src ++ [0])

/-- A string without NUL bytes. -/
def NulFree (s : List UInt8) : Prop := 0 ∉ s

instance (s : List UInt8) : Decidable (NulFree s) := inferInstanceAs (Decidable (0 ∉ s))

@[simp] theorem nulFree_nil : NulFree [] := by simp [NulFree]

@[simp] theorem nulFree_cons {c : UInt8} {s : List UInt8} : NulFree (c :: s) ↔ c ≠ 0 ∧ NulFree s := by
  simp [NulFree, eq_comm]

@[simp] theorem nulFree_append {s t : List UInt8} : NulFree (s ++ t) ↔ NulFree s ∧ NulFree t := by
  simp [NulFree]

theorem NulFree.drop {s : List UInt8} (h : NulFree s) (n : ℕ) : NulFree (s.drop n) :=
  fun hm => h (List.mem_of_mem_drop hm)

theorem NulFree.take {s : List UInt8} (h : NulFree s) (n : ℕ) : NulFree (s.take n) :=
  fun hm => h (List.mem_of_mem_take hm)

theorem nulFree_cut (s : List UInt8) : NulFree (cut s) := by
  intro h
  simpa using List.mem_takeWhile_imp h

theorem length_cut_le (s : List UInt8) : (cut s).length ≤ s.length := (List.takeWhile_prefix _).length_le

theorem cut_of_nulFree {s : List UInt8} (h : NulFree s) : cut s = s := by
  rw [cut, List.takeWhile_eq_self_iff]
  intro c hc
  simp only [decide_eq_true_eq]
  rintro rfl
  exact h hc

/-- A NUL-free string and its NUL at the front of a block are read back. -/
theorem cstr_append {s : List UInt8} (h : NulFree s) (b : Block UInt8) :
    cstr (s.map some ++ some 0 :: b) = .ok s := by
  induction s with
  | nil => simp [cstr]
  | cons c s ih =>
    rw [nulFree_cons] at h
    simp [cstr, h.1, ih h.2]

/-- What is read as a C string has no NUL in it. -/
theorem nulFree_of_cstr {b : Block UInt8} {s : List UInt8} (h : cstr b = .ok s) : NulFree s := by
  induction b generalizing s with
  | nil => cases h
  | cons c b ih =>
    cases c with
    | none => cases h
    | some c =>
      rw [cstr] at h
      split_ifs at h with hc
      · obtain rfl := Except.ok.inj h
        exact nulFree_nil
      · cases hb : cstr b with
        | error err => rw [hb] at h; cases h
        | ok s' =>
          rw [hb, map_ok, Except.ok.injEq] at h
          subst h
          exact nulFree_cons.mpr ⟨hc, ih hb⟩

/-- A C string ends inside its block. -/
theorem length_lt_of_cstr {b : Block UInt8} {s : List UInt8} (h : cstr b = .ok s) : s.length < b.length := by
  induction b generalizing s with
  | nil => cases h
  | cons c b ih =>
    cases c with
    | none => cases h
    | some c =>
      rw [cstr] at h
      split_ifs at h with hc
      · obtain rfl := Except.ok.inj h
        exact Nat.succ_pos _
      · cases hb : cstr b with
        | error err => rw [hb] at h; cases h
        | ok s' =>
          rw [hb, map_ok, Except.ok.injEq] at h
          subst h
          exact Nat.succ_lt_succ (ih hb)

theorem strlen_lt {b : Block UInt8} {k : ℕ} (h : strlen b = .ok k) : k < b.length := by
  cases hb : cstr b with
  | error err => rw [strlen, hb] at h; cases h
  | ok s =>
    rw [strlen, hb, map_ok, Except.ok.injEq] at h
    exact h ▸ length_lt_of_cstr hb

theorem cstr_starting {s : List UInt8} (h : NulFree s) (b : Block UInt8) : cstr (.starting s (some 0 :: b)) = .ok s :=
  cstr_append h b

end InfixSearch.Library
