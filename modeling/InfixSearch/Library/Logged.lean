import InfixSearch.Library.Block

/-!
# Computations that log

`Logged ω ε` is `Except ε` with a log of events of type `ω`. What was logged before a
fault is kept, so a log of the accesses of a run shows the access that ended it.

`x.result` forgets the log. `Block.put` writes to a block as `Block.write` does and logs
the index. `x.Overruns n` says that an index from `n` on was logged, and `x.Guards n Q`
that this ends the run, and that a run that succeeds gives a `Q`.
-/

namespace InfixSearch.Library

/-- A computation that may fail and logs on the way. -/
abbrev Logged (ω ε : Type) := ExceptT ε (Writer (List ω))

namespace Logged

variable {ω ε α β : Type}

/-- How it ends. -/
def result (x : Logged ω ε α) : Except ε α := (WriterT.run x.run).1

/-- What it logs. -/
def log (x : Logged ω ε α) : List ω := (WriterT.run x.run).2

/-- Logs an event. -/
def emit (w : ω) : Logged ω ε PUnit := ExceptT.lift (tell [w])

theorem ext_iff {x y : Logged ω ε α} : x = y ↔ x.result = y.result ∧ x.log = y.log :=
  ⟨fun h => h ▸ ⟨rfl, rfl⟩, fun h => Prod.ext h.1 h.2⟩

@[simp] theorem result_pure (a : α) : (pure a : Logged ω ε α).result = .ok a := rfl

@[simp] theorem log_pure (a : α) : (pure a : Logged ω ε α).log = [] := rfl

@[simp] theorem result_lift (x : Except ε α) : (liftM x : Logged ω ε α).result = x := rfl

@[simp] theorem log_lift (x : Except ε α) : (liftM x : Logged ω ε α).log = [] := rfl

@[simp] theorem result_emit (w : ω) : (emit w : Logged ω ε PUnit).result = .ok ⟨⟩ := rfl

@[simp] theorem log_emit (w : ω) : (emit w : Logged ω ε PUnit).log = [w] := rfl

@[simp] theorem result_bind (x : Logged ω ε α) (f : α → Logged ω ε β) :
    (x >>= f).result = x.result >>= fun a => (f a).result := by
  obtain ⟨r, l⟩ := x
  cases r <;> rfl

theorem log_bind_of_ok {x : Logged ω ε α} {a : α} (h : x.result = .ok a) (f : α → Logged ω ε β) :
    (x >>= f).log = x.log ++ (f a).log := by
  obtain ⟨r, l⟩ := x
  obtain rfl : r = .ok a := h
  rfl

theorem log_bind_of_error {x : Logged ω ε α} {e : ε} (h : x.result = .error e) (f : α → Logged ω ε β) :
    (x >>= f).log = x.log := by
  obtain ⟨r, l⟩ := x
  obtain rfl : r = .error e := h
  exact List.append_nil l

theorem mem_log_bind {x : Logged ω ε α} {f : α → Logged ω ε β} {w : ω} :
    w ∈ (x >>= f).log ↔ w ∈ x.log ∨ ∃ a, x.result = .ok a ∧ w ∈ (f a).log := by
  cases h : x.result with
  | error e => simp [log_bind_of_error h]
  | ok a => simp [log_bind_of_ok h]

/-- A step that logs nothing and succeeds. -/
@[simp] theorem lift_ok_bind (a : α) (f : α → Logged ω ε β) : ((liftM (Except.ok a : Except ε α) : Logged ω ε α) >>= f) = f a :=
  ext_iff.mpr ⟨rfl, List.nil_append _⟩

@[simp] theorem pure_ok_bind (a : α) (f : α → Logged ω ε β) : ((pure a : Logged ω ε α) >>= f) = f a :=
  ext_iff.mpr ⟨rfl, List.nil_append _⟩

/-- A step that logs nothing and fails. -/
@[simp] theorem lift_error_bind (e : ε) (f : α → Logged ω ε β) :
    ((liftM (Except.error e : Except ε α) : Logged ω ε α) >>= f) = liftM (Except.error e : Except ε β) := rfl

theorem result_foldlM (f : β → α → Logged ω ε β) (l : List α) (b : β) :
    (l.foldlM f b).result = l.foldlM (fun b a => (f b a).result) b := by
  induction l generalizing b with
  | nil => rfl
  | cons a l ih =>
    rw [List.foldlM_cons, List.foldlM_cons, result_bind]
    exact congrArg _ (funext ih)

/-! ### Indices -/

/-- An index from `n` on was logged. -/
def Overruns (n : ℕ) (x : Logged ℕ ε α) : Prop := ∃ i ∈ x.log, n ≤ i

theorem not_overruns_iff {n : ℕ} {x : Logged ℕ ε α} : ¬ x.Overruns n ↔ ∀ i ∈ x.log, i < n := by
  simp [Overruns]

theorem overruns_bind {n : ℕ} {x : Logged ℕ ε α} {f : α → Logged ℕ ε β} :
    (x >>= f).Overruns n ↔ x.Overruns n ∨ ∃ a, x.result = .ok a ∧ (f a).Overruns n := by
  simp only [Overruns, mem_log_bind, or_and_right, exists_or]
  refine or_congr_right ⟨?_, ?_⟩
  · rintro ⟨i, ⟨a, ha, hi⟩, hn⟩
    exact ⟨a, ha, i, hi, hn⟩
  · rintro ⟨a, ha, i, hi, hn⟩
    exact ⟨i, ⟨a, ha, hi⟩, hn⟩

@[simp] theorem not_overruns_pure (n : ℕ) (a : α) : ¬ (pure a : Logged ℕ ε α).Overruns n := by simp [Overruns]

@[simp] theorem not_overruns_lift (n : ℕ) (x : Except ε α) : ¬ (liftM x : Logged ℕ ε α).Overruns n := by simp [Overruns]

/-- An index from `n` on ends the run, and a run that succeeds gives a `Q`. -/
structure Guards (n : ℕ) (Q : α → Prop) (x : Logged ℕ Fault α) : Prop where
  /-- An index from `n` on ends the run. -/
  stops : x.Overruns n → x.result = .error .outOfBounds
  /-- What a run that succeeds gives. -/
  post : ∀ a, x.result = .ok a → Q a

variable {n : ℕ} {P : α → Prop} {Q : β → Prop}

theorem guards_lift {x : Except Fault α} (h : ∀ a, x = .ok a → P a) : (liftM x : Logged ℕ Fault α).Guards n P :=
  ⟨fun h => absurd h (not_overruns_lift n x), h⟩

theorem guards_pure {a : α} (h : P a) : (pure a : Logged ℕ Fault α).Guards n P :=
  ⟨fun h => absurd h (not_overruns_pure n a), fun b hb => by rwa [← Except.ok.inj hb]⟩

theorem Guards.bind {x : Logged ℕ Fault α} {f : α → Logged ℕ Fault β} (hx : x.Guards n P)
    (hf : ∀ a, P a → (f a).Guards n Q) : (x >>= f).Guards n Q := by
  constructor
  · intro h
    rw [result_bind]
    rcases overruns_bind.mp h with h | ⟨a, ha, h⟩
    · rw [hx.stops h, error_bind]
    · rw [ha, ok_bind, (hf a (hx.post a ha)).stops h]
  · intro b hb
    rw [result_bind, bind_eq_ok] at hb
    obtain ⟨a, ha, hb⟩ := hb
    exact (hf a (hx.post a ha)).post b hb

/-- A loop whose steps keep an invariant. -/
theorem guards_foldlM {f : α → β → Logged ℕ Fault α} {l : List β} (hf : ∀ a, P a → ∀ b ∈ l, (f a b).Guards n P) {a : α}
    (h : P a) : (l.foldlM f a).Guards n P := by
  induction l generalizing a with
  | nil => exact guards_pure h
  | cons b l ih =>
    rw [List.foldlM_cons]
    apply (hf a h b List.mem_cons_self).bind
    intro a' h'
    exact ih (fun a h c hc => hf a h c (List.mem_cons_of_mem b hc)) h'

end Logged

/-! ### Writing to a block -/

namespace Block

open Logged

variable {α : Type}

/-- `b[i] = x`, with the index logged. -/
def put (b : Block α) (i : ℕ) (x : α) : Logged ℕ Fault (Block α) := do
  emit i
  b.write i x

/-- `b[i] = x₀; b[i+1] = x₁; …`, with the indices logged. -/
def putAll (b : Block α) (i : ℕ) : List α → Logged ℕ Fault (Block α)
  | [] => pure b
  | x :: xs => do (← b.put i x).putAll (i + 1) xs

@[simp] theorem result_put (b : Block α) (i : ℕ) (x : α) : (b.put i x).result = b.write i x := rfl

@[simp] theorem result_putAll (b : Block α) (i : ℕ) (xs : List α) : (b.putAll i xs).result = b.writeAll i xs := by
  induction xs generalizing b i with
  | nil => rfl
  | cons x xs ih => simp [putAll, writeAll, ih]

theorem overruns_put {n : ℕ} {b : Block α} {i : ℕ} {x : α} : (b.put i x).Overruns n ↔ n ≤ i := by
  simp [put, Overruns, mem_log_bind]

theorem guards_put {n : ℕ} {b : Block α} (hb : b.length ≤ n) (i : ℕ) (x : α) : (b.put i x).Guards n (·.length ≤ n) := by
  constructor
  · intro h
    rw [result_put, write_of_le (hb.trans (overruns_put.mp h))]
  · intro b' h
    exact (length_of_write h).trans_le hb

theorem guards_putAll {n : ℕ} {b : Block α} (hb : b.length ≤ n) (i : ℕ) (xs : List α) :
    (b.putAll i xs).Guards n (·.length ≤ n) := by
  induction xs generalizing b i with
  | nil => exact guards_pure hb
  | cons x xs ih => exact (guards_put hb i x).bind fun b₁ hb₁ => ih hb₁ (i + 1)

/-- A run of writes that does not fit overruns the block. -/
theorem overruns_putAll {b : Block α} {i : ℕ} {xs : List α} (h : b.length < i + xs.length) (hi : i ≤ b.length) :
    (b.putAll i xs).Overruns b.length := by
  induction xs generalizing b i with
  | nil => simp at h; omega
  | cons x xs ih =>
    rw [List.length_cons] at h
    rw [putAll, overruns_bind, overruns_put]
    by_cases hlt : i < b.length
    · have := ih (b := b.set i (some x)) (i := i + 1) (by simp; omega) (by simp; omega)
      rw [List.length_set] at this
      exact .inr ⟨_, write_of_lt hlt x, this⟩
    · exact .inl (not_lt.mp hlt)

end Block

end InfixSearch.Library
