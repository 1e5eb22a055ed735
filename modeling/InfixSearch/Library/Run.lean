import Mathlib

/-!
# Runs

A system takes steps, each for an action: `Step s a s'` says that the action `a` takes
the state `s` to `s'`. A run is a list of actions with a step for each. What holds at
first and is kept by every step holds after every run (`Run.invariant`).
-/

namespace InfixSearch.Library

variable {σ α : Type*}

/-- A run from one state to another. -/
inductive Run (Step : σ → α → σ → Prop) : σ → List α → σ → Prop where
  /-- No action. -/
  | nil {s : σ} : Run Step s [] s
  /-- An action, and then a run. -/
  | cons {s s' s'' : σ} {a : α} {as : List α} : Step s a s' → Run Step s' as s'' → Run Step s (a :: as) s''

namespace Run

variable {Step Step' : σ → α → σ → Prop} {s s' s'' : σ} {as bs : List α}

/-- What every step keeps, every run keeps. -/
theorem invariant {P : σ → Prop} (hstep : ∀ {s a s'}, P s → Step s a s' → P s') (h : Run Step s as s') (hs : P s) :
    P s' := by
  induction h with
  | nil => exact hs
  | cons h _ ih => exact ih (hstep hs h)

/-- One run after another. -/
theorem append (h : Run Step s as s') (h' : Run Step s' bs s'') : Run Step s (as ++ bs) s'' := by
  induction h with
  | nil => exact h'
  | cons h _ ih => exact .cons h (ih h')

theorem single {a : α} (h : Step s a s') : Run Step s [a] s' := .cons h .nil

/-- Steps of one system that are steps of another. -/
theorem mono (hstep : ∀ {s a s'}, Step s a s' → Step' s a s') (h : Run Step s as s') : Run Step' s as s' := by
  induction h with
  | nil => exact .nil
  | cons h _ ih => exact .cons (hstep h) ih

/-- A run that was carried out. -/
theorem of_foldlM {step : σ → α → Option σ} (h : as.foldlM step s = some s') : Run (fun s a s' => step s a = some s') s as s' := by
  induction as generalizing s with
  | nil =>
    obtain rfl := Option.some.inj h
    exact .nil
  | cons a as ih =>
    rw [List.foldlM_cons] at h
    obtain ⟨s₁, h₁, h₂⟩ := Option.bind_eq_some_iff.mp h
    exact .cons h₁ (ih h₂)

end Run

end InfixSearch.Library
