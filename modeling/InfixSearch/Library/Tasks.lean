import Mathlib.Computability.StateTransition
import InfixSearch.Library.Run

/-!
# Tasks that share nothing

A task is a state that goes on step by step: `step t = some t'`, or `step t = none` at its end.
Tasks run side by side, any of them goes on next. When all have come to their ends, each has come
to the end that it comes to alone, whatever the order was (`forall₂_eval_of_run`).
-/

namespace InfixSearch.Library

open StateTransition

variable {τ : Type*} {step : τ → Option τ} {t t' : τ} {ts ts' : List τ} {is : List ℕ}

/-- The task `i` takes a step. -/
def TaskStep (step : τ → Option τ) (ts : List τ) (i : ℕ) (ts' : List τ) : Prop :=
  ∃ t t', ts[i]? = some t ∧ step t = some t' ∧ ts' = ts.set i t'

theorem eval_of_step (h : step t = some t') : eval step t = eval step t' := reaches_eval (.single h)

theorem mem_eval_self (h : step t = none) : t ∈ eval step t := mem_eval.mpr ⟨.refl, h⟩

/-- A task that takes its first step earlier comes to the same end. -/
theorem forall₂_eval_set {i : ℕ} (hi : ts[i]? = some t) (hs : step t = some t')
    (h : List.Forall₂ (fun t t' => t' ∈ eval step t) (ts.set i t') ts') : List.Forall₂ (fun t t' => t' ∈ eval step t) ts ts' := by
  induction ts generalizing i ts' with
  | nil => cases hi
  | cons u ts ih =>
    cases i with
    | zero =>
      obtain rfl := Option.some.inj hi
      cases h with
      | cons hu hts => exact .cons (eval_of_step hs ▸ hu) hts
    | succ i =>
      cases h with
      | cons hu hts => exact .cons hu (ih hi hts)

/-- **Each task comes to its own end**, in whatever order they take their steps. -/
theorem forall₂_eval_of_run (h : Run (TaskStep step) ts is ts') (hend : ∀ t ∈ ts', step t = none) :
    List.Forall₂ (fun t t' => t' ∈ eval step t) ts ts' := by
  induction h with
  | nil => exact List.forall₂_same.mpr fun t ht => mem_eval_self (hend t ht)
  | cons hstep _ ih =>
    obtain ⟨t, t', hi, hs, rfl⟩ := hstep
    exact forall₂_eval_set hi hs (ih hend)

/-- The tasks after the first go on. -/
theorem run_cons (t : τ) (h : Run (TaskStep step) ts is ts') :
    Run (TaskStep step) (t :: ts) (is.map (· + 1)) (t :: ts') := by
  induction h with
  | nil => exact .nil
  | cons hstep _ ih =>
    obtain ⟨u, u', hi, hs, rfl⟩ := hstep
    exact .cons ⟨u, u', hi, hs, rfl⟩ ih

/-- The first task goes on to its end. -/
theorem exists_run_head (ts : List τ) (h : t' ∈ eval step t) : ∃ is, Run (TaskStep step) (t :: ts) is (t' :: ts) := by
  obtain ⟨hr, -⟩ := mem_eval.mp h
  induction hr using Relation.ReflTransGen.head_induction_on with
  | refl => exact ⟨[], .nil⟩
  | head hs _ ih =>
    obtain ⟨is, hrun⟩ := ih (by rwa [← eval_of_step hs])
    exact ⟨0 :: is, .cons ⟨_, _, rfl, hs, rfl⟩ hrun⟩

/-- Tasks that all come to an end do so side by side. -/
theorem exists_run_of_eval (h : List.Forall₂ (fun t t' => t' ∈ eval step t) ts ts') :
    ∃ is, Run (TaskStep step) ts is ts' := by
  induction h with
  | nil => exact ⟨[], .nil⟩
  | cons ht _ ih =>
    obtain ⟨is, hrun⟩ := ih
    obtain ⟨js, hhead⟩ := exists_run_head _ ht
    exact ⟨js ++ is.map (· + 1), hhead.append (run_cons _ hrun)⟩

end InfixSearch.Library
