/-
# Runs of a partial step function

A system here is a state type `σ`, a type `α` of calls and a function that performs one call
and either returns the next state or stops.  What the environment may call in which state is
a separate predicate, so that one step function serves every result about it: a caller's
contract is a `legal`, not a branch of the model.

`Run.invariant` is the induction every safety result uses.  `Run.mono` moves a run between
two contracts.
-/
import Mathlib.Logic.Basic

namespace Lts

variable {σ α ε : Type}

/-- `Run legal step s t`: some finite sequence of legal calls, each of which returns, leads
from `s` to `t`. -/
inductive Run (legal : σ → α → Prop) (step : σ → α → Except ε σ) (s : σ) : σ → Prop
  | refl : Run legal step s s
  | tail {t u : σ} {a : α} :
      Run legal step s t → legal t a → step t a = .ok u → Run legal step s u

variable {legal legal' : σ → α → Prop} {step : σ → α → Except ε σ} {s t u : σ}

/-- **The invariant rule.**  What holds at the start and is kept by every legal call that
returns holds in every state of every run. -/
theorem Run.invariant {I : σ → Prop} (h0 : I s)
    (hstep : ∀ t a u, I t → legal t a → step t a = .ok u → I u) (h : Run legal step s t) : I t := by
  induction h with
  | refl => exact h0
  | tail _ hl hs ih => exact hstep _ _ _ ih hl hs

/-- A run under a stronger contract is a run under a weaker one. -/
theorem Run.mono (himp : ∀ t a, legal t a → legal' t a) (h : Run legal step s t) :
    Run legal' step s t := by
  induction h with
  | refl => exact .refl
  | tail _ hl hs ih => exact .tail ih (himp _ _ hl) hs

theorem Run.trans (h1 : Run legal step s t) (h2 : Run legal step t u) : Run legal step s u := by
  induction h2 with
  | refl => exact h1
  | tail _ hl hs ih => exact .tail ih hl hs

/-! ## Running a list of calls

A concrete run is given by its calls.  `drive` performs them as long as each is legal and
returns, so that a closed run is checked by evaluation. -/

/-- Perform the calls in turn; `none` as soon as one is not legal or does not return. -/
def drive (legal : σ → α → Prop) [∀ s a, Decidable (legal s a)] (step : σ → α → Except ε σ) :
    List α → σ → Option σ
  | [], s => some s
  | a :: as, s =>
    if legal s a then
      match step s a with
      | .ok t => drive legal step as t
      | .error _ => none
    else none

theorem Run.of_drive [∀ s a, Decidable (legal s a)] : ∀ {as : List α} {s t : σ},
    drive legal step as s = some t → Run legal step s t
  | [], s, t, h => by
    cases h
    exact .refl
  | a :: as, s, t, h => by
    rw [drive] at h
    split at h
    · rename_i hl
      split at h
      · rename_i u hu
        exact Run.trans (.tail .refl hl hu) (Run.of_drive h)
      · cases h
    · cases h

/-- A test that the state at the end of a list of calls passes is passed by a state of a run. -/
theorem Run.of_drive_any [∀ s a, Decidable (legal s a)] {as : List α} {p : σ → Bool}
    (h : (drive legal step as s).any p = true) : ∃ t, Run legal step s t ∧ p t = true := by
  match hd : drive legal step as s with
  | none =>
    rw [hd] at h
    cases h
  | some t =>
    rw [hd] at h
    exact ⟨t, Run.of_drive hd, h⟩

theorem exists_run [∀ s a, Decidable (legal s a)] (as : List α) {p : σ → Prop} [DecidablePred p]
    (h : (drive legal step as s).any (fun t => decide (p t)) = true) :
    ∃ t, Run legal step s t ∧ p t := by
  obtain ⟨t, hrun, ht⟩ := Run.of_drive_any h
  exact ⟨t, hrun, of_decide_eq_true ht⟩

end Lts
