/-
# Relations with a rank

A relation whose steps go up in some rank has no cycle.  The rank is not part of the system: it
only has to exist, and it survives the two changes that a growing and shrinking hierarchy makes,
steps that are taken away and a new leaf below one node.
-/
import Mathlib.Logic.Relation
import Mathlib.Logic.Function.Basic

/-- Every step goes up in some rank. -/
def Ranked {α : Type} (R : α → α → Prop) : Prop := ∃ rank : α → Nat, ∀ a b, R a b → rank a < rank b

namespace Ranked

variable {α : Type} {R R' : α → α → Prop}

theorem mono (h : Ranked R) (hsub : ∀ a b, R' a b → R a b) : Ranked R' :=
  have ⟨rank, hrank⟩ := h
  ⟨rank, fun a b hab => hrank a b (hsub a b hab)⟩

/-- **A relation with a rank has no cycle.** -/
theorem acyclic (h : Ranked R) (a : α) : ¬ Relation.TransGen R a a := by
  obtain ⟨rank, hrank⟩ := h
  have hup : ∀ {a b}, Relation.TransGen R a b → rank a < rank b := by
    intro a b hab
    induction hab with
    | single hstep => exact hrank _ _ hstep
    | tail _ hstep ih => exact Nat.lt_trans ih (hrank _ _ hstep)
  exact fun ha => Nat.lt_irrefl _ (hup ha)

/-- A new leaf `x` below `p`. -/
theorem leaf [DecidableEq α] (h : Ranked R) {p x : α} (hne : p ≠ x) (hleaf : ∀ b, ¬ R' x b)
    (hsub : ∀ a b, R' a b → R a b ∧ b ≠ x ∨ a = p ∧ b = x) : Ranked R' := by
  obtain ⟨rank, hrank⟩ := h
  refine ⟨Function.update rank x (rank p + 1), fun a b hab => ?_⟩
  have hax : a ≠ x := by
    rintro rfl
    exact hleaf b hab
  rw [Function.update_of_ne hax]
  obtain ⟨hold, hbx⟩ | ⟨rfl, rfl⟩ := hsub a b hab
  · rw [Function.update_of_ne hbx]
    exact hrank a b hold
  · rw [Function.update_self]
    exact Nat.lt_succ_self _

end Ranked
