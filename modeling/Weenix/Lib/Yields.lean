/-
# What a computation that may stop returns

`Yields x Q` says of a computation in `Except` that whatever it returns satisfies `Q`; one that
stops satisfies it.  The rules follow the program text: one for each way of putting computations
together, so that a proof about a function goes through its body once and uses one fact about each
function it calls.
-/
import Mathlib.Data.List.Basic

/-- Whatever `x` returns satisfies `Q`. -/
def Yields {ε α : Type} (x : Except ε α) (Q : α → Prop) : Prop := ∀ a, x = .ok a → Q a

namespace Yields

open List

variable {ε α β : Type} {x : Except ε α} {Q Q' : α → Prop} {R : β → Prop} {a : α}
  {f : α → Except ε β}

theorem ok (h : Q a) : Yields (.ok a : Except ε α) Q := by
  rintro b ⟨⟩
  exact h

theorem pure (h : Q a) : Yields (Pure.pure a : Except ε α) Q := ok h

theorem error (e : ε) : Yields (.error e) Q := by
  rintro b ⟨⟩

/-- What is returned is what the computation returned. -/
theorem self (x : Except ε α) : Yields x fun a => x = .ok a := fun _ h => h

theorem imp (h : Yields x Q) (himp : ∀ a, Q a → Q' a) : Yields x Q' := fun a ha =>
  himp a (h a ha)

theorem and (h : Yields x Q) (h' : Yields x Q') : Yields x fun a => Q a ∧ Q' a := fun a ha =>
  ⟨h a ha, h' a ha⟩

theorem bind (h : Yields x Q) (hf : ∀ a, Q a → Yields (f a) R) : Yields (x >>= f) R := by
  cases x with
  | error e => exact error e
  | ok a => exact hf a (h a rfl)

/-- Nothing is needed of what the first half returns. -/
theorem seq (hf : ∀ a, Yields (f a) R) : Yields (x >>= f) R :=
  bind (fun _ _ => trivial) fun a _ => hf a

theorem map {f : α → β} (h : Yields x fun a => R (f a)) : Yields (f <$> x) R := by
  cases x with
  | error e => exact error e
  | ok a => exact ok (h a rfl)

theorem ite {c : Prop} [Decidable c] {y : Except ε α} (h : c → Yields x Q)
    (h' : ¬ c → Yields y Q) : Yields (if c then x else y) Q := by
  split
  · exact h ‹_›
  · exact h' ‹_›

/-- A loop over the numbers from `lo` on: `I k` holds after `k` rounds. -/
theorem foldlM_range' {f : α → Nat → Except ε α} {I : Nat → α → Prop} {lo n : Nat} (h0 : I 0 a)
    (hf : ∀ k < n, ∀ a, I k a → Yields (f a (lo + k)) (I (k + 1))) :
    Yields ((List.range' lo n).foldlM f a) (I n) := by
  induction n with
  | zero => exact ok h0
  | succ n ih =>
    rw [range'_1_concat, foldlM_append]
    refine bind (ih fun k hk => hf k (Nat.lt_succ_of_lt hk)) fun b hb => ?_
    rw [foldlM_cons]
    exact bind (hf n (Nat.lt_succ_self n) b hb) fun _ hc => ok hc

/-- A loop over a list. -/
theorem foldlM {f : α → β → Except ε α} {I : α → Prop} {l : List β} (h0 : I a)
    (hf : ∀ a, I a → ∀ b ∈ l, Yields (f a b) I) : Yields (l.foldlM f a) I := by
  induction l generalizing a with
  | nil => exact ok h0
  | cons b l ih =>
    rw [foldlM_cons]
    refine bind (hf a h0 b (.head _)) fun c hc => ?_
    exact ih hc fun a ha b hb => hf a ha b (.tail _ hb)

end Yields
