/-
# How the kernel stops

`KASSERT` and `panic` (`util/debug.h`) both end in `dbg_panic`, which never returns.  A modelled
function that contains one, or that would follow a pointer the C code does not define, returns
in `Except Halt`: "no `KASSERT` fires" is then the statement that the function returns `.ok`.
-/
import Mathlib.Order.Nat

namespace Weenix

-- the tables of the model are functions, changed at one point
export Function (update update_apply update_comm update_eq_self update_eq_self_iff update_idem
  update_of_ne update_self)

/-- The ways a kernel function fails to return.  `wild` is an access through a link or an index
that is not the one the code means: what the machine does next is not the program's to say.
`hang` is a loop that does not end. -/
inductive Halt where
  | kassert (expr : String)
  | panic (fmt : String)
  | wild
  | hang
deriving DecidableEq, Repr

/-- `KASSERT(x)`, with the text of `x` that `dbg_panic` prints. -/
def kassert (x : Bool) (expr : String) : Except Halt Unit :=
  if x then .ok () else .error (.kassert expr)

@[simp] theorem kassert_true (expr : String) : kassert true expr = .ok () := rfl

theorem kassert_of {x : Bool} (h : x = true) (expr : String) : kassert x expr = .ok () := by
  rw [h]; rfl

theorem kassert_eq_ok {x : Bool} {expr : String} {u : Unit} (h : kassert x expr = .ok u) :
    x = true := by
  unfold kassert at h
  split at h
  · assumption
  · cases h

section
variable {ε α β : Type} {x : Except ε α} {b : β} {f : α → β}

@[simp] theorem ok_bind (a : α) (f : α → Except ε β) : (Except.ok a >>= f) = f a := rfl

@[simp] theorem pure_eq_ok (a : α) : (pure a : Except ε α) = .ok a := rfl

@[simp] theorem error_bind (e : ε) (f : α → Except ε β) :
    ((Except.error e : Except ε α) >>= f) = .error e := rfl

theorem bind_eq_ok {f : α → Except ε β} (h : (x >>= f) = .ok b) : ∃ a, x = .ok a ∧ f a = .ok b := by
  cases x with
  | error e => cases h
  | ok a => exact ⟨a, rfl, h⟩

theorem map_eq_ok (h : f <$> x = .ok b) : ∃ a, x = .ok a ∧ f a = b := by
  cases x with
  | error e => cases h
  | ok a => exact ⟨a, rfl, Except.ok.inj h⟩

theorem snd_eq_ok {x : Except ε (α × β)} (h : Prod.snd <$> x = .ok b) : ∃ a, x = .ok (a, b) := by
  obtain ⟨⟨a, _⟩, hx, rfl⟩ := map_eq_ok h
  exact ⟨a, hx⟩

/-- A test passed by what is returned. -/
theorem ok_of_any {p : α → Bool} (h : x.toOption.any p = true) : ∃ a, x = .ok a ∧ p a = true := by
  cases x with
  | error e => cases h
  | ok a => exact ⟨a, rfl, h⟩

theorem error_of_map {e : ε} (h : x.map f = .error e) : x = .error e := by
  cases x with
  | error e' => exact congrArg _ (Except.error.inj h)
  | ok a => cases h

end

/-- What is found in a table after one entry was set. -/
theorem of_update {α β : Type} [DecidableEq α] {f : α → β} {i j : α} {x y : β}
    (h : update f i x j = y) : j = i ∧ x = y ∨ j ≠ i ∧ f j = y := by
  rw [update_apply] at h
  split at h
  case isTrue heq => exact .inl ⟨heq, h⟩
  case isFalse hne => exact .inr ⟨hne, h⟩

end Weenix
