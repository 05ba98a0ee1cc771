/-
# Tables of slots

A family of tables, some of which exist, each a list of slots.  `tally` is the number of slots that
have a property, over all tables.  The rules say what one change does to it: a slot that is
rewritten, a table that comes or goes.
-/
import Mathlib.Algebra.Order.BigOperators.Group.Finset

namespace Slots

open List Bool

variable {α : Type} {p : α → Bool} {l : List α} {i : Nat} {a b : α}

/-! ## 1. One table -/

theorem countP_set_add (h : l[i]? = some a) :
    (l.set i b).countP p + (p a).toNat = l.countP p + (p b).toNat := by
  obtain ⟨hlt, rfl⟩ := List.getElem?_eq_some_iff.mp h
  rw [List.countP_set hlt]
  cases ha : p l[i] with
  | false => simp [Bool.toNat, cond_eq_ite]
  | true =>
    have hpos : 0 < l.countP p := countP_pos_iff.mpr ⟨_, getElem_mem hlt, ha⟩
    simp only [if_true, Bool.toNat, cond_eq_ite]
    omega

/-- The slots of a table that may be missing. -/
def count (table : Option (List α)) (p : α → Bool) : Nat :=
  match table with
  | some l => l.countP p
  | none => 0

@[simp] theorem count_none : count (none : Option (List α)) p = 0 := rfl

@[simp] theorem count_some (l : List α) : count (some l) p = l.countP p := rfl

/-! ## 2. All tables -/

/-- The number of slots with the property in the first `n` tables. -/
def tally (n : Nat) (tables : Nat → Option (List α)) (p : α → Bool) : Nat :=
  ∑ d ∈ Finset.range n, count (tables d) p

variable {n d : Nat} {tables : Nat → Option (List α)}

theorem tally_update (hd : d < n) (table : Option (List α)) :
    tally n (Function.update tables d table) p + count (tables d) p =
      tally n tables p + count table p := by
  unfold tally
  have hmem := Finset.mem_range.mpr hd
  rw [← Finset.add_sum_erase _ _ hmem, ← Finset.add_sum_erase _ (fun d => count (tables d) p) hmem,
    Function.update_self]
  have hrest : ∑ c ∈ (Finset.range n).erase d, count (Function.update tables d table c) p =
      ∑ c ∈ (Finset.range n).erase d, count (tables c) p :=
    Finset.sum_congr rfl fun c hc => by rw [Function.update_of_ne (Finset.ne_of_mem_erase hc)]
  rw [hrest]
  omega

/-- A slot of one table is rewritten. -/
theorem tally_set (hd : d < n) (hl : tables d = some l) (ha : l[i]? = some a) :
    tally n (Function.update tables d (some (l.set i b))) p + (p a).toNat =
      tally n tables p + (p b).toNat := by
  have htable : tally n (Function.update tables d (some (l.set i b))) p + count (tables d) p =
      tally n tables p + (l.set i b).countP p := tally_update hd _
  have hslot := countP_set_add ha (b := b) (p := p)
  rw [hl, count_some] at htable
  omega

theorem count_le_tally (hd : d < n) : count (tables d) p ≤ tally n tables p :=
  Finset.single_le_sum (f := fun d => count (tables d) p) (fun _ _ => Nat.zero_le _)
    (Finset.mem_range.mpr hd)

theorem tally_pos (hd : d < n) (hl : tables d = some l) (ha : a ∈ l) (hp : p a = true) :
    0 < tally n tables p := by
  refine Nat.lt_of_lt_of_le ?_ (count_le_tally hd)
  rw [hl, count_some]
  exact countP_pos_iff.mpr ⟨a, ha, hp⟩

theorem exists_of_tally_pos (h : 0 < tally n tables p) :
    ∃ d l a, tables d = some l ∧ a ∈ l ∧ p a = true := by
  obtain ⟨d, -, hd⟩ := Finset.exists_ne_zero_of_sum_ne_zero (Nat.pos_iff_ne_zero.mp h)
  cases hl : tables d with
  | none =>
    rw [hl] at hd
    exact absurd rfl hd
  | some l =>
    rw [hl, count_some] at hd
    obtain ⟨a, ha, hp⟩ := countP_pos_iff.mp (Nat.pos_of_ne_zero hd)
    exact ⟨d, l, a, hl, ha, hp⟩

end Slots
