/-
# Things filed on lists

Intrusive lists are filed: a thing is on at most one list of a family `L`, and a key says on which.
`Filed L key` is that statement.  Removing a thing by its link takes it off whatever list it is on
(`unfile`); inserting it files it under a key (`Filed.insert`).
-/
import Mathlib.Data.List.Nodup

namespace Filing

open List

open Function (update update_of_ne update_self)

variable {K α : Type}

/-- The lists of `L` hold each thing exactly once, under its key, and the things without a key
not at all. -/
structure Filed (L : K → List α) (key : α → Option K) : Prop where
  mem : ∀ k x, x ∈ L k ↔ key x = some k
  nodup : ∀ k, (L k).Nodup

/-- `x` is taken off the list it is on. -/
def unfile [DecidableEq α] (L : K → List α) (x : α) : K → List α := fun k => (L k).erase x

variable {L : K → List α} {key key' : α → Option K} {k : K} {x : α}

/-- A thing that is on no list is put on one, at any place. -/
theorem Filed.insert [DecidableEq K] (h : Filed L key) (hx : key x = none) (hx' : key' x = some k)
    (hother : ∀ y ≠ x, key' y = key y) {l : List α} (hl : l.Perm (x :: L k)) :
    Filed (update L k l) key' where
  mem k' y := by
    obtain rfl | hk := eq_or_ne k' k
    · rw [update_self, hl.mem_iff, mem_cons, h.mem]
      obtain rfl | hne := eq_or_ne y x
      · simp [hx']
      · simp [hne, hother]
    · rw [update_of_ne hk, h.mem]
      obtain rfl | hne := eq_or_ne y x
      · simp [hx, hx', hk.symm]
      · simp [hne, hother]
  nodup k' := by
    obtain rfl | hk := eq_or_ne k' k
    · rw [update_self, hl.nodup_iff]
      refine nodup_cons.mpr ⟨fun hmem => ?_, h.nodup k'⟩
      rw [h.mem, hx] at hmem
      cases hmem
    · rw [update_of_ne hk]
      exact h.nodup k'

variable [DecidableEq α]

section
variable (h : Filed L key)
include h

theorem Filed.count (k : K) (x : α) [Decidable (key x = some k)] :
    (L k).count x = if key x = some k then 1 else 0 := by
  split
  · exact count_eq_one_of_mem (h.nodup k) ((h.mem k x).mpr ‹_›)
  · exact count_eq_zero_of_not_mem fun hmem => absurd ((h.mem k x).mp hmem) ‹_›

theorem Filed.unfile (hx : key' x = none) (hother : ∀ y ≠ x, key' y = key y) :
    Filed (unfile L x) key' where
  mem k y := by
    rw [Filing.unfile, (h.nodup k).mem_erase_iff, h.mem]
    obtain rfl | hne := eq_or_ne y x
    · simp [hx]
    · simp [hne, hother]
  nodup k := (h.nodup k).erase x

/-- A thing is taken off its list and put on one. -/
theorem Filed.move [DecidableEq K] (hx' : key' x = some k)
    (hother : ∀ y ≠ x, key' y = key y) {l : List α}
    (hl : l.Perm (x :: Filing.unfile L x k)) : Filed (update (Filing.unfile L x) k l) key' := by
  have hout : Filed (Filing.unfile L x) fun y => if y = x then none else key y :=
    h.unfile (if_pos rfl) fun y hy => if_neg hy
  refine hout.insert (if_pos rfl) hx' (fun y hy => ?_) hl
  rw [if_neg hy]
  exact hother y hy

theorem Filed.length_unfile (hx : key x = some k) :
    (Filing.unfile L x k).length + 1 = (L k).length := by
  have hmem : x ∈ L k := (h.mem k x).mpr hx
  have hpos := length_pos_of_mem hmem
  rw [Filing.unfile, length_erase_of_mem hmem]
  omega

theorem Filed.unfile_of_ne (hx : key x ≠ some k) : Filing.unfile L x k = L k :=
  erase_of_not_mem fun hmem => hx ((h.mem k x).mp hmem)

end

/-- `n` counts what is on the lists, over a base of `b`. -/
def Tally (n b : K → Int) (L : K → List α) : Prop := ∀ k, n k = b k + (L k).length

section
variable [DecidableEq K] {n b : K → Int}

omit [DecidableEq α] in
theorem Tally.insert (h : Tally n b L) (k : K) (x : α) :
    Tally (update n k (n k + 1)) b (update L k (x :: L k)) := by
  intro k'
  have hk' := h k'
  obtain rfl | hne := eq_or_ne k' k
  · simp only [update_self, length_cons]
    omega
  · simpa only [update_of_ne hne] using hk'

theorem Tally.unfile (h : Tally n b L) (hL : Filed L key) (hx : key x = some k) :
    Tally (update n k (n k + -1)) b (Filing.unfile L x) := by
  intro k'
  have hk' := h k'
  obtain rfl | hne := eq_or_ne k' k
  · have hlen := hL.length_unfile hx
    rw [update_self]
    omega
  · rw [update_of_ne hne, hL.unfile_of_ne (by rw [hx]; simpa using hne.symm)]
    exact hk'

end

end Filing
