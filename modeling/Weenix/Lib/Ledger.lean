/-
# Reporting every event once

Things are opened, each under a key that was never used before; a thing that is open is closed once,
which leaves a record; and the record is settled some time later.  `Exact` is the invariant of such
a book, for records of any type: what has been closed is pending or has been settled, not both, and
nothing is settled twice.

There is one rule for each of the three moves, and `Exact.settled_once` is what they are for.
-/
import Mathlib.Data.List.Nodup

namespace Ledger

open List

variable {ρ : Type}

/-- `isOpen` is about keys, the rest about records; keys from `next` on have not been used. -/
structure Exact (key : ρ → Nat) (next : Nat) (isOpen : Nat → Prop) (pending : ρ → Prop)
    (closed settled : List ρ) : Prop where
  openLt : ∀ k, isOpen k → k < next
  closedLt : ∀ r ∈ closed, key r < next
  closedOnce : (closed.map key).Nodup
  notOpen : ∀ r ∈ closed, ¬ isOpen (key r)
  account : ∀ r, r ∈ closed ↔ pending r ∨ r ∈ settled
  notPending : ∀ r ∈ settled, ¬ pending r
  once : (settled.map key).Nodup

section
variable {key : ρ → Nat} {next : Nat} {isOpen isOpen' : Nat → Prop} {pending pending' : ρ → Prop}
  {closed settled : List ρ} {r : ρ}

theorem nodup_map_concat {l : List ρ} (hl : (l.map key).Nodup) (hr : ∀ x ∈ l, key x ≠ key r) :
    ((l ++ [r]).map key).Nodup := by
  rw [map_append]
  refine nodup_append.mpr ⟨hl, by simp, ?_⟩
  rintro k hk j hj rfl
  obtain ⟨x, hx, rfl⟩ := mem_map.mp hk
  rw [map_singleton, mem_singleton] at hj
  exact hr x hx hj

theorem Exact.nil : Exact key next (· < next) (fun _ => False) [] [] where
  openLt _ h := h
  closedLt _ h := (nomatch h)
  closedOnce := nodup_nil
  notOpen _ h := (nomatch h)
  account r := by simp
  notPending _ h := (nomatch h)
  once := nodup_nil

section
variable (h : Exact key next isOpen pending closed settled)
include h

theorem Exact.congr (ho : ∀ k, isOpen' k ↔ isOpen k) (hp : ∀ r, pending' r ↔ pending r) :
    Exact key next isOpen' pending' closed settled where
  openLt k hk := h.openLt k ((ho k).mp hk)
  closedLt := h.closedLt
  closedOnce := h.closedOnce
  notOpen r hr hk := h.notOpen r hr ((ho _).mp hk)
  account r := (h.account r).trans (or_congr_left (hp r).symm)
  notPending r hr hk := h.notPending r hr ((hp r).mp hk)
  once := h.once

/-- **Opening** a thing under the next key. -/
theorem Exact.opened (ho : ∀ k, isOpen' k ↔ isOpen k ∨ k = next)
    (hp : ∀ r, pending' r ↔ pending r) :
    Exact key (next + 1) isOpen' pending' closed settled where
  openLt k hk := by
    obtain hk | rfl := (ho k).mp hk
    · exact Nat.lt_succ_of_lt (h.openLt k hk)
    · exact Nat.lt_succ_self k
  closedLt r hr := Nat.lt_succ_of_lt (h.closedLt r hr)
  closedOnce := h.closedOnce
  notOpen r hr hk := by
    obtain hk | hk := (ho _).mp hk
    · exact h.notOpen r hr hk
    · exact Nat.ne_of_lt (h.closedLt r hr) hk
  account r := (h.account r).trans (or_congr_left (hp r).symm)
  notPending r hr hk := h.notPending r hr ((hp r).mp hk)
  once := h.once

/-- **Closing** a thing that is open. -/
theorem Exact.close (hr : isOpen (key r))
    (ho : ∀ k, isOpen' k ↔ isOpen k ∧ k ≠ key r) (hp : ∀ x, pending' x ↔ pending x ∨ x = r) :
    Exact key next isOpen' pending' (closed ++ [r]) settled := by
  have hnew : ∀ x ∈ closed, key x ≠ key r := fun x hx he => h.notOpen x hx (he ▸ hr)
  refine ⟨fun k hk => h.openLt k ((ho k).mp hk).1, fun x hx => ?_,
    nodup_map_concat h.closedOnce hnew, fun x hx hk => ?_, fun x => ?_, fun x hx hk => ?_, h.once⟩
  · obtain hx | hx := mem_append.mp hx
    · exact h.closedLt x hx
    · exact mem_singleton.mp hx ▸ h.openLt _ hr
  · obtain hx | hx := mem_append.mp hx
    · exact h.notOpen x hx ((ho _).mp hk).1
    · exact ((ho _).mp hk).2 (mem_singleton.mp hx ▸ rfl)
  · rw [mem_append, mem_singleton, h.account x, hp x]
    exact or_right_comm
  · obtain hk | rfl := (hp x).mp hk
    · exact h.notPending x hx hk
    · exact hnew x ((h.account x).mpr (.inr hx)) rfl

/-- **Settling** a record that is pending. -/
theorem Exact.settle (hr : pending r) (ho : ∀ k, isOpen' k ↔ isOpen k)
    (hp : ∀ x, pending' x ↔ pending x ∧ x ≠ r) :
    Exact key next isOpen' pending' closed (settled ++ [r]) := by
  have hclosed : r ∈ closed := (h.account r).mpr (.inl hr)
  have hnew : ∀ x ∈ settled, key x ≠ key r := by
    intro x hx he
    -- a record with this key is `r`, and `r` is pending
    have hxr := inj_on_of_nodup_map h.closedOnce ((h.account x).mpr (.inr hx)) hclosed he
    exact h.notPending x hx (hxr ▸ hr)
  refine ⟨fun k hk => h.openLt k ((ho k).mp hk), h.closedLt, h.closedOnce,
    fun x hx hk => h.notOpen x hx ((ho _).mp hk), fun x => ?_, fun x hx hk => ?_,
    nodup_map_concat h.once hnew⟩
  · rw [mem_append, mem_singleton, h.account x, hp x]
    by_cases hx : x = r
    · simp [hx, hr]
    · simp [hx]
  · obtain hx | hx := mem_append.mp hx
    · exact h.notPending x hx ((hp x).mp hk).1
    · exact ((hp x).mp hk).2 (mem_singleton.mp hx)

end

/-- **Exactly once.**  A closed record that is not pending has been settled, once. -/
theorem Exact.settled_once [DecidableEq ρ] (h : Exact key next isOpen pending closed settled)
    (hr : r ∈ closed) : pending r ∧ settled.count r = 0 ∨ ¬ pending r ∧ settled.count r = 1 := by
  obtain hp | hs := (h.account r).mp hr
  · exact .inl ⟨hp, count_eq_zero.mpr fun hm => h.notPending r hm hp⟩
  · exact .inr ⟨h.notPending r hs, count_eq_one_of_mem (List.Nodup.of_map key h.once) hs⟩

end

end Ledger
