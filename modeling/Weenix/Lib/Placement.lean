/-
# Lists that share their elements out

A family of lists with one link per element: an element is on at most one of them, at most once,
and carries a note of where it is.  `Placed` says that the notes and the lists agree.  Insertion
(anywhere in a list) and removal keep that; both are stated for functions that agree with the old
ones elsewhere, so that they apply to fields of records.
-/
import Mathlib.Data.List.Perm.Basic

namespace Placement

open Option

open Function (update update_of_ne update_self)

variable {Q T : Type} {list list' : Q → List T} {loc loc' : T → Option Q} {q : Q} {t : T}

/-- `loc t` is the list that `t` is on, and no list has an element twice. -/
structure Placed (list : Q → List T) (loc : T → Option Q) : Prop where
  mem : ∀ t q, loc t = some q ↔ t ∈ list q
  nodup : ∀ q, (list q).Nodup

/-- Half of it: what is on a list has a note of that list. -/
structure Noted (list : Q → List T) (loc : T → Option Q) : Prop where
  mem : ∀ q, ∀ t ∈ list q, loc t = some q
  nodup : ∀ q, (list q).Nodup

section
variable (h : Noted list loc)
include h

theorem Noted.shrink (hsub : ∀ r, (list' r).Sublist (list r))
    (hkeep : ∀ r, ∀ u ∈ list' r, loc' u = loc u) : Noted list' loc' where
  mem r u hu := (hkeep r u hu).trans (h.mem r u ((hsub r).subset hu))
  nodup r := (h.nodup r).sublist (hsub r)

theorem Noted.insert (hno : ∀ r, t ∉ list r) (hother : ∀ r, r ≠ q → (list' r).Sublist (list r))
    (hperm : (list' q).Perm (t :: list q)) (hloc : loc' t = some q)
    (hkeep : ∀ u, u ≠ t → loc' u = loc u) : Noted list' loc' := by
  have hold : ∀ r, ∀ u ∈ list r, loc' u = some r := fun r u hu =>
    (hkeep u fun he => hno r (he ▸ hu)).trans (h.mem r u hu)
  constructor
  · intro r u hu
    by_cases hr : r = q
    · subst hr
      obtain rfl | hu := List.mem_cons.mp (hperm.mem_iff.mp hu)
      · exact hloc
      · exact hold r u hu
    · exact hold r u ((hother r hr).subset hu)
  · intro r
    by_cases hr : r = q
    · subst hr
      exact hperm.nodup_iff.mpr (List.nodup_cons.mpr ⟨hno r, h.nodup r⟩)
    · exact (h.nodup r).sublist (hother r hr)

end

section
variable (h : Placed list loc)
include h

/-- An element is on one list only. -/
theorem Placed.unique {q q' : Q} (hq : t ∈ list q) (hq' : t ∈ list q') : q = q' := by
  rw [← h.mem] at hq hq'
  rw [hq] at hq'
  exact some.inj hq'

/-- An element without a place is on no list. -/
theorem Placed.none_iff : loc t = none ↔ ∀ q, t ∉ list q := by
  constructor
  · intro hn q hq
    rw [← h.mem, hn] at hq
    cases hq
  · intro hno
    cases hl : loc t with
    | none => rfl
    | some q => exact absurd ((h.mem t q).mp hl) (hno q)

theorem Placed.noted : Noted list loc := ⟨fun q t => (h.mem t q).mpr, h.nodup⟩

theorem Placed.insert (ht : loc t = none) (hother : ∀ r, r ≠ q → list' r = list r)
    (hperm : (list' q).Perm (t :: list q)) (hloc : loc' t = some q)
    (hkeep : ∀ u, u ≠ t → loc' u = loc u) :
    Placed list' loc' := by
  have hnoted := h.noted.insert (h.none_iff.mp ht) (fun r hr => by rw [hother r hr]) hperm hloc
    hkeep
  refine ⟨fun u r => ⟨fun hl => ?_, hnoted.mem r u⟩, hnoted.nodup⟩
  by_cases hu : u = t
  · subst hu
    cases hloc.symm.trans hl
    exact hperm.mem_iff.mpr (.head _)
  · have hm := (h.mem u r).mp ((hkeep u hu).symm.trans hl)
    by_cases hr : r = q
    · subst hr
      exact hperm.mem_iff.mpr (.tail _ hm)
    · rwa [hother r hr]

theorem Placed.remove [DecidableEq T] (ht : loc t = some q) (hother : ∀ r, r ≠ q → list' r = list r)
    (hq : list' q = (list q).erase t) (hloc : loc' t = none) (hkeep : ∀ u, u ≠ t → loc' u = loc u) :
    Placed list' loc' := by
  have hmem : ∀ r u, u ∈ list' r ↔ u ≠ t ∧ u ∈ list r := by
    intro r u
    by_cases hr : r = q
    · subst hr
      rw [hq, (h.nodup r).mem_erase_iff]
    · rw [hother r hr, iff_and_self]
      rintro hu rfl
      exact hr (some.inj (((h.mem u r).mpr hu).symm.trans ht))
  refine ⟨fun u r => ?_, fun r => (h.nodup r).sublist ?_⟩
  · rw [hmem]
    by_cases hu : u = t
    · simp [hu, hloc]
    · rw [hkeep u hu, h.mem, and_iff_right hu]
  · by_cases hr : r = q
    · subst hr
      rw [hq]
      exact List.erase_sublist
    · rw [hother r hr]

/-- An element goes from one list to another. -/
theorem Placed.transfer [DecidableEq T] [DecidableEq Q] {q' : Q} (ht : loc t = some q)
    (hne : q ≠ q')
    (hother : ∀ r, r ≠ q → r ≠ q' → list' r = list r) (hq : list' q = (list q).erase t)
    (hq' : (list' q').Perm (t :: list q')) (hloc : loc' t = some q')
    (hkeep : ∀ u, u ≠ t → loc' u = loc u) :
    Placed list' loc' := by
  -- in between it is on no list
  have hmid : Placed (update list q ((list q).erase t)) (update loc t none) := by
    refine h.remove ht (fun r hr => update_of_ne hr ..) (update_self ..)
      (update_self ..) fun u hu => update_of_ne hu ..
  refine hmid.insert (t := t) (q := q') (update_self ..) ?_ ?_ hloc ?_
  · intro r hr
    by_cases hrq : r = q
    · subst hrq
      rw [update_self, hq]
    · rw [update_of_ne hrq, hother r hrq hr]
  · rw [update_of_ne hne.symm]
    exact hq'
  · intro u hu
    rw [update_of_ne hu, hkeep u hu]

/-- Changing nothing that `Placed` reads. -/
theorem Placed.congr (hl : ∀ q, list' q = list q) (hloc : ∀ t, loc' t = loc t) :
    Placed list' loc' :=
  ⟨fun t q => by rw [hloc, hl]; exact h.mem t q, fun q => by rw [hl]; exact h.nodup q⟩

end

end Placement
