/-
# Reference counts against a census

Things are counted by the places that point to them.  A place holds at most one reference; a
computation under way may hold some more, listed in `held`.  `Counted` says that every thing that is
live carries exactly the number of references there are to it, that there is at least one, and that
nothing else is referred to.

The rules are the six moves that programs with reference counts are made of: a new thing, one more
reference, one reference less (which is the last one or is not), and a reference that moves between
the computation and a place.  None of them looks at more than the thing it is about.
-/
import Mathlib.Data.Finset.Card

namespace Refcount

open List

open Function (update update_eq_self update_idem update_of_ne update_self)

variable {ι α : Type} [DecidableEq α] {count' : α → Int}

/-! ## 1. The census -/

/-- The number of places that hold a reference to `a`. -/
def census (places : Finset ι) (table : ι → Option α) (a : α) : Nat :=
  (places.filter fun i => table i = some a).card

variable {places places' : Finset ι} {table table' : ι → Option α} {held : List α} {live : Finset α}
  {count : α → Int} {i : ι} {a b : α}

theorem census_pos : 0 < census places table a ↔ ∃ i ∈ places, table i = some a := by
  simp only [census, Finset.card_pos, Finset.Nonempty, Finset.mem_filter]

/-- Places that hold nothing do not count. -/
theorem census_congr (h : ∀ i a, i ∈ places' ∧ table' i = some a ↔ i ∈ places ∧ table i = some a)
    (a : α) :
    census places' table' a = census places table a := by
  unfold census
  congr 1
  ext i
  simp only [Finset.mem_filter, h]

/-- A reference stored in an empty place. -/
theorem census_store [DecidableEq ι] (hi : i ∈ places) (hnone : table i = none) (a b : α) :
    census places (update table i (some a)) b = census places table b + if a = b then 1 else 0 := by
  unfold census
  by_cases hab : a = b
  · subst hab
    have hnot : i ∉ places.filter fun j => table j = some a := by simp [hnone]
    rw [if_pos rfl, ← Finset.card_insert_of_notMem hnot]
    congr 1
    ext j
    by_cases hj : j = i
    · simp [hj, hi]
    · simp [hj]
  · rw [if_neg hab]
    congr 1
    ext j
    by_cases hj : j = i
    · simp [hj, hab, hnone]
    · simp [hj]

/-- A place that is cleared. -/
theorem census_clear [DecidableEq ι] (hi : i ∈ places) (hsome : table i = some a) (b : α) :
    census places table b =
      census places (update table i none) b + if a = b then 1 else 0 := by
  have hback : update (update table i none) i (some a) = table := by
    rw [update_idem, ← hsome, update_eq_self]
  rw [← census_store hi (update_self ..) a b, hback]

/-! ## 2. Counts that agree with it -/

/-- Every live thing has as many references as its count says, and at least one; what is referred to
is live. -/
structure Counted (places : Finset ι) (table : ι → Option α) (held : List α) (live : Finset α)
    (count : α → Int) : Prop where
  exact : ∀ a ∈ live, count a = census places table a + held.count a
  owned : ∀ a ∈ live, 0 < census places table a + held.count a
  placed : ∀ i ∈ places, ∀ a, table i = some a → a ∈ live
  heldLive : ∀ a ∈ held, a ∈ live

namespace Counted

section
variable (h : Counted places table held live count)
include h

theorem congr_count (hc : ∀ a ∈ live, count' a = count a) :
    Counted places table held live count' where
  __ := h
  exact a ha := (hc a ha).trans (h.exact a ha)

theorem congr_places (hp : ∀ i a, i ∈ places' ∧ table' i = some a ↔ i ∈ places ∧ table i = some a) :
    Counted places' table' held live count where
  exact a ha := by rw [census_congr hp]; exact h.exact a ha
  owned a ha := by rw [census_congr hp]; exact h.owned a ha
  placed i hi a ha := have hi := (hp i a).mp ⟨hi, ha⟩; h.placed i hi.1 a hi.2
  heldLive := h.heldLive

theorem congr_held {held' : List α} (hp : held'.Perm held) :
    Counted places table held' live count where
  exact a ha := by rw [hp.count_eq]; exact h.exact a ha
  owned a ha := by rw [hp.count_eq]; exact h.owned a ha
  placed := h.placed
  heldLive a ha := h.heldLive a (hp.mem_iff.mp ha)

end

/-- Nothing is held: the count is the number of places, and a thing is live as long as there is
one. -/
theorem count_eq_census (h : Counted places table [] live count) (ha : a ∈ live) :
    count a = census places table a := by
  simpa using h.exact a ha

theorem census_pos_iff (h : Counted places table [] live count) :
    0 < census places table a ↔ a ∈ live := by
  constructor
  · intro hpos
    obtain ⟨i, hi, hti⟩ := census_pos.mp hpos
    exact h.placed i hi a hti
  · intro ha
    simpa using h.owned a ha

/-- A new thing, with one reference to it. -/
theorem new (h : Counted places table held live count) (ha : a ∉ live)
    (hself : count' a = 1) (hne : ∀ b, b ≠ a → count' b = count b) :
    Counted places table (a :: held) (insert a live) count' := by
  have hcensus : census places table a = 0 := by
    by_contra hpos
    obtain ⟨i, hi, hti⟩ := census_pos.mp (Nat.pos_of_ne_zero hpos)
    exact ha (h.placed i hi a hti)
  have hheld : held.count a = 0 := count_eq_zero.mpr fun hmem => ha (h.heldLive a hmem)
  refine ⟨fun b hb => ?_, fun b hb => ?_, fun i hi b hb => ?_, fun b hb => ?_⟩
  · obtain rfl | hba := eq_or_ne b a
    · rw [hself, hcensus, count_cons_self, hheld]
      rfl
    · rw [hne b hba, count_cons_of_ne hba.symm]
      exact h.exact b (Finset.mem_of_mem_insert_of_ne hb hba)
  · obtain rfl | hba := eq_or_ne b a
    · rw [count_cons_self]
      omega
    · rw [count_cons_of_ne hba.symm]
      exact h.owned b (Finset.mem_of_mem_insert_of_ne hb hba)
  · exact Finset.mem_insert_of_mem (h.placed i hi b hb)
  · obtain rfl | hb := mem_cons.mp hb
    · exact Finset.mem_insert_self ..
    · exact Finset.mem_insert_of_mem (h.heldLive b hb)

/-- One more reference to a live thing. -/
theorem take (h : Counted places table held live count) (ha : a ∈ live)
    (hself : count' a = count a + 1) (hne : ∀ b, b ≠ a → count' b = count b) :
    Counted places table (a :: held) live count' := by
  refine ⟨fun b hb => ?_, fun b hb => ?_, h.placed, fun b hb => ?_⟩
  · have := h.exact b hb
    obtain rfl | hba := eq_or_ne b a
    · rw [hself, count_cons_self]
      omega
    · rw [hne b hba, count_cons_of_ne hba.symm, this]
  · have := h.owned b hb
    rw [count_cons]
    omega
  · obtain rfl | hb := mem_cons.mp hb
    · exact ha
    · exact h.heldLive b hb

section
variable (h : Counted places table (a :: held) live count)
include h

/-- A reference that is held and is not the last one is dropped. -/
theorem drop (hmore : count a ≠ 1) (hself : count' a = count a - 1)
    (hne : ∀ b, b ≠ a → count' b = count b) : Counted places table held live count' := by
  refine ⟨fun b hb => ?_, fun b hb => ?_, h.placed, fun b hb => h.heldLive b (.tail _ hb)⟩
  · have := h.exact b hb
    obtain rfl | hba := eq_or_ne b a
    · rw [count_cons_self] at this
      omega
    · rw [count_cons_of_ne hba.symm] at this
      rw [hne b hba, this]
  · obtain rfl | hba := eq_or_ne b a
    · have := h.exact b hb
      rw [count_cons_self] at this
      omega
    · have := h.owned b hb
      rwa [count_cons_of_ne hba.symm] at this

/-- The last reference is dropped, and the thing with it. -/
theorem dropLast (hone : count a = 1) (hne : ∀ b, b ≠ a → count' b = count b) :
    Counted places table held (live.erase a) count' := by
  have hlive := h.heldLive a (.head _)
  have hrefs := h.exact a hlive
  rw [hone, count_cons_self] at hrefs
  have hcensus : census places table a = 0 := by omega
  have hheld : held.count a = 0 := by omega
  refine ⟨fun b hb => ?_, fun b hb => ?_, fun i hi b hb => ?_, fun b hb => ?_⟩
  · have hba := Finset.ne_of_mem_erase hb
    have := h.exact b (Finset.mem_of_mem_erase hb)
    rw [count_cons_of_ne hba.symm] at this
    rw [hne b hba, this]
  · have := h.owned b (Finset.mem_of_mem_erase hb)
    rwa [count_cons_of_ne (Finset.ne_of_mem_erase hb).symm] at this
  · refine Finset.mem_erase.mpr ⟨fun hba => ?_, h.placed i hi b hb⟩
    exact (census_pos.mpr ⟨i, hi, hba ▸ hb⟩).ne' hcensus
  · refine Finset.mem_erase.mpr ⟨fun hba => ?_, h.heldLive b (.tail _ hb)⟩
    exact count_eq_zero.mp hheld (hba ▸ hb)

/-- A reference that is held is stored in an empty place. -/
theorem store [DecidableEq ι] (hi : i ∈ places) (hnone : table i = none) :
    Counted places (update table i (some a)) held live count := by
  have hrefs : ∀ b, census places (update table i (some a)) b + held.count b =
      census places table b + (a :: held).count b := fun b => by
    rw [census_store hi hnone, count_cons]
    simp only [beq_iff_eq]
    omega
  refine ⟨fun b hb => ?_, fun b hb => ?_, fun j hj b hb => ?_,
    fun b hb => h.heldLive b (.tail _ hb)⟩
  · rw [h.exact b hb]
    have := hrefs b
    omega
  · rw [hrefs]
    exact h.owned b hb
  · obtain rfl | hji := eq_or_ne j i
    · rw [update_self] at hb
      exact h.heldLive b (Option.some.inj hb ▸ .head _)
    · rw [update_of_ne hji] at hb
      exact h.placed j hj b hb

end

/-- A place is cleared, and its reference is held from then on. -/
theorem clear [DecidableEq ι] (h : Counted places table held live count) (hi : i ∈ places)
    (hsome : table i = some a) : Counted places (update table i none) (a :: held) live count := by
  have hrefs : ∀ b, census places (update table i none) b + (a :: held).count b =
      census places table b + held.count b := fun b => by
    rw [census_clear hi hsome b, count_cons]
    simp only [beq_iff_eq]
    omega
  refine ⟨fun b hb => ?_, fun b hb => ?_, fun j hj b hb => ?_, fun b hb => ?_⟩
  · rw [h.exact b hb]
    have := hrefs b
    omega
  · rw [hrefs]
    exact h.owned b hb
  · obtain rfl | hji := eq_or_ne j i
    · rw [update_self] at hb
      cases hb
    · rw [update_of_ne hji] at hb
      exact h.placed j hj b hb
  · obtain rfl | hb := mem_cons.mp hb
    · exact h.placed i hi b hsome
    · exact h.heldLive b hb

end Counted

end Refcount
