/-
# What a removal leaves of the areas

Whatever the range and the map, an area that `vmmap_remove` leaves is part of one there was, with
the same protection, or is the new area of a split, whose protection comes from the slab.  The
second kind needs an area with the range in its interior.
-/
import Weenix.Vm.VmmapInsert

namespace Weenix.Vm

open List

/-! ## 1. Parts of areas -/

/-- The same protection, and no other pages. -/
def Vmarea.PartOf (a b : Vmarea) : Prop :=
  a.vmaProt = b.vmaProt ∧ ∀ vfn, a.covers vfn = true → b.covers vfn = true

theorem Vmarea.PartOf.refl (a : Vmarea) : a.PartOf a := ⟨rfl, fun _ h => h⟩

section
variable {lo hi : Nat} {vma vma' : Vmarea}

theorem partOf_of_end {off : Nat} (h : lo ≤ vma.vmaEnd) :
    Vmarea.PartOf { vma with vmaEnd := lo, vmaOff := off } vma := by
  refine ⟨rfl, fun vfn hc => ?_⟩
  rw [Vmarea.covers_iff] at hc ⊢
  exact ⟨hc.1.trans_le h, hc.2⟩

/-- The other tests of the loop keep a part of the area.  The third one leaves an area without pages
if the fourth does not drop it. -/
theorem removeTail_partOf {pagenumAt : Nat → Nat} {passed : Bool} (hlohi : lo ≤ hi)
    (h : (removeTail pagenumAt lo hi vma passed).1 = some vma') : vma'.PartOf vma := by
  unfold removeTail at h
  by_cases h2 : vma.vmaStart < lo ∧ vma.vmaEnd < hi ∧ lo < vma.vmaEnd
  · have h3 : ¬ (lo < vma.vmaStart ∧ lo < hi ∧ vma.vmaStart < hi) := by omega
    have h4 : ¬ (lo ≤ vma.vmaStart ∧ lo ≤ hi) := by omega
    simp only [if_pos h2, if_neg h3, if_neg h4] at h
    cases h
    exact partOf_of_end (by omega)
  · simp only [if_neg h2] at h
    by_cases h3 : lo < vma.vmaStart ∧ vma.vmaEnd < hi ∧ vma.vmaStart < hi
    · have h4 : lo ≤ hi ∧ vma.vmaEnd ≤ hi := by omega
      simp only [if_pos h3, if_pos h4] at h
      cases h
    · simp only [if_neg h3] at h
      split at h
      · cases h
      · cases h
        exact .refl _

theorem insertSplit_perm (newvma : Vmarea) (before rest : List Vmarea) :
    ((insertSplit newvma before rest).1 ++ (insertSplit newvma before rest).2).Perm
      (newvma :: (before ++ rest)) := by
  unfold insertSplit
  split
  case h_1 => exact (insertArea_perm newvma before).append_right _
  case h_2 =>
    simp only [append_nil]
    exact perm_append_singleton newvma before
  case h_3 vma rest _ =>
    split
    · rw [append_assoc]
      exact perm_middle
    · refine List.Perm.trans ?_ perm_middle
      refine List.Perm.append_left before ?_
      exact ((insertArea_perm newvma rest).cons vma).trans (.swap newvma vma rest)

theorem mem_insertSplit {newvma a : Vmarea} {before rest : List Vmarea} :
    a ∈ (insertSplit newvma before rest).1 ++ (insertSplit newvma before rest).2 ↔
      a = newvma ∨ a ∈ before ++ rest := by
  rw [(insertSplit_perm newvma before rest).mem_iff, mem_cons]

/-! ## 2. The loop -/

variable {fresh : Option Vmarea} {pagenumAt : Nat → Nat}

/-- **What holds of parts of areas and of the new area of a split stays true of all areas.** -/
theorem removeLoop_forall {Q : Vmarea → Prop} (hlohi : lo ≤ hi)
    (hpart : ∀ a b : Vmarea, a.PartOf b → Q b → Q a)
    (hnew : ∀ stale, fresh = some stale → ∀ vlow vhigh,
      Q { stale with vmaStart := vlow, vmaEnd := vhigh }) :
    ∀ (fuel : Nat) {passed : Bool} {before rest : List Vmarea} {r : Nat × List Vmarea},
      (∀ a ∈ before ++ rest, Q a) →
      removeLoop fresh pagenumAt lo hi fuel passed before rest = .ok r → ∀ a ∈ r.2, Q a := by
  intro fuel passed before rest r hall h
  fun_induction removeLoop fresh pagenumAt lo hi fuel passed before rest with
  | case1 => cases h
  | case2 =>
    cases h
    simpa using hall
  | case3 fuel passed before vma rest hin =>
    cases h
    simp only [forall_mem_append, forall_mem_cons] at hall ⊢
    exact ⟨hall.1, hpart _ _ (partOf_of_end (by omega)) hall.2.1, hall.2.2⟩
  | case4 fuel passed before vma rest hin stale hstale newvma part ih =>
    subst hstale
    have hparts : ∀ a ∈ before ++ [part] ++ rest, Q a := by
      simp only [forall_mem_append, forall_mem_cons] at hall ⊢
      exact ⟨⟨hall.1, hpart _ _ (partOf_of_end (by omega)) hall.2.1, nofun⟩, hall.2.2⟩
    obtain ⟨_, -, h⟩ := bind_eq_ok h
    refine ih _ _ (fun a ha => ?_) h
    obtain rfl | ha := mem_insertSplit.mp ha
    · exact hnew stale rfl hi vma.vmaEnd
    · exact hparts a ha
  | case5 fuel passed before vma rest hout kept passed' htail ih =>
    refine ih ?_ h
    simp only [forall_mem_append, forall_mem_cons] at hall ⊢
    refine ⟨⟨hall.1, fun a ha => ?_⟩, hall.2.2⟩
    have hkept : (removeTail pagenumAt lo hi vma passed).1 = some a :=
      htail ▸ Option.mem_toList.mp ha
    exact hpart _ _ (removeTail_partOf hlohi hkept) hall.2.1

/-- Without a split, what `vmarea_alloc` returns does not matter. -/
theorem removeLoop_fresh (fresh' : Option Vmarea) (fuel : Nat) (passed : Bool)
    (before : List Vmarea)
    {rest : List Vmarea} (hin : ∀ a ∈ rest, ¬ Interior lo hi a) :
    removeLoop fresh pagenumAt lo hi fuel passed before rest
      = removeLoop fresh' pagenumAt lo hi fuel passed before rest := by
  fun_induction removeLoop fresh' pagenumAt lo hi fuel passed before rest with
  | case1 | case2 => rfl
  | case3 fuel passed before vma rest hvma | case4 fuel passed before vma rest hvma =>
    exact absurd hvma (hin vma (.head _))
  | case5 fuel passed before vma rest hno kept passed' htail ih =>
    simp only [removeLoop, if_neg hno, htail]
    exact ih fun a ha => hin a (.tail _ ha)

end

/-- The same for the whole call: either the slab's area is good, or no area is split. -/
theorem vmmapRemove_forall {Q : Vmarea → Prop} (hpart : ∀ a b : Vmarea, a.PartOf b → Q b → Q a)
    {fresh : Option Vmarea} {pagenumAt : Nat → Nat} {map map' : List Vmarea}
    {lopage npages passed : Nat} (hwrap : lopage ≤ (lopage + npages) % 2 ^ 32)
    (hsplit : (∀ stale, fresh = some stale →
      ∀ vlow vhigh, Q { stale with vmaStart := vlow, vmaEnd := vhigh }) ∨
      ∀ vma ∈ map, ¬ Interior lopage ((lopage + npages) % 2 ^ 32) vma)
    (hmap : ∀ vma ∈ map, Q vma)
    (h : vmmapRemove fresh pagenumAt map lopage npages = .ok (passed, map')) :
    ∀ vma ∈ map', Q vma := by
  unfold vmmapRemove at h
  obtain hnew | hin := hsplit
  · exact removeLoop_forall hwrap hpart hnew _ (by simpa using hmap) h
  · rw [removeLoop_fresh none _ _ _ hin] at h
    exact removeLoop_forall hwrap hpart (fun _ hnone => by cases hnone) _ (by simpa using hmap) h

end Weenix.Vm
