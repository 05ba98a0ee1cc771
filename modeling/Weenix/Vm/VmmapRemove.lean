/-
# What `vmmap_remove` removes

The four cases of the comment in `vmmap.c` do not cover the eight ways an area can lie to the
range, and the first of them hands out an area that is not initialised.  What is left is
`Handled`: the call does what it should exactly when every area that meets the range lies inside
it, or starts before it and ends strictly inside.

* The loop over areas none of which contains the range in its interior is `filterMap (cut lo hi)`
  (`removeLoop_append`), whatever the environment supplies.
* An area that does contain the range is the only one that meets it, and `split_result` says what
  the call leaves.
-/
import Weenix.Vm.Vmmap

namespace Weenix.Vm

open List Option Vmarea

variable {map map' : List Vmarea} {hi lo n passed : Nat}

/-! ## 1. Well-formed maps and what they map -/

/-- Areas sorted by start, non-empty and pairwise disjoint. -/
structure WellFormed (map : List Vmarea) : Prop where
  nonempty : ∀ vma ∈ map, vma.vmaStart < vma.vmaEnd
  sorted : map.Pairwise fun a b => a.vmaEnd ≤ b.vmaStart

/-- What a page is mapped to: the object, the page of the object, protection and flags. -/
def resolve (map : List Vmarea) (vfn : Nat) : Option (Nat × Nat × Nat × Nat) :=
  (vmmapLookup map vfn).map fun vma => (vma.vmaObj, vma.pagenum vfn, vma.vmaProt, vma.vmaFlags)

/-- `map'` is `map` with the pages `[lo, hi)` gone and every other page as it was. -/
structure Removed (lo hi : Nat) (map map' : List Vmarea) : Prop where
  wellFormed : WellFormed map'
  inside : ∀ vfn, lo ≤ vfn → vfn < hi → vmmapLookup map' vfn = none
  outside : ∀ vfn, vfn < lo ∨ hi ≤ vfn → resolve map' vfn = resolve map vfn

/-- The area has a page of the range. -/
def Meets (lo hi : Nat) (vma : Vmarea) : Prop := vma.vmaStart < hi ∧ lo < vma.vmaEnd

/-- The two positions the code treats as it should. -/
def Handled (lo hi : Nat) (vma : Vmarea) : Prop :=
  lo ≤ vma.vmaStart ∧ vma.vmaEnd ≤ hi ∨ vma.vmaStart < lo ∧ lo < vma.vmaEnd ∧ vma.vmaEnd < hi

/-- The range lies in the interior of the area: the first case. -/
def Interior (lo hi : Nat) (vma : Vmarea) : Prop := vma.vmaStart < lo ∧ hi < vma.vmaEnd
deriving Decidable

/-! ## 2. The cases that keep or drop an area -/

/-- What is left of an area that is not split. -/
def cut (lo hi : Nat) (vma : Vmarea) : Option Vmarea :=
  if lo ≤ vma.vmaStart ∧ vma.vmaEnd ≤ hi then none
  else if vma.vmaStart < lo ∧ lo < vma.vmaEnd ∧ vma.vmaEnd < hi then some { vma with vmaEnd := lo }
  else some vma

section
variable {lo hi : Nat} {vma vma' : Vmarea}

/-- The page number the third case reads is never used: the fourth case drops the area. -/
theorem removeTail_kept (pagenumAt : Nat → Nat) (hlt : lo < hi) (passed : Bool) :
    (removeTail pagenumAt lo hi vma passed).1 = cut lo hi vma := by
  unfold removeTail cut
  by_cases h2 : vma.vmaStart < lo ∧ vma.vmaEnd < hi ∧ lo < vma.vmaEnd
  · have h3 : ¬ (lo ≤ vma.vmaStart ∧ vma.vmaEnd ≤ hi) := by omega
    have h4 : ¬ (lo < vma.vmaStart ∧ lo < hi ∧ vma.vmaStart < hi) := by omega
    have h5 : ¬ (lo ≤ vma.vmaStart ∧ lo ≤ hi) := by omega
    simp only [if_pos h2, if_neg h3, if_neg h4, if_neg h5]
    rw [if_pos ⟨h2.1, h2.2.2, h2.2.1⟩]
  · have h3 : ¬ (vma.vmaStart < lo ∧ lo < vma.vmaEnd ∧ vma.vmaEnd < hi) := by omega
    simp only [if_neg h2, if_neg h3]
    by_cases h4 : lo < vma.vmaStart ∧ vma.vmaEnd < hi ∧ vma.vmaStart < hi
    · have h5 : lo ≤ vma.vmaStart ∧ vma.vmaEnd ≤ hi := by omega
      have h6 : lo ≤ hi ∧ vma.vmaEnd ≤ hi := by omega
      simp only [if_pos h4, if_pos h5, if_pos h6]
    · simp only [if_neg h4]
      split <;> rfl

theorem cut_of_not_meets (hne : vma.vmaStart < vma.vmaEnd) (h : ¬ Meets lo hi vma) :
    cut lo hi vma = some vma := by
  unfold Meets at h
  unfold cut
  rw [if_neg (by omega), if_neg (by omega)]

theorem cut_of_not_handled (h : ¬ Handled lo hi vma) : cut lo hi vma = some vma := by
  unfold Handled at h
  unfold cut
  rw [if_neg (by omega), if_neg (by omega)]

/-- What `cut` keeps of an area: the same start and data, and no later end. -/
theorem cut_eq_some (h : cut lo hi vma = some vma') : vma' = vma ∧ ¬ Handled lo hi vma ∨
      vma.vmaStart < lo ∧ lo < vma.vmaEnd ∧ vma.vmaEnd < hi ∧ vma' = { vma with vmaEnd := lo } := by
  unfold cut at h
  unfold Handled
  split at h
  · cases h
  · split at h
    · rename_i h2
      cases h
      exact .inr ⟨h2.1, h2.2.1, h2.2.2, rfl⟩
    · cases h
      exact .inl ⟨rfl, by omega⟩

/-- Outside the range an area covers what its remainder covers. -/
theorem cut_covers {vfn : Nat} (hv : vfn < lo ∨ hi ≤ vfn) :
    (cut lo hi vma).any (·.covers vfn) = vma.covers vfn := by
  unfold cut
  rw [Bool.eq_iff_iff]
  split
  · simp
    omega
  · split
    · simp
      omega
    · simp

end

/-! ## 3. The loop without a split -/

/-- **Areas that do not contain the range are cut one by one**, whatever `vmarea_alloc` and the
resident pages hold. -/
theorem removeLoop_append (fresh : Option Vmarea) (pagenumAt : Nat → Nat)
    (hlt : lo < hi) : ∀ (l : List Vmarea) (fuel : Nat) (passed : Bool) (before rest : List Vmarea),
    (∀ vma ∈ l, vma.vmaStart < vma.vmaEnd) → (∀ vma ∈ l, ¬ Interior lo hi vma) →
    ∃ passed', removeLoop fresh pagenumAt lo hi (l.length + fuel) passed before (l ++ rest)
      = removeLoop fresh pagenumAt lo hi fuel passed' (before ++ l.filterMap (cut lo hi)) rest
  | [], fuel, passed, before, rest, _, _ => by
    refine ⟨passed, ?_⟩
    rw [length_nil, Nat.zero_add, filterMap_nil, append_nil]
    rfl
  | vma :: l, fuel, passed, before, rest, hne, hin => by
    obtain ⟨passed', hp⟩ := removeLoop_append fresh pagenumAt hlt l fuel
      (removeTail pagenumAt lo hi vma passed).2 (before ++ (cut lo hi vma).toList) rest
      (fun v hv => hne v (.tail _ hv)) (fun v hv => hin v (.tail _ hv))
    refine ⟨passed', ?_⟩
    have hno : ¬ (vma.vmaStart < lo ∧ hi < vma.vmaEnd) := hin vma (.head _)
    have hkept := @removeTail_kept lo hi vma pagenumAt hlt passed
    rw [length_cons, Nat.add_right_comm, cons_append]
    simp only [removeLoop, if_neg hno, hkept]
    rw [hp, append_assoc]
    congr 2
    rw [filterMap_cons]
    cases cut lo hi vma <;> rfl

/-- The whole call, when no area contains the range in its interior. -/
theorem vmmapRemove_eq (fresh : Option Vmarea) (pagenumAt : Nat → Nat) (hn : 0 < n)
    (hwrap : lo + n < 2 ^ 32)
    (hne : ∀ vma ∈ map, vma.vmaStart < vma.vmaEnd) (hin : ∀ vma ∈ map, ¬ Interior lo (lo + n) vma) :
    ∃ passed, vmmapRemove fresh pagenumAt map lo n
      = .ok (passed, map.filterMap (cut lo (lo + n))) := by
  obtain ⟨passed', h⟩ := removeLoop_append fresh pagenumAt (by omega : lo < lo + n) map
    (map.length + 1) false [] [] hne hin
  refine ⟨passed'.toNat, ?_⟩
  rw [append_nil, nil_append, ← Nat.add_assoc, ← Nat.two_mul] at h
  rw [vmmapRemove, Nat.mod_eq_of_lt hwrap, h]
  rfl

/-! ## 4. The result when every area is treated as it should -/

/-- **Cutting removes exactly the range.** -/
theorem removed_cut (hwf : WellFormed map) (hh : ∀ vma ∈ map, Meets lo hi vma → Handled lo hi vma) :
    Removed lo hi map (map.filterMap (cut lo hi)) := by
  refine ⟨⟨?_, ?_⟩, ?_, ?_⟩
  · intro vma' hv'
    obtain ⟨vma, hv, hcut⟩ := mem_filterMap.mp hv'
    obtain ⟨rfl, -⟩ | ⟨h1, -, -, rfl⟩ := cut_eq_some hcut
    · exact hwf.nonempty vma' hv
    · exact h1
  · rw [pairwise_filterMap]
    refine hwf.sorted.imp fun {a b} hab a' ha' b' hb' => ?_
    obtain ⟨rfl, -⟩ | ⟨-, h1, -, rfl⟩ := cut_eq_some ha' <;>
      obtain ⟨rfl, -⟩ | ⟨-, -, -, rfl⟩ := cut_eq_some hb'
    · exact hab
    · exact hab
    · exact Nat.le_trans h1.le hab
    · exact Nat.le_trans h1.le hab
  · intro vfn h1 h2
    rw [lookup_eq_none]
    rintro vma' hv' ⟨h3, h4⟩
    obtain ⟨vma, hv, hcut⟩ := mem_filterMap.mp hv'
    obtain ⟨rfl, hnot⟩ | ⟨-, -, -, rfl⟩ := cut_eq_some hcut
    · exact hnot (hh vma' hv ⟨by omega, by omega⟩)
    · simp only at h3
      omega
  · intro vfn hv
    have hfind : vmmapLookup (map.filterMap (cut lo hi)) vfn =
        (vmmapLookup map vfn).bind (cut lo hi) := by
      rw [vmmapLookup, vmmapLookup, find?_filterMap]
      congr 1
      exact congrArg (find? · map) (funext fun vma => cut_covers hv)
    rw [resolve, resolve, hfind]
    cases hl : vmmapLookup map vfn with
    | none => rfl
    | some vma =>
      obtain ⟨-, hcov⟩ := of_lookup_eq_some hl
      rw [← cut_covers hv] at hcov
      rw [bind_some]
      cases hc : cut lo hi vma with
      | none =>
        rw [hc] at hcov
        cases hcov
      | some vma' =>
        obtain ⟨rfl, -⟩ | ⟨-, -, -, rfl⟩ := cut_eq_some hc <;> rfl

/-- **The call removes the range** if every area that meets it is handled. -/
theorem vmmapRemove_removed (hwf : WellFormed map) (hn : 0 < n) (hhigh : lo + n ≤ userMemHigh)
    (hh : ∀ vma ∈ map, Meets lo (lo + n) vma → Handled lo (lo + n) vma) (fresh : Option Vmarea)
    (pagenumAt : Nat → Nat) : ∃ passed map',
      vmmapRemove fresh pagenumAt map lo n = .ok (passed, map') ∧ Removed lo (lo + n) map map' := by
  have hwrap : userMemHigh = 0xc0000 := rfl
  have hint : ∀ a ∈ map, ¬ Interior lo (lo + n) a := by
    intro a ha hin
    unfold Interior at hin
    have := hh a ha ⟨by omega, by omega⟩
    unfold Handled at this
    omega
  obtain ⟨passed, hrun⟩ := vmmapRemove_eq fresh pagenumAt hn (by omega) hwf.nonempty hint
  exact ⟨passed, _, hrun, removed_cut hwf hh⟩

/-! ## 5. The split -/

section
variable {pagenumAt : Nat → Nat} {stale vma : Vmarea} {pre post : List Vmarea} {lo hi : Nat}

/-- In a well-formed map, the areas around one that contains the range do not meet it. -/
theorem around_interior (hwf : WellFormed (pre ++ vma :: post)) (hin : Interior lo hi vma) :
    (∀ a ∈ pre, a.vmaEnd < lo) ∧ ∀ a ∈ post, hi < a.vmaStart ∧ vma.vmaEnd ≤ a.vmaStart := by
  obtain ⟨-, h2, h3⟩ := pairwise_append.mp hwf.sorted
  unfold Interior at hin
  constructor
  · intro a ha
    have := h3 a ha vma (.head _)
    omega
  · intro a ha
    have := (pairwise_cons.mp h2).1 a ha
    omega

theorem untouched {l : List Vmarea} (hlt : lo < hi) (hne : ∀ a ∈ l, a.vmaStart < a.vmaEnd)
    (hnot : ∀ a ∈ l, ¬ Meets lo hi a) :
    (∀ a ∈ l, ¬ Interior lo hi a) ∧ l.filterMap (cut lo hi) = l := by
  constructor
  · intro a ha hin
    refine hnot a ha ?_
    unfold Interior at hin
    unfold Meets
    omega
  · rw [filterMap_congr (g := some) fun a ha => cut_of_not_meets (hne a ha) (hnot a ha)]
    exact filterMap_some

/-- The new area goes right behind the area it was split from. -/
theorem insertSplit_behind {newvma : Vmarea} {before rest : List Vmarea}
    (hbefore : ∀ a ∈ before, a.vmaStart ≤ newvma.vmaStart)
    (hrest : ∀ a ∈ rest, newvma.vmaStart < a.vmaStart ∧ newvma.vmaEnd ≤ a.vmaStart) :
    insertSplit newvma before rest = (before ++ [newvma], rest) := by
  have hany : before.any (insertsBefore newvma) = false := by
    rw [List.any_eq_false]
    intro a ha hb
    have := hbefore a ha
    simp only [insertsBefore, Bool.and_eq_true, decide_eq_true_eq] at hb
    omega
  unfold insertSplit
  rw [hany]
  cases rest with
  | nil => rfl
  | cons a rest =>
    obtain ⟨h1, h2⟩ := hrest a (.head _)
    have hb : insertsBefore newvma a = true := by simp [insertsBefore, h1, h2]
    simp only [hb, if_true]

/-- **What a split leaves**: the new area has its boundaries from the call and everything else
from the slab, and the offset of the old one is overwritten. -/
theorem split_result (hlt : lo < hi) (hwf : WellFormed (pre ++ vma :: post))
    (hin : Interior lo hi vma)
    (h : removeLoop (some stale) pagenumAt lo hi (2 * (pre ++ vma :: post).length + 1) false []
      (pre ++ vma :: post) = .ok (passed, map')) :
    map' = pre ++ { vma with vmaEnd := lo, vmaOff := pagenumAt stale.vmaObj } ::
      { stale with vmaStart := hi, vmaEnd := vma.vmaEnd } :: post := by
  obtain ⟨hpre, hpost⟩ := around_interior hwf hin
  have hpn : ∀ a ∈ pre, a.vmaStart < a.vmaEnd := fun a ha =>
    hwf.nonempty a (mem_append_left _ ha)
  have hqn : ∀ a ∈ post, a.vmaStart < a.vmaEnd := fun a ha =>
    hwf.nonempty a (mem_append_right _ (.tail _ ha))
  obtain ⟨hpi, hpc⟩ := untouched hlt hpn fun a ha hm => by
    have := hpre a ha
    unfold Meets at hm
    omega
  obtain ⟨hqi, hqc⟩ := untouched hlt hqn fun a ha hm => by
    have := hpost a ha
    unfold Meets at hm
    omega
  -- the areas before, the split, the areas behind
  obtain ⟨p1, h1⟩ := removeLoop_append (some stale) pagenumAt hlt pre
    (pre.length + (2 * (post.length + 1)) + 1) false [] (vma :: post) hpn hpi
  have hfuel : 2 * (pre ++ vma :: post).length + 1 =
      pre.length + (pre.length + 2 * (post.length + 1) + 1) := by
    rw [length_append, length_cons]
    omega
  rw [hfuel, h1, hpc, nil_append] at h
  simp only [removeLoop] at h
  rw [if_pos (show vma.vmaStart < lo ∧ hi < vma.vmaEnd from hin)] at h
  obtain ⟨-, -, h⟩ := bind_eq_ok h
  rw [insertSplit_behind] at h
  · obtain ⟨p2, h2⟩ :=
      removeLoop_append (some stale) pagenumAt hlt post (pre.length + post.length + 2) true
      (pre ++ [{ vma with vmaEnd := lo, vmaOff := pagenumAt stale.vmaObj }] ++
        [{ stale with vmaStart := hi, vmaEnd := vma.vmaEnd }]) [] hqn hqi
    have hfuel2 :
      pre.length + 2 * (post.length + 1) = post.length + (pre.length + post.length + 2) := by omega
    rw [append_nil, hqc] at h2
    simp only [hfuel2] at h
    rw [h2] at h
    cases h
    simp
  · intro a ha
    unfold Interior at hin
    obtain hp | hp := mem_append.mp ha
    · have := hpre a hp
      have := hpn a hp
      simp only
      omega
    · rw [mem_singleton.mp hp]
      simp only
      omega
  · exact hpost

/-- **A split loses the mapping behind the range**, for a slab object that held another object. -/
theorem split_not_removed (hn : 0 < n) (hwrap : lo + n < 2 ^ 32)
    (hwf : WellFormed (pre ++ vma :: post)) (hin : Interior lo (lo + n) vma)
    (hobj : stale.vmaObj ≠ vma.vmaObj)
    (h : vmmapRemove (some stale) pagenumAt (pre ++ vma :: post) lo n = .ok (passed, map')) :
    ¬ Removed lo (lo + n) (pre ++ vma :: post) map' := by
  intro hrem
  obtain ⟨hpre, -⟩ := around_interior hwf hin
  rw [vmmapRemove, Nat.mod_eq_of_lt hwrap] at h
  have hmap := split_result (by omega) hwf hin h
  have hout := hrem.outside (lo + n) (.inr le_rfl)
  unfold Interior at hin
  have hnone : pre.find? (·.covers (lo + n)) = none := by
    rw [find?_eq_none]
    intro a ha hc
    have := hpre a ha
    rw [covers_iff] at hc
    omega
  have hold : vmmapLookup (pre ++ vma :: post) (lo + n) = some vma := by
    rw [vmmapLookup, find?_append, hnone, none_or, find?_cons_of_pos]
    exact covers_iff.mpr ⟨hin.2, by omega⟩
  have hnew : vmmapLookup map' (lo + n) =
      some { stale with vmaStart := lo + n, vmaEnd := vma.vmaEnd } := by
    rw [hmap, vmmapLookup, find?_append, hnone, none_or, find?_cons_of_neg, find?_cons_of_pos]
    · exact covers_iff.mpr ⟨hin.2, le_rfl⟩
    · rw [covers_iff]
      simp only
      omega
  rw [resolve, resolve, hold, hnew] at hout
  simp only [map_some, some.injEq, Prod.mk.injEq] at hout
  exact hobj hout.1

end

/-! ## 6. The result -/

/-- **`vmmap_remove` removes the range exactly when every area that meets it is handled.**
For a well-formed map and a range in user space, the call returns a map without the pages of the
range and with every other page as before, whatever a new area and the resident pages hold, if
and only if each area that meets the range lies inside it or starts before it and ends strictly
inside it. -/
theorem vmmapRemove_iff {map : List Vmarea} {lopage npages : Nat} (hwf : WellFormed map)
    (hn : 0 < npages) (hhigh : lopage + npages ≤ userMemHigh) :
    (∀ stale pagenumAt, ∃ passed map',
      vmmapRemove (some stale) pagenumAt map lopage npages = .ok (passed, map') ∧
        Removed lopage (lopage + npages) map map') ↔
    ∀ vma ∈ map, Meets lopage (lopage + npages) vma → Handled lopage (lopage + npages) vma := by
  have hwrap : lopage + npages < 2 ^ 32 := by
    have : userMemHigh = 0xc0000 := rfl
    omega
  constructor
  · intro h vma hv hm
    by_cases hint : ∃ a ∈ map, Interior lopage (lopage + npages) a
    · obtain ⟨a, ha, hin⟩ := hint
      obtain ⟨pre, post, rfl⟩ := append_of_mem ha
      obtain ⟨passed, map', hrun, hrem⟩ := h { a with vmaObj := a.vmaObj + 1 } id
      exact absurd hrem (split_not_removed hn hwrap hwf hin (Nat.succ_ne_self _) hrun)
    · by_contra hnot
      obtain ⟨passed, hrun⟩ :=
        vmmapRemove_eq (some vma) id hn hwrap hwf.nonempty fun a ha hin => hint ⟨a, ha, hin⟩
      obtain ⟨passed', map', hrun', hrem⟩ := h vma id
      rw [hrun] at hrun'
      cases hrun'
      have hmem : vma ∈ map.filterMap (cut lopage (lopage + npages)) :=
        mem_filterMap.mpr ⟨vma, hv, cut_of_not_handled hnot⟩
      have hne := hwf.nonempty vma hv
      unfold Meets at hm
      refine lookup_eq_none.mp (hrem.inside (max lopage vma.vmaStart) ?_ ?_) vma hmem ⟨?_, ?_⟩ <;>
        omega
  · exact fun hh stale pagenumAt => vmmapRemove_removed hwf hn hhigh hh (some stale) pagenumAt

/-- An area that the range cuts at its end, one inside the range and one behind it. -/
def threeAreas : List Vmarea :=
  [⟨0x500, 0x510, 0, 3, 2, 7⟩, ⟨0x510, 0x520, 0, 1, 2, 8⟩, ⟨0x600, 0x610, 4, 3, 1, 9⟩]

theorem vmmapRemove_three : WellFormed threeAreas ∧ 0x508 + 0x20 ≤ userMemHigh ∧
    (∀ vma ∈ threeAreas, Meets 0x508 0x528 vma → Handled 0x508 0x528 vma) ∧
    ∀ stale pagenumAt, ∃ passed map',
      vmmapRemove (some stale) pagenumAt threeAreas 0x508 0x20 = .ok (passed, map') ∧
        Removed 0x508 0x528 threeAreas map' := by
  have hwf : WellFormed threeAreas := ⟨by decide, by decide⟩
  have hh : ∀ vma ∈ threeAreas, Meets 0x508 0x528 vma → Handled 0x508 0x528 vma := by
    simp [threeAreas, Meets, Handled]
  exact ⟨hwf, by decide, hh, (vmmapRemove_iff hwf (by decide) (by decide)).mpr hh⟩

/-- **The range that ends with the area is not removed.**  Unmapping the second half of one area
changes nothing: neither the second case (`vma_end < lopage + npages`) nor the fourth applies. -/
theorem vmmapRemove_second_half :
    WellFormed [⟨0x500, 0x510, 0, 3, 2, 7⟩] ∧ 0x508 + 8 ≤ userMemHigh ∧
    (∀ fresh pagenumAt, vmmapRemove fresh pagenumAt [⟨0x500, 0x510, 0, 3, 2, 7⟩] 0x508 8
      = .ok (0, [⟨0x500, 0x510, 0, 3, 2, 7⟩])) ∧
    vmmapLookup [⟨0x500, 0x510, 0, 3, 2, 7⟩] 0x508 = some ⟨0x500, 0x510, 0, 3, 2, 7⟩ ∧
    ¬ Removed 0x508 0x510 [⟨0x500, 0x510, 0, 3, 2, 7⟩] [⟨0x500, 0x510, 0, 3, 2, 7⟩] := by
  refine ⟨⟨by decide, by decide⟩, by decide, fun fresh pagenumAt => rfl, rfl, fun h => ?_⟩
  exact absurd (h.inside 0x508 (by decide) (by decide)) (by decide)

end Weenix.Vm
