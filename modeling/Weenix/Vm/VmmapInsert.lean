/-
# Inserting an area

`vmmap_insert` puts an area before the first one that starts after it and does not meet it.  In a
well-formed map, and for an area that meets none of its areas, that keeps the map sorted.

Insertions and removals together make a map a function of pages (`map_is_function_of_pages`).
-/
import Mathlib.Data.List.Perm.Basic
import Weenix.Lib.Run
import Weenix.Vm.VmmapRemove

namespace Weenix.Vm

open List

/-- The areas have no page in common. -/
def Vmarea.Disjoint (a b : Vmarea) : Prop := a.vmaEnd ≤ b.vmaStart ∨ b.vmaEnd ≤ a.vmaStart

theorem insertArea_perm (newvma : Vmarea) : ∀ map :
    List Vmarea, (insertArea newvma map).Perm (newvma :: map)
  | [] => .refl _
  | vma :: rest => by
    rw [insertArea]
    split
    · exact .refl _
    · exact ((insertArea_perm newvma rest).cons vma).trans (.swap newvma vma rest)

theorem mem_insertArea {newvma a : Vmarea} {map : List Vmarea} :
    a ∈ insertArea newvma map ↔ a = newvma ∨ a ∈ map := by
  rw [(insertArea_perm newvma map).mem_iff, mem_cons]

/-- **An insertion keeps the map well-formed.** -/
theorem insertArea_wellFormed (newvma : Vmarea) (hne : newvma.vmaStart < newvma.vmaEnd) :
    ∀ {m : List Vmarea}, WellFormed m → (∀ vma ∈ m, newvma.Disjoint vma) →
      WellFormed (insertArea newvma m)
  | [], _, _ => ⟨by simpa [insertArea] using hne, by simp [insertArea]⟩
  | vma :: rest, hw, hd => by
    have hcons := pairwise_cons.mp hw.sorted
    have hvma := hw.nonempty vma (.head _)
    have hd0 := hd vma (.head _)
    have hnonempty : ∀ x ∈ insertArea newvma (vma :: rest), x.vmaStart < x.vmaEnd := by
      intro x hx
      obtain rfl | hx := mem_insertArea.mp hx
      · exact hne
      · exact hw.nonempty x hx
    refine ⟨hnonempty, ?_⟩
    rw [insertArea]
    split
    · -- all that follow start after `vma` ends
      rename_i hb
      simp only [insertsBefore, Bool.and_eq_true, decide_eq_true_eq] at hb
      refine pairwise_cons.mpr ⟨fun x hx => ?_, hw.sorted⟩
      obtain rfl | hx := mem_cons.mp hx
      · exact hb.2
      · have := hcons.1 x hx
        omega
    · rename_i hb
      simp only [insertsBefore, Bool.and_eq_true, decide_eq_true_eq] at hb
      have ih := insertArea_wellFormed newvma hne (m := rest) ⟨fun x hx =>
        hw.nonempty x (.tail _ hx), hcons.2⟩
        fun x hx => hd x (.tail _ hx)
      refine pairwise_cons.mpr ⟨fun x hx => ?_, ih.sorted⟩
      obtain rfl | hx := mem_insertArea.mp hx
      · obtain h | h := hd0 <;> omega
      · exact hcons.1 x hx

/-- A page is found in the new area if it is one of its pages, and where it was before if not. -/
theorem lookup_insertArea {newvma : Vmarea} (vfn : Nat) : ∀ {map : List Vmarea},
    (∀ vma ∈ map, newvma.Disjoint vma) → vmmapLookup (insertArea newvma map) vfn =
      if newvma.covers vfn then some newvma else vmmapLookup map vfn
  | [], _ => by
    rw [insertArea, vmmapLookup, find?_cons]
    cases newvma.covers vfn <;> rfl
  | vma :: rest, hd => by
    have ih := lookup_insertArea vfn fun x hx => hd x (.tail _ hx)
    have hvma := hd vma (.head _)
    unfold vmmapLookup at ih ⊢
    rw [insertArea]
    split
    · rw [find?_cons]
      cases newvma.covers vfn <;> rfl
    · rw [find?_cons, find?_cons, ih]
      cases hc : vma.covers vfn with
      | false => rfl
      | true =>
        -- the areas are disjoint, so the page is not one of the new area's
        have hnot : ¬ newvma.covers vfn = true := by
          rw [Vmarea.covers_iff] at hc ⊢
          obtain h | h := hvma <;> omega
        exact (if_neg hnot).symm

def Vmarea.InUser (vma : Vmarea) : Prop := userMemLow ≤ vma.vmaStart ∧ vma.vmaEnd ≤ userMemHigh

theorem vmmapInsert_eq {map : List Vmarea} {newvma : Vmarea} (hne : newvma.vmaStart < newvma.vmaEnd)
    (hnew : newvma.InUser) : vmmapInsert map newvma = .ok (insertArea newvma map) := by
  rw [vmmapInsert, insertChecks, kassert_of (decide_eq_true hne), ok_bind, kassert_of]
  · rfl
  · simpa [Vmarea.InUser] using hnew

/-- **Insertion and cloning.**  The new area is found for its pages and nothing else is different; a
clone has the same areas in the same order. -/
theorem insert_clone {map : List Vmarea} (hw : WellFormed map) :
    (∀ newvma : Vmarea, newvma.vmaStart < newvma.vmaEnd → newvma.InUser →
      (∀ vma ∈ map, newvma.Disjoint vma) →
      ∃ map', vmmapInsert map newvma = .ok map' ∧ WellFormed map' ∧
        ((∀ vma ∈ map, vma.InUser) → ∀ vma ∈ map', vma.InUser) ∧
        ∀ vfn, vmmapLookup map' vfn =
          if newvma.covers vfn then some newvma else vmmapLookup map vfn) ∧
    ∀ stale, WellFormed (vmmapClone stale map) ∧
      ((∀ vma ∈ map, vma.InUser) → ∀ vma ∈ vmmapClone stale map, vma.InUser) ∧
      List.Forall₂ (fun vma clone => clone = { vma with vmaObj := stale vma }) map
        (vmmapClone stale map) := by
  constructor
  · intro newvma hne hnew hd
    refine ⟨_, vmmapInsert_eq hne hnew, insertArea_wellFormed newvma hne hw hd,
      fun huser vma hvma => ?_, fun vfn => lookup_insertArea vfn hd⟩
    obtain rfl | hvma := mem_insertArea.mp hvma
    · exact hnew
    · exact huser vma hvma
  · intro stale
    refine ⟨⟨forall_mem_map.mpr hw.nonempty, pairwise_map.mpr hw.sorted⟩,
      fun huser => forall_mem_map.mpr huser, ?_⟩
    exact forall₂_map_right_iff.mpr (forall₂_same.mpr fun _ _ => rfl)

/-- An area between two others, and a clone of the two. -/
theorem insert_clone_between :
    (∃ map', vmmapInsert [⟨0x400, 0x401, 0, 3, 2, 7⟩, ⟨0x403, 0x404, 0, 3, 2, 8⟩]
      ⟨0x401, 0x403, 0, 3, 1, 9⟩ = .ok map' ∧ WellFormed map' ∧
      vmmapLookup map' 0x402 = some ⟨0x401, 0x403, 0, 3, 1, 9⟩) ∧
    WellFormed (vmmapClone (·.vmaStart) [⟨0x400, 0x401, 0, 3, 2, 7⟩,
      ⟨0x403, 0x404, 0, 3, 2, 8⟩]) := by
  have hw : WellFormed [⟨0x400, 0x401, 0, 3, 2, 7⟩, ⟨0x403, 0x404, 0, 3, 2, 8⟩] :=
    ⟨by decide, by decide⟩
  obtain ⟨hinsert, hclone⟩ := insert_clone hw
  obtain ⟨map', hmap, hw', -, hlook⟩ := hinsert ⟨0x401, 0x403, 0, 3, 1, 9⟩ (by decide)
    ⟨by decide, by decide⟩ (by simp [Vmarea.Disjoint])
  exact ⟨⟨map', hmap, hw', hlook 0x402⟩, (hclone _).1⟩

/-! ## An address space as a function of pages -/

/-- `fresh` and `pagenumAt` are what a removal finds. -/
inductive MapCall where
  | insert (newvma : Vmarea)
  | remove (fresh : Option Vmarea) (pagenumAt : Nat → Nat) (lopage npages : Nat)

def mapStep (map : List Vmarea) : MapCall → Except Halt (List Vmarea)
  | .insert newvma => vmmapInsert map newvma
  | .remove fresh pagenumAt lopage npages =>
    Prod.snd <$> vmmapRemove fresh pagenumAt map lopage npages

/-- A new area meets no other, and a removal only areas in the two positions that the code treats as
it should. -/
def MapLegal (map : List Vmarea) : MapCall → Prop
  | .insert newvma => newvma.vmaStart < newvma.vmaEnd ∧ newvma.InUser ∧ ∀ vma ∈ map,
    newvma.Disjoint vma
  | .remove _ _ lopage npages => 0 < npages ∧ lopage + npages ≤ userMemHigh ∧
    ∀ vma ∈ map, Meets lopage (lopage + npages) vma → Handled lopage (lopage + npages) vma

/-- What each page is mapped to, as `resolve` finds it. -/
abbrev PageMap := Nat → Option (Nat × Nat × Nat × Nat)

/-- What a call is for: to map some pages to the new area, or to nothing. -/
def MapCall.onPages : MapCall → PageMap → PageMap
  | .insert newvma, pages, vfn =>
    if newvma.covers vfn
      then some (newvma.vmaObj, newvma.pagenum vfn, newvma.vmaProt, newvma.vmaFlags) else pages vfn
  | .remove _ _ lopage npages, pages, vfn =>
    if lopage ≤ vfn ∧ vfn < lopage + npages then none else pages vfn

/-- **One call** returns, and does to the pages what it is for. -/
theorem mapStep_refines {map : List Vmarea} {c : MapCall} (hw : WellFormed map)
    (hc : MapLegal map c) :
    ∃ map', mapStep map c = .ok map' ∧ WellFormed map' ∧
      resolve map' = c.onPages (resolve map) := by
  cases c with
  | insert newvma =>
    obtain ⟨hne, hnew, hd⟩ := hc
    refine ⟨_, vmmapInsert_eq hne hnew, insertArea_wellFormed newvma hne hw hd,
      funext fun vfn => ?_⟩
    rw [resolve, lookup_insertArea vfn hd, MapCall.onPages]
    split <;> rfl
  | remove fresh pagenumAt lopage npages =>
    obtain ⟨hn, hhigh, hh⟩ := hc
    obtain ⟨passed, map', heq, hremoved⟩ := vmmapRemove_removed hw hn hhigh hh fresh pagenumAt
    refine ⟨map', by rw [mapStep, heq]; rfl, hremoved.wellFormed, funext fun vfn => ?_⟩
    rw [MapCall.onPages]
    split
    · rename_i hin
      rw [resolve, hremoved.inside vfn hin.1 hin.2]
      rfl
    · exact hremoved.outside vfn (by omega)

/-- The call on the map and what it is for on the pages, side by side. -/
def pagesStep (x : List Vmarea × PageMap) (c : MapCall) : Except Halt (List Vmarea × PageMap) := do
  return (← mapStep x.1 c, c.onPages x.2)

/-- **A map is a function of pages.**  However areas are inserted and ranges are removed, the map is
well-formed, a page is mapped to what the last call about it says, and the next call returns. -/
theorem map_is_function_of_pages {map : List Vmarea} {pages : PageMap}
    (hrun : Lts.Run (fun x => MapLegal x.1) pagesStep ([], fun _ => none) (map, pages)) :
    WellFormed map ∧ resolve map = pages ∧ ∀ c, MapLegal map c →
      ∃ map', mapStep map c = .ok map' := by
  have hinv := hrun.invariant (I := fun x => WellFormed x.1 ∧
    resolve x.1 = x.2) ⟨⟨by simp, .nil⟩, rfl⟩ ?_
  · obtain ⟨hw, heq⟩ := hinv
    refine ⟨hw, heq, fun c hc => ?_⟩
    obtain ⟨map', hok, -⟩ := mapStep_refines hw hc
    exact ⟨map', hok⟩
  · rintro ⟨map, pages⟩ c y ⟨hw, heq⟩ hc hstep
    obtain ⟨map', hok, hw', hpages⟩ := mapStep_refines hw hc
    rw [pagesStep, hok] at hstep
    cases hstep
    exact ⟨hw', hpages.trans (heq ▸ rfl)⟩

/-- The second half of an area and what follows it are removed. -/
theorem map_is_function_of_pages_halved : ∃ map pages,
    Lts.Run (fun x => MapLegal x.1) pagesStep ([], fun _ => none) (map, pages) ∧
    resolve map 0x401 = some (7, 1, 3, 2) ∧ resolve map 0x409 = none := by
  have hrun : Lts.Run (fun x => MapLegal x.1) pagesStep ([], fun _ => none) _ :=
    .tail (.tail .refl (a := .insert ⟨0x400, 0x410, 0, 3, 2, 7⟩) ⟨by decide,
      ⟨by decide, by decide⟩, by simp⟩ rfl)
      (a := .remove none (fun _ => 0) 0x408 0x10) ⟨by decide, by decide, by simp [insertArea,
        Handled]⟩ rfl
  refine ⟨_, _, hrun, ?_⟩
  rw [(map_is_function_of_pages hrun).2.1]
  exact ⟨rfl, rfl⟩

end Weenix.Vm
