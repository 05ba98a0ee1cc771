/-
# Address spaces (`vm/vmmap.c`)

A `vmmap_t` is the list of its areas, from `l_next` to `l_prev`.  Boundaries are page numbers.
An area's object is the number of the object.

Two things the C code leaves to the machine are arguments here:

* `vmarea_alloc` sets `vma_vmmap` and nothing else, so a new area starts with whatever the slab
  object held before (`stale`), or the allocation fails;
* the two places of `vmmap_remove` that read a page number out of an object's list of resident
  pages go through the wrong link member (`pf_link` for `pf_olink`) and do not ask whether there
  is such a page; `pagenumAt` is what they find there.

The return value of `vmmap_remove` is kept.  The effect of `mmo_ops->put` on the object is not
part of the map.
-/
import Mathlib.Algebra.Group.Nat.Defs
import Mathlib.Data.List.Basic
import Weenix.Kernel

namespace Weenix.Vm

def protRead : Nat := 1
def protWrite : Nat := 2
def protExec : Nat := 4

def mapShared : Nat := 1
def mapPrivate : Nat := 2

def efault : Int := 14

/-- `ADDR_TO_PN(USER_MEM_LOW)` -/
def userMemLow : Nat := 0x400

/-- `ADDR_TO_PN(USER_MEM_HIGH)` -/
def userMemHigh : Nat := 0xc0000

structure Vmarea where
  vmaStart : Nat
  vmaEnd : Nat
  vmaOff : Nat
  vmaProt : Nat
  vmaFlags : Nat
  vmaObj : Nat
deriving DecidableEq, Repr

/-- The test of `vmmap_lookup`. -/
def Vmarea.covers (vma : Vmarea) (vfn : Nat) : Bool := vfn < vma.vmaEnd && vma.vmaStart ≤ vfn

@[simp] theorem Vmarea.covers_iff {vma : Vmarea} {vfn : Nat} :
    vma.covers vfn = true ↔ vfn < vma.vmaEnd ∧ vma.vmaStart ≤ vfn := by
  simp [Vmarea.covers]

/-- `vfn - vma->vma_start + vma->vma_off`, on `uint32_t`. -/
def Vmarea.pagenum (vma : Vmarea) (vfn : Nat) : Nat := (vfn - vma.vmaStart + vma.vmaOff) % 2 ^ 32

def vmmapLookup (map : List Vmarea) (vfn : Nat) : Option Vmarea := map.find? (·.covers vfn)

theorem lookup_eq_none {map : List Vmarea} {vfn : Nat} :
    vmmapLookup map vfn = none ↔ ∀ vma ∈ map, ¬ (vfn < vma.vmaEnd ∧ vma.vmaStart ≤ vfn) := by
  rw [vmmapLookup, List.find?_eq_none]
  simp only [Vmarea.covers_iff]

theorem of_lookup_eq_some {map : List Vmarea} {vfn : Nat} {vma : Vmarea}
    (h : vmmapLookup map vfn = some vma) : vma ∈ map ∧ vma.covers vfn = true := by
  refine ⟨List.mem_of_find?_eq_some h, ?_⟩
  exact List.find?_some (p := fun a : Vmarea => a.covers vfn) h

/-- The test by which `vmmap_insert` chooses the area to insert before. -/
def insertsBefore (newvma vma : Vmarea) : Bool :=
  newvma.vmaStart < vma.vmaStart && newvma.vmaEnd ≤ vma.vmaStart

/-- The search and the link operation of `vmmap_insert`. -/
def insertArea (newvma : Vmarea) : List Vmarea → List Vmarea
  | [] => [newvma]
  | vma :: rest =>
    if insertsBefore newvma vma then newvma :: vma :: rest else vma :: insertArea newvma rest

/-- The `KASSERT`s of `vmmap_insert` about the area. -/
def insertChecks (newvma : Vmarea) : Except Halt Unit := do
  kassert (newvma.vmaStart < newvma.vmaEnd) "newvma->vma_start < newvma->vma_end"
  kassert (userMemLow ≤ newvma.vmaStart && newvma.vmaEnd ≤ userMemHigh)
    "ADDR_TO_PN(USER_MEM_LOW) <= newvma->vma_start && ADDR_TO_PN(USER_MEM_HIGH) >= newvma->vma_end"

def vmmapInsert (map : List Vmarea) (newvma : Vmarea) : Except Halt (List Vmarea) := do
  insertChecks newvma
  return insertArea newvma map

/-- `vmmap_clone(map)`: every field but `vma_obj`, which is left as the slab had it in each. -/
def vmmapClone (stale : Vmarea → Nat) (map : List Vmarea) : List Vmarea :=
  map.map fun vma => { vma with vmaObj := stale vma }

/-! ## `vmmap_remove` -/

/-- Where an insertion lands while a loop stands between `before` and `rest`, the first of `rest`
being the link the loop goes to next.  An area put right before that link is not visited. -/
def insertSplit (newvma : Vmarea) (before rest : List Vmarea) : List Vmarea × List Vmarea :=
  match before.any (insertsBefore newvma), rest with
  | true, _ => (insertArea newvma before, rest)
  | false, [] => (before ++ [newvma], [])
  | false, vma :: rest =>
    if insertsBefore newvma vma then (before ++ [newvma], vma :: rest)
    else (before, vma :: insertArea newvma rest)

/-- The second, third and fourth `if` of the loop body: the area after them, if it is still
there, and whether one was taken. -/
def removeTail (pagenumAt : Nat → Nat) (lo hi : Nat) (vma : Vmarea) (passed : Bool) :
    Option Vmarea × Bool :=
  let (vma, passed) :=
    if vma.vmaStart < lo ∧ vma.vmaEnd < hi ∧ lo < vma.vmaEnd then
      ({ vma with vmaEnd := lo }, true)
    else (vma, passed)
  let (vma, passed) :=
    if lo < vma.vmaStart ∧ vma.vmaEnd < hi ∧ vma.vmaStart < hi then
      ({ vma with vmaStart := hi, vmaOff := pagenumAt vma.vmaObj }, true)
    else (vma, passed)
  if lo ≤ vma.vmaStart ∧ vma.vmaEnd ≤ hi then (none, true) else (some vma, passed)

/-- The loop of `vmmap_remove`.  `fresh` is what `vmarea_alloc` returns. -/
def removeLoop (fresh : Option Vmarea) (pagenumAt : Nat → Nat) (lo hi : Nat) :
    Nat → Bool → List Vmarea → List Vmarea → Except Halt (Nat × List Vmarea)
  | 0, _, _, _ => .error .hang
  | _ + 1, passed, before, [] => .ok (passed.toNat, before)
  | fuel + 1, passed, before, vma :: rest =>
    if vma.vmaStart < lo ∧ hi < vma.vmaEnd then
      match fresh with
      | none => .ok (0, before ++ { vma with vmaEnd := lo } :: rest)    -- `return NULL`
      | some stale => do
        let newvma := { stale with vmaStart := hi, vmaEnd := vma.vmaEnd }
        let vma := { vma with vmaEnd := lo, vmaOff := pagenumAt newvma.vmaObj }
        insertChecks newvma
        let (before, rest) := insertSplit newvma (before ++ [vma]) rest
        -- the other three tests fail: `vma` starts below `lopage` and now ends at it
        removeLoop fresh pagenumAt lo hi fuel true before rest
    else
      let (kept, passed) := removeTail pagenumAt lo hi vma passed
      removeLoop fresh pagenumAt lo hi fuel passed (before ++ kept.toList) rest

/-- `vmmap_remove(map, lopage, npages)`.  A pass of the loop adds at most one area, and an area it
added is not split again. -/
def vmmapRemove (fresh : Option Vmarea) (pagenumAt : Nat → Nat) (map : List Vmarea)
    (lopage npages : Nat) : Except Halt (Nat × List Vmarea) :=
  removeLoop fresh pagenumAt lopage ((lopage + npages) % 2 ^ 32) (2 * map.length + 1) false [] map

end Weenix.Vm
