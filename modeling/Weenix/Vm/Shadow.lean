/-
# Memory objects, page faults and fork (`vm/shadow.c`, `vm/anon.c`, `vm/pagefault.c`, `proc/fork.c`)

A page of memory is identified by a memory object and a page number; `pframe_hash` finds its
frame.  A shadow object has the pages that were copied into it and leaves the rest to the object
it shadows; `shadow_fillpage` walks that chain.  User code reads and writes frames through the
page directory of its process, and a page that is not there goes through `handle_pagefault`.

What is kept: objects with their operations and `mmo_shadowed`, the hash, the bytes of every
frame, and for each process its areas and page directory.  Objects, frames and processes are
numbers, given out in order; no step here frees any.  Reference and pin counts, busy and dirty
bits and the list of resident pages decide when a page may be freed or paged out, which these
steps do not do, and are left out.  The page directory is the map from page to frame that the two
levels of tables implement; the translation cache is flushed wherever an entry goes away.
-/
import Weenix.Vm.Vmmap

namespace Weenix.Vm

/-! ## 1. The state -/

/-- `mmo_ops`: which of the two tables of operations. -/
inductive MmobjOps where
  | anon
  | shadow
deriving DecidableEq, Repr

structure Mmobj where
  mmoOps : MmobjOps
  mmoShadowed : Option Nat
deriving DecidableEq, Repr

/-- The parts of a `proc_t` that make its address space. -/
structure AddrSpace where
  pVmmap : List Vmarea
  pPagedir : Nat → Option Nat

/-- All of memory. -/
structure Memory where
  mmobj : Nat → Mmobj
  nobj : Nat
  pframeHash : Nat → Nat → Option Nat
  pfAddr : Nat → Nat → UInt8
  npframe : Nat
  proc : Nat → AddrSpace
  nproc : Nat

/-- A new frame that holds `data` is entered for the page `pagenum` of `o`. -/
def Memory.addPage (m : Memory) (o pagenum : Nat) (data : Nat → UInt8) : Memory :=
  { m with
    pframeHash := fun o' k' => if o' = o ∧ k' = pagenum then some m.npframe else m.pframeHash o' k'
    pfAddr := update m.pfAddr m.npframe data
    npframe := m.npframe + 1 }

def Memory.setFrame (m : Memory) (pf : Nat) (data : Nat → UInt8) : Memory :=
  { m with pfAddr := update m.pfAddr pf data }

def Memory.setProc (m : Memory) (p : Nat) (s : AddrSpace) : Memory :=
  { m with proc := update m.proc p s }

/-! ## 2. Page frames -/

/-- `pframe_alloc(o, pagenum)`.  The new frame holds what `page_alloc` found in it. -/
def pframeAlloc (m : Memory) (o pagenum : Nat) : Memory × Nat :=
  (m.addPage o pagenum (m.pfAddr m.npframe), m.npframe)

/-- The `while (shadow_obj != NULL)` loop of `shadow_fillpage`: `src` and `temp` when it ends. -/
def shadowWalk (m : Memory) (pagenum : Nat) :
    Nat → Option Nat → Option Nat → Except Halt (Option Nat × Option Nat)
  | _, none, temp => .ok (none, temp)
  | 0, some _, _ => .error .hang
  | fuel + 1, some o, temp =>
    match m.pframeHash o pagenum with
    | some src => .ok (some src, temp)
    | none => shadowWalk m pagenum fuel (m.mmobj o).mmoShadowed (some o)

/-- `pframe_get(o, pagenum)` with `pframe_fill` and the two `fillpage` operations. -/
def pframeGet : Nat → Memory → Nat → Nat → Except Halt (Memory × Nat)
  | 0, _, _, _ => .error .hang
  | fuel + 1, m, o, pagenum =>
    match m.pframeHash o pagenum with
    | some pf => .ok (m, pf)
    | none =>
      let (m, pf) := pframeAlloc m o pagenum
      match (m.mmobj o).mmoOps with
      | .anon => .ok (m.setFrame pf fun _ => 0, pf)
      | .shadow => do
        match ← shadowWalk m pagenum m.nobj (m.mmobj o).mmoShadowed none with
        | (some src, _) => return (m.setFrame pf (m.pfAddr src), pf)
        | (none, none) => .error .wild    -- `pframe_get(NULL, ..)`
        | (none, some temp) => do
          let (m, src) ← pframeGet fuel m temp pagenum
          return (m.setFrame pf (m.pfAddr src), pf)

/-! ## 3. Page directories (`mm/pagetable.c`) -/

def ptEntryCount : Nat := 1024

def ptMap (pd : Nat → Option Nat) (vfn pf : Nat) : Except Halt (Nat → Option Nat) := do
  kassert (userMemLow ≤ vfn && vfn < userMemHigh)
    "USER_MEM_LOW <= vaddr && USER_MEM_HIGH > vaddr"
  return update pd vfn (some pf)

/-- The entries `pt_unmap_range` clears: from `vlow` to the end of its table, from the start of
the table of `vhigh` up to it, and all tables in between. -/
def unmaps (vlow vhigh vfn : Nat) : Bool :=
  let low := vlow + (ptEntryCount - vlow % ptEntryCount) % ptEntryCount
  let high := vhigh - vhigh % ptEntryCount
  vlow % ptEntryCount != 0 && vfn / ptEntryCount == vlow / ptEntryCount && vlow ≤ vfn
  || vhigh % ptEntryCount != 0 && vfn / ptEntryCount == vhigh / ptEntryCount && vfn < vhigh
  || low / ptEntryCount ≤ vfn / ptEntryCount && vfn / ptEntryCount < high / ptEntryCount

/-- `pt_unmap_range(pd, vlow, vhigh)` -/
def ptUnmapRange (pd : Nat → Option Nat) (vlow vhigh : Nat) : Except Halt (Nat → Option Nat) := do
  kassert (vlow < vhigh) "vlow < vhigh"
  kassert (userMemLow ≤ vlow && vhigh ≤
    userMemHigh) "USER_MEM_LOW <= vlow && USER_MEM_HIGH >= vhigh"
  return fun vfn => if unmaps vlow vhigh vfn then none else pd vfn

/-! ## 4. User accesses -/

/-- `handle_pagefault(vaddr, cause)` by process `p`; `none` when the process is killed. -/
def handlePagefault (m : Memory) (p vfn : Nat) : Except Halt (Option Memory) :=
  match vmmapLookup (m.proc p).pVmmap vfn with
  | none => .ok none
  | some vma => do
    let (m, pf) ← pframeGet (m.nobj + 1) m vma.vmaObj (vma.pagenum vfn)
    let pd ← ptMap (m.proc p).pPagedir vfn pf
    return some (m.setProc p { m.proc p with pPagedir := pd })

/-- The frame an access of `p` to the page `vfn` reaches, after a page fault if it is not
mapped. -/
def userAccess (m : Memory) (p vfn : Nat) : Except Halt (Option (Memory × Nat)) :=
  match (m.proc p).pPagedir vfn with
  | some pf => .ok (some (m, pf))
  | none => do
    match ← handlePagefault m p vfn with
    | none => return none
    | some m =>
      match (m.proc p).pPagedir vfn with
      | some pf => return some (m, pf)
      | none => .error .hang

/-- A user read of one byte. -/
def userRead (m : Memory) (p vfn off : Nat) : Except Halt (Option (Memory × UInt8)) := do
  return (← userAccess m p vfn).map fun r => (r.1, r.1.pfAddr r.2 off)

/-- A user write of one byte. -/
def userWrite (m : Memory) (p vfn off : Nat) (b : UInt8) : Except Halt (Option Memory) := do
  return (← userAccess m p vfn).map fun r =>
    r.1.setFrame r.2 (update (r.1.pfAddr r.2) off b)

/-! ## 5. Fork -/

/-- `shadow_create()`, with `mmo_shadowed` set as both callers do. -/
def shadowCreate (m : Memory) (shadowed : Nat) : Memory × Nat :=
  ({ m with mmobj := update m.mmobj m.nobj ⟨.shadow, some shadowed⟩, nobj := m.nobj + 1 }, m.nobj)

/-- The loop of `do_fork` over the areas of parent and child.  `pd` is the page directory of the
parent.  Returns the areas of both. -/
def forkLoop : Memory → (Nat → Option Nat) → List Vmarea → List Vmarea →
    Except Halt (Memory × (Nat → Option Nat) × List Vmarea × List Vmarea)
  | m, pd, aParent :: parents, aChild :: children =>
    if aParent.vmaFlags = mapPrivate then do
      let (m, childShadow) := shadowCreate m aParent.vmaObj
      let (m, parentShadow) := shadowCreate m aParent.vmaObj
      let pd ← ptUnmapRange pd aParent.vmaStart aChild.vmaEnd
      let (m, pd, parents, children) ← forkLoop m pd parents children
      return (m, pd, { aParent with vmaObj := parentShadow } :: parents,
        { aChild with vmaObj := childShadow } :: children)
    else if aParent.vmaFlags = mapShared then do
      let (m, pd, parents, children) ← forkLoop m pd parents children
      return (m, pd, aParent :: parents, { aChild with vmaObj := aParent.vmaObj } :: children)
    else do
      let (m, pd, parents, children) ← forkLoop m pd parents children
      return (m, pd, aParent :: parents, aChild :: children)
  | m, pd, parents, children => .ok (m, pd, parents, children)

/-- `do_fork` by process `p`.  The child is the next process; its page directory is a copy of the
template, which maps no user page. -/
def doFork (m : Memory) (p : Nat) (stale : Vmarea → Nat) : Except Halt Memory := do
  let parent := m.proc p
  let (m, pd, parents, children) ←
    forkLoop m parent.pPagedir parent.pVmmap (vmmapClone stale parent.pVmmap)
  let m := m.setProc p ⟨parents, pd⟩
  let m := m.setProc m.nproc ⟨children, fun _ => none⟩
  return { m with nproc := m.nproc + 1 }

end Weenix.Vm
