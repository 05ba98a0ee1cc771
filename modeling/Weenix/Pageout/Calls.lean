/-
# The calls on address spaces (`vm/vmmap.c`, `vm/pagefault.c`, `proc/fork.c`, `mm/pagetable.c`)

What a process, the pageout daemon and the rest of the kernel do to the state of
`Pageout/Objects.lean`.  The list of areas itself is the one of `Vm/Vmmap.lean`.

* A new area starts with what its slab object held, as there: `vmarea_alloc` sets no field.
* `file->vn_ops->mmap` may fail, may set `memobj`, or may return 0 without setting it, in which case
  `memobj` is whatever was there (`s5fs_mmap`).
* `pt_map` needs a page when the page table is not there yet; whether it gets one is an argument.
  Pages of page tables belong to the rest of the kernel.
* User code loads and stores through a present entry, and faults.
-/
import Weenix.Mm.Page
import Weenix.Pageout.Objects
import Weenix.Vm.Shadow

namespace Weenix.Pageout

open Weenix.Page (pageSize sub32)
open Weenix.Vm (Vmarea mapShared mapPrivate efault userMemLow userMemHigh vmmapLookup insertArea
  insertChecks insertSplit removeTail vmmapClone unmaps)

/-! ## 1. Constants -/

def faultWrite : Nat := 0x02

def faultUser : Nat := 0x04

/-! ## 2. Removing a range -/

/-- The loop of `vmmap_remove`; an area that goes away gives up its object. -/
def removeLoop (fresh : Option Vmarea) (pagenumAt : Nat → Nat) (lo hi : Nat) :
    Nat → VmSys → Bool → List Vmarea → List Vmarea → Except Halt (VmSys × Nat × List Vmarea)
  | 0, _, _, _, _ => .error .hang
  | _ + 1, s, passed, before, [] => .ok (s, passed.toNat, before)
  | fuel + 1, s, passed, before, vma :: rest =>
    if vma.vmaStart < lo ∧ hi < vma.vmaEnd then
      match fresh with
      | none => .ok (s, 0, before ++ { vma with vmaEnd := lo } :: rest)
      | some stale => do
        let newvma := { stale with vmaStart := hi, vmaEnd := vma.vmaEnd }
        let vma := { vma with vmaEnd := lo, vmaOff := pagenumAt newvma.vmaObj }
        insertChecks newvma
        let (before, rest) := insertSplit newvma (before ++ [vma]) rest
        removeLoop fresh pagenumAt lo hi fuel s true before rest
    else do
      let s ← (if (removeTail pagenumAt lo hi vma passed).1.isNone then
          mmobjPut (putFuel s) s vma.vmaObj
        else .ok s)
      removeLoop fresh pagenumAt lo hi fuel s (removeTail pagenumAt lo hi vma passed).2
        (before ++ (removeTail pagenumAt lo hi vma passed).1.toList) rest

/-- What the slab and the walks through the wrong link member supply to a call of
`vmmap_remove`. -/
structure RemoveEnv where
  fresh : Option Vmarea
  pagenumAt : Nat → Nat

/-- `vmmap_remove(map, lopage, npages)` on the map of process `p`. -/
def vmmapRemove (e : RemoveEnv) (s : VmSys) (p lopage npages : Nat) :
    Except Halt (VmSys × Nat) := do
  let x ← s.theProc p
  let (s, passed, map) ← removeLoop e.fresh e.pagenumAt lopage ((lopage + npages) % 2 ^ 32)
    (2 * x.pVmmap.length + 1) s false [] x.pVmmap
  let x ← s.theProc p
  return (s.setProc p { x with pVmmap := map }, passed)

/-! ## 3. Mapping a range -/

/-- The loop of `vmmap_find_range` from low to high addresses. -/
def findLohi (npages : Nat) : Nat → List Vmarea → Option Nat
  | start, [] => if (start + npages) % 2 ^ 32 < userMemHigh then some start else none
  | start, vma :: rest =>
    if npages < sub32 vma.vmaStart start then some start else findLohi npages vma.vmaEnd rest

/-- The loop of `vmmap_find_range` from high to low addresses. -/
def findHilo (npages : Nat) : Nat → List Vmarea → Option Nat
  | last, [] => if userMemLow < sub32 last npages then some (sub32 last npages) else none
  | last, vma :: rest =>
    if npages < sub32 last vma.vmaEnd then some (sub32 last npages)
    else findHilo npages vma.vmaStart rest

/-- `vmmap_find_range(map, npages, dir)`; `none` is -1, and there is no range in an empty map. -/
def vmmapFindRange (map : List Vmarea) (npages : Nat) (hilo : Bool) : Option Nat :=
  if map.isEmpty then none
  else if hilo then findHilo npages userMemHigh map.reverse
  else findLohi npages userMemLow map

def vmmapIsRangeEmpty (map : List Vmarea) (startvfn npages : Nat) : Except Halt Bool := do
  let endvfn := (startvfn + npages) % 2 ^ 32
  kassert (startvfn < endvfn && userMemLow ≤ startvfn && endvfn ≤ userMemHigh)
    "(startvfn < endvfn) && (ADDR_TO_PN(USER_MEM_LOW) <= startvfn) && (ADDR_TO_PN(USER_MEM_HIGH) >= endvfn)"
  return map.all fun vma =>
    !((vma.vmaStart < startvfn && startvfn < vma.vmaEnd)
      || (vma.vmaStart < endvfn && endvfn < vma.vmaEnd)
      || vma.vmaStart == startvfn)

/-- What `file->vn_ops->mmap(file, newvma, &memobj)` does: there is no such operation, it returns
`-errno - 1`, or it returns 0 with that value in `memobj`. -/
inductive FileMmap where
  | null
  | fails (errno : Nat)
  | sets (memobj : Nat)
deriving DecidableEq, Repr

/-- The arguments of `vmmap_map`.  `newvma` is the `vma_obj` the new area's memory held, `none` when
there is none. -/
structure MapArgs where
  file : Option FileMmap
  lopage : Nat
  npages : Nat
  prot : Nat
  flags : Nat
  off : Nat
  hilo : Bool
  newvma : Option Nat
  env : RemoveEnv

/-- An anonymous mapping of one page. -/
def MapArgs.onePage (lopage prot flags : Nat) : MapArgs where
  file := none
  lopage := lopage
  npages := 1
  prot := prot
  flags := flags
  off := 0
  hilo := false
  newvma := some 0
  env := ⟨none, fun _ => 0⟩

/-- The area `vmmap_map` sets up. -/
def MapArgs.area (a : MapArgs) (lopage vmaObj : Nat) : Vmarea :=
  ⟨lopage, (lopage + a.npages) % 2 ^ 32, a.off, a.prot,
    if a.flags &&& mapPrivate ≠ 0 then mapPrivate else mapShared, vmaObj⟩

/-- `list_insert` of the area into the map of `p`. -/
def insertInto (s : VmSys) (p : Nat) (newvma : Vmarea) : Except Halt VmSys := do
  let x ← s.theProc p
  return s.setProc p { x with pVmmap := insertArea newvma x.pVmmap }

/-- The `MAP_PRIVATE` part of `vmmap_map`: a shadow object for `memobj`. -/
def privateObj (s : VmSys) (memobj : Nat) : Except Halt (VmSys × Nat) :=
  match shadowCreate s with
  | none => .error .wild
  | some (s, shadowObj) => do
    let s ← mmobjRef s shadowObj
    let x ← s.theObj shadowObj
    let s := s.setObj shadowObj { x with mmoShadowed := some memobj }
    let y ← s.theObj memobj
    let s := s.setObj memobj { y with mmoShadowed := none }
    let x ← s.theObj shadowObj
    return (s.setObj shadowObj { x with mmoUn := .mmoBottomObj (some memobj) }, shadowObj)

/-- The end of `vmmap_map`: the area's object is `memobj` or a shadow of it.  The area is in the
list by now, where its object does not matter. -/
def finishMap (s : VmSys) (p : Nat) (a : MapArgs) (lopage memobj : Nat) :
    Except Halt (VmSys × Int) := do
  let (s, obj) ← (if a.flags &&& mapPrivate ≠ 0 then privateObj s memobj else .ok (s, memobj))
  return (← insertInto s p (a.area lopage obj), 0)

/-- `vmmap_map` from where the range is known. -/
def mapArea (s : VmSys) (p : Nat) (a : MapArgs) (lopage : Nat) : Except Halt (VmSys × Int) :=
  match a.newvma with
  | none => .ok (s, -1)
  | some stale =>
    match a.file with
    | none =>
      match anonCreate s with
      | none => .ok (s, -1)
      | some (s, memobj) => do
        let s ← mmobjRef s memobj
        insertChecks (a.area lopage memobj)
        finishMap s p a lopage memobj
    | some op => do
      insertChecks (a.area lopage stale)
      match op with
      | .null => .error .wild
      | .fails errno => return (← insertInto s p (a.area lopage stale), .negSucc errno)
      | .sets memobj => finishMap s p a lopage memobj

/-- The `KASSERT`s of `vmmap_map`. -/
def mapChecks (a : MapArgs) : Except Halt Unit := do
  kassert (0 < a.npages) "0 < npages"
  kassert (a.prot < 8) "!(~(PROT_NONE | PROT_READ | PROT_WRITE | PROT_EXEC) & prot)"
  kassert (a.flags &&& mapShared != 0 || a.flags &&& mapPrivate != 0)
    "(MAP_SHARED & flags) || (MAP_PRIVATE & flags)"
  kassert (a.lopage == 0 || userMemLow ≤ a.lopage)
    "(0 == lopage) || (ADDR_TO_PN(USER_MEM_LOW) <= lopage)"
  kassert (a.lopage == 0 || (a.lopage + a.npages) % 2 ^ 32 ≤ userMemHigh)
    "(0 == lopage) || (ADDR_TO_PN(USER_MEM_HIGH) >= (lopage + npages))"
  kassert (a.off % pageSize == 0) "PAGE_ALIGNED(off)"

/-- `vmmap_map(map, file, lopage, npages, prot, flags, off, dir, new)` on the map of `p`. -/
def vmmapMap (s : VmSys) (p : Nat) (a : MapArgs) : Except Halt (VmSys × Int) := do
  let x ← s.theProc p
  mapChecks a
  if a.lopage = 0 then
    match vmmapFindRange x.pVmmap a.npages a.hilo with
    | none => return (s, -1)
    | some lopage => mapArea s p a lopage
  else do
    let s ← (if ← vmmapIsRangeEmpty x.pVmmap a.lopage a.npages then .ok s
      else Prod.fst <$> vmmapRemove a.env s p a.lopage a.npages)
    mapArea s p a a.lopage

/-! ## 4. Exit and fork -/

/-- The end of a process: `vmmap_destroy` drops its areas.  Its page table stays until its parent
waits for it. -/
def exitProc (s : VmSys) (p : Nat) (status : Int) : Except Halt VmSys := do
  let x ← s.theProc p
  return s.setProc p { x with pVmmap := [], pState := .dead status }

/-- A new shadow object on `obj`, as `do_fork` sets it up. -/
def forkShadow (s : VmSys) (obj : Nat) : Except Halt (VmSys × Nat) :=
  match shadowCreate s with
  | none => .error .wild
  | some (s, o) => do
    let x ← s.theObj o
    return (s.setObj o { x with mmoShadowed := some obj }, o)

/-- `pt_unmap_range(pd, vlow, vhigh)` -/
def ptUnmapRange (pd : Nat → Option Pte) (vlow vhigh : Nat) : Except Halt (Nat → Option Pte) := do
  kassert (vlow < vhigh) "vlow < vhigh"
  kassert (userMemLow ≤ vlow && vhigh ≤ userMemHigh)
    "USER_MEM_LOW <= vlow && USER_MEM_HIGH >= vhigh"
  return fun vfn => if unmaps vlow vhigh vfn then none else pd vfn

/-- The loop of `do_fork` over the areas of parent and child; `pd` is the parent's page table. -/
def forkLoop : VmSys → (Nat → Option Pte) → List Vmarea → List Vmarea →
    Except Halt (VmSys × (Nat → Option Pte) × List Vmarea × List Vmarea)
  | s, pd, aParent :: parents, aChild :: children =>
    if aParent.vmaFlags = mapPrivate then do
      let (s, childShadow) ← forkShadow s aParent.vmaObj
      let (s, parentShadow) ← forkShadow s aParent.vmaObj
      let pd ← ptUnmapRange pd aParent.vmaStart aChild.vmaEnd
      let (s, pd, parents, children) ← forkLoop s pd parents children
      return (s, pd, { aParent with vmaObj := parentShadow } :: parents,
        { aChild with vmaObj := childShadow } :: children)
    else do
      let aChild := if aParent.vmaFlags = mapShared then { aChild with vmaObj := aParent.vmaObj }
        else aChild
      let (s, pd, parents, children) ← forkLoop s pd parents children
      return (s, pd, aParent :: parents, aChild :: children)
  | s, pd, parents, children => .ok (s, pd, parents, children)

/-- `do_fork` by `p`; the child's areas start with `stale` as their objects. -/
def doFork (s : VmSys) (p child : Nat) (stale : Vmarea → Nat) : Except Halt VmSys := do
  let x ← s.theProc p
  let (s, pd, parents, children) ←
    forkLoop s x.pPagedir x.pVmmap (vmmapClone stale x.pVmmap)
  let s := s.setProc p { x with pVmmap := parents, pPagedir := pd }
  return s.setProc child ⟨children, fun _ => none, .running⟩

/-! ## 5. Page faults -/

/-- How a page fault ends. -/
inductive FaultResult where
  | killed
  | mapped (e : Pte)
  | nomem
  | stuck
deriving DecidableEq, Repr

/-- The entry `handle_pagefault` installs: `PT_PRESENT | PT_WRITE | PT_USER`. -/
def faultEntry (paddr : Nat) : Pte := ⟨paddr, true, true⟩

/-- `pt_map(pd, vaddr, paddr, ..)` on the page table of `p`; without a page for a new table it
returns `-ENOMEM`. -/
def ptMap (s : VmSys) (p vfn : Nat) (e : Pte) (ptPage : Bool) :
    Except Halt (VmSys × FaultResult) := do
  kassert (userMemLow ≤ vfn && vfn < userMemHigh) "USER_MEM_LOW <= vaddr && USER_MEM_HIGH > vaddr"
  let x ← s.theProc p
  if ptPage then
    return (s.setProc p { x with pPagedir := update x.pPagedir vfn (some e) }, .mapped e)
  else return (s, .nomem)

/-- `handle_pagefault(vaddr, cause)` by `p`.  `proc_kill` of the current process ends in
`do_exit`. -/
def handlePagefault (disk : Nat → UInt8) (ptPage : Bool) (s : VmSys) (p vfn cause : Nat) :
    Except Halt (VmSys × FaultResult) := do
  let x ← s.theProc p
  match vmmapLookup x.pVmmap vfn with
  | none => return (← exitProc s p efault, .killed)
  | some vma =>
    if cause &&& faultUser = 0 then return (← exitProc s p efault, .killed)
    else do
      -- the object at the end of a chain shadows nothing, so that one nested call is enough
      let (s, found) ← pframeGet disk 3 s vma.vmaObj (vma.pagenum vfn)
      match found with
      | none => do
        let x ← s.theProc p
        return (s.setProc p { x with pState := .stuck }, .stuck)
      | some pf => do
        let f ← s.theFrame pf
        ptMap s p vfn (faultEntry f.pfAddr) ptPage

/-! ## 6. The system -/

/-- What can happen. -/
inductive VmCall where
  | spawn (p : Nat)
  | fault (p vfn cause : Nat) (disk : Nat → UInt8) (ptPage : Bool)
  | load (p vfn off : Nat)
  | store (p vfn off : Nat) (b : UInt8)
  | map (p : Nat) (a : MapArgs)
  | unmap (p lopage npages : Nat) (e : RemoveEnv)
  | fork (p child : Nat) (stale : Vmarea → Nat)
  | exit (p : Nat) (status : Int)
  | reap (p : Nat)
  | pageoutd
  | vget
  | vput (o : Nat)
  | filePage (o pagenum : Nat) (disk : Nat → UInt8)
  | fileDirty (o pagenum : Nat)
  | link (o : Nat) (linked : Bool)
  | takePage
  | givePage (a : Nat)
  | scribble (a off : Nat) (b : UInt8)
  | slabs (mmobjs pframes : List Nat)

/-- The physical page behind a page of a process. -/
def VmSys.paddr (s : VmSys) (p vfn : Nat) : Nat := ((s.pte p vfn).map (·.paddr)).getD 0

/-- One byte of a physical page changes. -/
def VmSys.poke (s : VmSys) (a off : Nat) (b : UInt8) : VmSys :=
  s.setPage a (update (s.page a) off b)

/-- One call. -/
def vmStep (s : VmSys) : VmCall → Except Halt VmSys
  | .spawn p => .ok (s.setProc p ⟨[], fun _ => none, .running⟩)
  | .fault p vfn cause disk ptPage => Prod.fst <$> handlePagefault disk ptPage s p vfn cause
  | .load _ _ _ => .ok s
  | .store p vfn off b => .ok (s.poke (s.paddr p vfn) off b)
  | .map p a => Prod.fst <$> vmmapMap s p a
  | .unmap p lopage npages e => Prod.fst <$> vmmapRemove e s p lopage npages
  | .fork p child stale => doFork s p child stale
  | .exit p status => exitProc s p status
  | .reap p => .ok { s with proc := update s.proc p none }
  | .pageoutd => pageoutdRun s
  | .vget =>
    .ok (((slabAlloc s { mmobjInit .vnode with mmoRefcount := 1 }).map Prod.fst).getD s)
  | .vput o => mmobjPut (putFuel s) s o
  | .filePage o pagenum disk => Prod.fst <$> pframeGet disk 3 s o pagenum
  | .fileDirty o pagenum => do
    match s.pframeHash o pagenum with
    | none => return s
    | some pf => do
      let f ← s.theFrame pf
      return s.setFrame pf { f with pfDirty := true }
  | .link o linked => .ok { s with vnLinked := update s.vnLinked o linked }
  | .takePage => .ok { s with freePages := s.freePages.tail }
  | .givePage a => .ok { s with freePages := a :: s.freePages }
  | .scribble a off b => .ok (s.poke a off b)
  | .slabs mmobjs pframes => .ok { s with mmobjSlab := mmobjs, pframeSlab := pframes }

/-- Whether an object is the memory of a file. -/
def VmSys.isVnode (s : VmSys) (o : Nat) : Bool := (s.mmobj o).any (·.mmoOps == .vnode)

/-- No page frame uses the physical page. -/
def VmSys.unused (s : VmSys) (a : Nat) : Bool :=
  (List.range s.npframe).all fun pf => (s.pframe pf).all (·.pfAddr != a)

def VmSys.runs (s : VmSys) (p : Nat) : Bool := (s.proc p).any (·.pState == .running)

/-- What may happen when.  User code runs in processes that run, and accesses memory through
entries that allow it; the rest of the kernel leaves page frames alone and its allocators hand out
what is free. -/
def VmLegal (s : VmSys) : VmCall → Prop
  | .spawn p => (s.proc p).isNone
  | .fault p _ _ _ _ => s.runs p
  | .load p vfn _ => s.runs p ∧ (s.pte p vfn).any (·.ptUser)
  | .store p vfn _ _ => s.runs p ∧ (s.pte p vfn).any fun e => e.ptUser && e.ptWrite
  | .map p _ => s.runs p
  | .unmap p _ _ _ => s.runs p
  | .fork p child _ => s.runs p ∧ (s.proc child).isNone
  | .exit p _ => s.runs p
  | .reap p => (s.proc p).any fun x => x.pState != .running && x.pState != .stuck
  | .pageoutd => s.pageoutdAwake
  | .vget => True
  | .vput o => s.isVnode o
  | .filePage o _ _ => s.isVnode o
  | .fileDirty o _ => s.isVnode o
  | .link _ _ => True
  | .takePage => True
  | .givePage a => s.unused a ∧ a ∉ s.freePages
  | .scribble a _ _ => s.unused a
  | .slabs mmobjs pframes =>
    mmobjs.Nodup ∧ (mmobjs.all fun o => o < s.nmmobj && (s.mmobj o).isNone) ∧
    pframes.Nodup ∧ (pframes.all fun pf => pf < s.npframe && (s.pframe pf).isNone)

instance (s : VmSys) : (c : VmCall) → Decidable (VmLegal s c)
  | .spawn _ | .fault .. | .map .. | .unmap .. | .exit .. | .reap _ | .pageoutd | .vput _
  | .filePage .. | .fileDirty .. | .scribble .. => inferInstanceAs (Decidable (_ = true))
  | .load .. | .store .. | .fork .. | .givePage _ | .slabs .. => inferInstanceAs (Decidable (_ ∧ _))
  | .vget | .link .. | .takePage => inferInstanceAs (Decidable True)

/-- The machine before the first process: that many objects, frames and pages, all free. -/
def bootVm (nmmobj npframe npages nfreepagesTarget : Nat) : VmSys where
  mmobj _ := none
  mmobjSlab := List.range nmmobj
  nmmobj := nmmobj
  pframe _ := none
  pframeSlab := List.range npframe
  npframe := npframe
  pframeHash _ _ := none
  allocList := []
  page _ _ := 0
  freePages := List.range npages
  nfreepagesTarget := nfreepagesTarget
  pageoutdAwake := true
  vnLinked _ := false
  proc _ := none
  released := []

end Weenix.Pageout
