/-
# Memory objects and page frames (`mm/pframe.c`, `vm/anon.c`, `vm/shadow.c`, `fs/vnode.c`)

The part of the kernel that decides when physical memory is given back.  An object counts its
references and its resident pages; a page frame knows its object, its page and its physical page,
and may be pinned, busy or dirty; the pageout daemon takes the frames that are not pinned.  Unlike
`Vm/Shadow.lean`, where frames live for ever, nothing of this is left out here.

Objects and frames are addresses, and so numbers: a slab allocator hands out the first address of a
list of free ones, which the rest of the kernel reorders at will, and an address may come back.
Following a pointer to an object or a frame that is not allocated is `.wild`.  Physical pages are
numbers too; `page_alloc` takes the first free one.

Calls are not interrupted.  A thread that starts to wait for a page while it fills another one may
leave its frame busy for good; other threads then wait for that frame for ever.

* `released` is not kernel state.  It records, for each page that `pframe_free` gave back, all page
  tables at that moment.
* Writing a page of a file back to its disk succeeds; what reading one gives is an argument.
* The counters of pinned and allocated frames only serve assertions, and are left out.
-/
import Weenix.Vm.Vmmap

namespace Weenix.Pageout

open Weenix.Vm (Vmarea userMemLow userMemHigh)

/-! ## 1. The state -/

/-- `mmo_ops` -/
inductive MmobjOps where
  | anon
  | shadow
  | vnode
deriving DecidableEq, Repr

/-- `mmo_un`: the areas on an object that shadows nothing, each with the process of its map, or the
object at the end of the chain. -/
inductive MmoUn where
  | mmoVmas (vmas : List (Option Nat × Vmarea))
  | mmoBottomObj (o : Option Nat)
deriving DecidableEq, Repr

structure Mmobj where
  mmoOps : MmobjOps
  mmoRefcount : Int
  mmoNrespages : Int
  mmoRespages : List Nat
  mmoUn : MmoUn
  mmoShadowed : Option Nat
deriving DecidableEq, Repr

/-- `pframe_t`.  `pfAddr` is the number of the physical page. -/
structure Pframe where
  pfObj : Nat
  pfPagenum : Nat
  pfAddr : Nat
  pfBusy : Bool
  pfDirty : Bool
  pfPincount : Nat
deriving DecidableEq, Repr

/-- A present entry of a page table. -/
structure Pte where
  paddr : Nat
  ptWrite : Bool
  ptUser : Bool
deriving DecidableEq, Repr

/-- A process runs, waits for ever inside the kernel, or has exited. -/
inductive PState where
  | running
  | stuck
  | dead (pStatus : Int)
deriving DecidableEq, Repr

/-- The parts of a `proc_t` that make its address space. -/
structure Proc where
  pVmmap : List Vmarea
  pPagedir : Nat → Option Pte
  pState : PState

/-- All page tables: process and page to entry. -/
abbrev PageTables : Type := Nat → Nat → Option Pte

structure VmSys where
  mmobj : Nat → Option Mmobj
  mmobjSlab : List Nat
  nmmobj : Nat
  pframe : Nat → Option Pframe
  pframeSlab : List Nat
  npframe : Nat
  pframeHash : Nat → Nat → Option Nat
  allocList : List Nat
  page : Nat → Nat → UInt8
  freePages : List Nat
  nfreepagesTarget : Nat
  pageoutdAwake : Bool
  vnLinked : Nat → Bool
  proc : Nat → Option Proc
  released : List (Nat × PageTables)

namespace VmSys

/-- The entry of process `p` for page `vfn`. -/
def pte (s : VmSys) : PageTables := fun p vfn => (s.proc p).bind fun x => x.pPagedir vfn

def theObj (s : VmSys) (o : Nat) : Except Halt Mmobj :=
  match s.mmobj o with
  | some x => .ok x
  | none => .error .wild

def theFrame (s : VmSys) (pf : Nat) : Except Halt Pframe :=
  match s.pframe pf with
  | some f => .ok f
  | none => .error .wild

def theProc (s : VmSys) (p : Nat) : Except Halt Proc :=
  match s.proc p with
  | some x => .ok x
  | none => .error .wild

def setObj (s : VmSys) (o : Nat) (x : Mmobj) : VmSys :=
  { s with mmobj := update s.mmobj o (some x) }

def setFrame (s : VmSys) (pf : Nat) (f : Pframe) : VmSys :=
  { s with pframe := update s.pframe pf (some f) }

def setProc (s : VmSys) (p : Nat) (x : Proc) : VmSys :=
  { s with proc := update s.proc p (some x) }

def setPage (s : VmSys) (a : Nat) (data : Nat → UInt8) : VmSys :=
  { s with page := update s.page a data }

section
variable (s : VmSys)

@[simp] theorem setObj_mmobj (o : Nat) (x : Mmobj) :
    (s.setObj o x).mmobj = update s.mmobj o (some x) := rfl

@[simp] theorem setFrame_pframe (pf : Nat) (f : Pframe) :
    (s.setFrame pf f).pframe = update s.pframe pf (some f) := rfl

@[simp] theorem setProc_proc (p : Nat) (x : Proc) :
    (s.setProc p x).proc = update s.proc p (some x) := rfl

@[simp] theorem setPage_page (a : Nat) (data : Nat → UInt8) :
    (s.setPage a data).page = update s.page a data := rfl

end

theorem theObj_eq_ok {s : VmSys} {o : Nat} {x : Mmobj} :
    s.theObj o = .ok x ↔ s.mmobj o = some x := by
  unfold theObj
  cases s.mmobj o <;> simp

theorem theFrame_eq_ok {s : VmSys} {pf : Nat} {f : Pframe} :
    s.theFrame pf = .ok f ↔ s.pframe pf = some f := by
  unfold theFrame
  cases s.pframe pf <;> simp

theorem theProc_eq_ok {s : VmSys} {p : Nat} {x : Proc} :
    s.theProc p = .ok x ↔ s.proc p = some x := by
  unfold theProc
  cases s.proc p <;> simp

end VmSys

/-! ## 2. Creating objects and counting references -/

def mmobjInit (ops : MmobjOps) : Mmobj := ⟨ops, 0, 0, [], .mmoVmas [], none⟩

/-- `slab_obj_alloc` of an object that is initialised to `x`. -/
def slabAlloc (s : VmSys) (x : Mmobj) : Option (VmSys × Nat) :=
  match s.mmobjSlab with
  | [] => none
  | o :: rest => some ({ s.setObj o x with mmobjSlab := rest }, o)

def slabFree (s : VmSys) (o : Nat) : Except Halt VmSys := do
  let _ ← s.theObj o
  return { s with mmobj := update s.mmobj o none, mmobjSlab := o :: s.mmobjSlab }

def anonCreate (s : VmSys) : Option (VmSys × Nat) :=
  slabAlloc s { mmobjInit .anon with mmoRefcount := 1 }

def shadowCreate (s : VmSys) : Option (VmSys × Nat) :=
  slabAlloc s { mmobjInit .shadow with mmoRefcount := 1, mmoUn := .mmoBottomObj none }

/-- What the `ref` and `put` operations assert. -/
def refcountAssert : MmobjOps → String
  | .anon => "o && (0 < o->mmo_refcount) && (&anon_mmobj_ops == o->mmo_ops)"
  | .shadow => "o && (0 < o->mmo_refcount) && (&shadow_mmobj_ops == o->mmo_ops)"
  | .vnode => "0 < vn->vn_refcount"

/-- `o->mmo_ops->ref(o)`: `anon_ref`, `shadow_ref` or `vo_vref`. -/
def mmobjRef (s : VmSys) (o : Nat) : Except Halt VmSys := do
  let x ← s.theObj o
  kassert (0 < x.mmoRefcount) (refcountAssert x.mmoOps)
  return s.setObj o { x with mmoRefcount := x.mmoRefcount + 1 }

/-! ## 3. Pinning -/

def pframePin (s : VmSys) (pf : Nat) : Except Halt VmSys := do
  let f ← s.theFrame pf
  let s := if f.pfPincount = 0 then { s with allocList := s.allocList.erase pf } else s
  return s.setFrame pf { f with pfPincount := f.pfPincount + 1 }

def pframeUnpin (s : VmSys) (pf : Nat) : Except Halt VmSys := do
  let f ← s.theFrame pf
  kassert (0 < f.pfPincount) "pf->pf_pincount > 0"
  let s := s.setFrame pf { f with pfPincount := f.pfPincount - 1 }
  return if f.pfPincount = 1 then { s with allocList := s.allocList ++ [pf] } else s

/-- `while (pframe_is_pinned(pf)) pframe_unpin(pf);`, for a frame pinned that many times. -/
def unpinLoop : Nat → VmSys → Nat → Except Halt VmSys
  | 0, s, _ => .ok s
  | n + 1, s, pf => do unpinLoop n (← pframeUnpin s pf) pf

/-! ## 4. Finding pages -/

/-- `pframe_get_resident(o, pagenum)`.  A frame that is not pinned goes to the back of
`alloc_list`. -/
def pframeGetResident (s : VmSys) (o pagenum : Nat) : Except Halt (VmSys × Option Nat) :=
  match s.pframeHash o pagenum with
  | none => .ok (s, none)
  | some pf => do
    let f ← s.theFrame pf
    return (if f.pfPincount = 0 then { s with allocList := s.allocList.erase pf ++ [pf] }
      else s, some pf)

/-- The walk down a chain of `shadow_fillpage` and `shadow_lookuppage`: `src` and `temp` when it
ends.  A chain without a cycle is no longer than there are objects. -/
def shadowWalk (pagenum : Nat) :
    Nat → VmSys → Option Nat → Option Nat → Except Halt (VmSys × Option Nat × Option Nat)
  | _, s, none, temp => .ok (s, none, temp)
  | 0, _, some _, _ => .error .hang
  | fuel + 1, s, some o, temp => do
    let (s, src) ← pframeGetResident s o pagenum
    match src with
    | some src => return (s, some src, temp)
    | none => do
      let x ← s.theObj o
      shadowWalk pagenum fuel s x.mmoShadowed (some o)

/-! ## 5. Page tables -/

/-- `pt_unmap(pd, vaddr)` on the page table of `p`. -/
def ptUnmap (s : VmSys) (p vfn : Nat) : Except Halt VmSys := do
  kassert (userMemLow ≤ vfn && vfn < userMemHigh) "USER_MEM_LOW <= vaddr && USER_MEM_HIGH > vaddr"
  let x ← s.theProc p
  return s.setProc p { x with pPagedir := update x.pPagedir vfn none }

/-- `mmobj_bottom_vmas(o)`.  Reading the wrong member of the union follows a pointer to nowhere. -/
def mmobjBottomVmas (s : VmSys) (o : Nat) : Except Halt (List (Option Nat × Vmarea)) := do
  let x ← s.theObj o
  match x.mmoShadowed, x.mmoUn with
  | none, .mmoVmas vmas => return vmas
  | some _, .mmoBottomObj (some bottom) => do
    match (← s.theObj bottom).mmoUn with
    | .mmoVmas vmas => return vmas
    | .mmoBottomObj _ => .error .wild
  | _, _ => .error .wild

def removeFromPtsLoop (pagenum : Nat) : List (Option Nat × Vmarea) → VmSys → Except Halt VmSys
  | [], s => .ok s
  | (vmmProc, vma) :: rest, s => do
    let s ← (match vmmProc with
      | some p =>
        if vma.vmaOff ≤ pagenum ∧ pagenum < vma.vmaOff + (vma.vmaEnd - vma.vmaStart) then
          ptUnmap s p (vma.vmaStart + pagenum - vma.vmaOff)
        else .ok s
      | none => .ok s)
    removeFromPtsLoop pagenum rest s

def pframeRemoveFromPts (s : VmSys) (pf : Nat) : Except Halt VmSys := do
  let f ← s.theFrame pf
  let vmas ← mmobjBottomVmas s f.pfObj
  removeFromPtsLoop f.pfPagenum vmas s

/-! ## 6. Giving pages back -/

/-- The middle of `pframe_free`: the frame leaves the hash, `alloc_list` and its object's list, and
its page and its own memory are free. -/
def unlinkFrame (s : VmSys) (pf : Nat) (f : Pframe) (x : Mmobj) : VmSys :=
  { s with
    pframeHash := fun o k =>
      if o = f.pfObj ∧ k = f.pfPagenum ∧ s.pframeHash o k = some pf then none else s.pframeHash o k
    pframe := update s.pframe pf none
    pframeSlab := pf :: s.pframeSlab
    allocList := s.allocList.erase pf
    freePages := f.pfAddr :: s.freePages
    released := (f.pfAddr, s.pte) :: s.released
    mmobj := update s.mmobj f.pfObj (some { x with
      mmoNrespages := x.mmoNrespages - 1
      mmoRespages := x.mmoRespages.erase pf }) }

/-- A loop of a `put` operation over the resident pages.  A frame that is gone when the loop comes
to it is wild. -/
def respagesLoop (one : VmSys → Nat → Except Halt VmSys) : List Nat → VmSys → Except Halt VmSys
  | [], s => .ok s
  | pf :: rest, s => do respagesLoop one rest (← one s pf)

mutual

def pframeFree : Nat → VmSys → Nat → Except Halt VmSys
  | 0, _, _ => .error .hang
  | fuel + 1, s, pf => do
    let f ← s.theFrame pf
    kassert (f.pfPincount == 0) "!pframe_is_pinned(pf)"
    kassert (!f.pfBusy) "!pframe_is_busy(pf)"
    let s ← pframeRemoveFromPts s pf
    let x ← s.theObj f.pfObj
    mmobjPut fuel (unlinkFrame s pf f x) f.pfObj
termination_by structural fuel => fuel

/-- `o->mmo_ops->put(o)`: `anon_put`, `shadow_put` or `vput`. -/
def mmobjPut : Nat → VmSys → Nat → Except Halt VmSys
  | 0, _, _ => .error .hang
  | fuel + 1, s, o => do
    let x ← s.theObj o
    match x.mmoOps with
    | .anon => do
      kassert (0 < x.mmoRefcount) (refcountAssert .anon)
      let s ← (if x.mmoRefcount - x.mmoNrespages = 1 then
          respagesLoop (putPage fuel) x.mmoRespages s
        else .ok s)
      let x ← s.theObj o
      let s := s.setObj o { x with mmoRefcount := x.mmoRefcount - 1 }
      if x.mmoRefcount - 1 = 0 ∧ x.mmoNrespages = 0 then slabFree s o else return s
    | .shadow => do
      kassert (0 < x.mmoRefcount) (refcountAssert .shadow)
      let s := s.setObj o { x with mmoRefcount := x.mmoRefcount - 1 }
      if x.mmoRefcount - 1 = x.mmoNrespages ∧ x.mmoRespages ≠ [] then do
        let s ← respagesLoop (putPage fuel) x.mmoRespages s
        slabFree s o
      else return s
    | .vnode => do
      kassert (0 ≤ x.mmoNrespages) "0 <= vn->vn_nrespages"
      kassert (x.mmoNrespages < x.mmoRefcount) "vn->vn_nrespages < vn->vn_refcount"
      let s ← (if x.mmoNrespages = x.mmoRefcount - 1 ∧ s.vnLinked o = false then do
          let s ← respagesLoop (vputPage fuel) x.mmoRespages s
          let x ← s.theObj o
          kassert (x.mmoNrespages == 0) "0 == vn->vn_nrespages"
          kassert (x.mmoRefcount == 1) "1 == vn->vn_refcount"
          return s
        else .ok s)
      let x ← s.theObj o
      let s := s.setObj o { x with mmoRefcount := x.mmoRefcount - 1 }
      if 0 < x.mmoRefcount - 1 then return s
      else do
        kassert (x.mmoRefcount - 1 == 0) "0 == vn->vn_refcount"
        kassert (x.mmoNrespages == 0) "0 == vn->vn_nrespages"
        slabFree s o
termination_by structural fuel => fuel

/-- The loop bodies of `anon_put` and `shadow_put`.  They differ in what they do to a busy frame
before they sleep on it for ever. -/
def putPage : Nat → VmSys → Nat → Except Halt VmSys
  | 0, _, _ => .error .hang
  | fuel + 1, s, pf => do
    let f ← s.theFrame pf
    let s ← unpinLoop f.pfPincount s pf
    if f.pfBusy then .error .hang
    else if f.pfDirty then pframeClean fuel s pf
    else return s
termination_by structural fuel => fuel

/-- The loop body of `vput`. -/
def vputPage : Nat → VmSys → Nat → Except Halt VmSys
  | 0, _, _ => .error .hang
  | fuel + 1, s, pf => do
    let f ← s.theFrame pf
    if f.pfBusy then .error .hang
    else pframeFree fuel s pf
termination_by structural fuel => fuel

/-- `pframe_clean(pf)` with the `cleanpage` operations. -/
def pframeClean : Nat → VmSys → Nat → Except Halt VmSys
  | 0, _, _ => .error .hang
  | fuel + 1, s, pf => do
    let f ← s.theFrame pf
    kassert f.pfDirty "pframe_is_dirty(pf) && \"Cleaning page that isn't dirty!\""
    kassert (f.pfPincount == 0) "pf->pf_pincount == 0 && \"Cleaning a pinned page!\""
    let s ← pframeRemoveFromPts (s.setFrame pf { f with pfDirty := false }) pf
    let x ← s.theObj f.pfObj
    let s := s.setFrame pf { f with pfDirty := false, pfBusy := true }
    match x.mmoOps with
    | .vnode => return s.setFrame pf { f with pfDirty := false, pfBusy := false }
    | .anon => do
      let (s, found) ← pframeGetResident s f.pfObj f.pfPagenum
      match found with
      | none => return s.setFrame pf { f with pfDirty := true, pfBusy := false }
      | some pageframe => do
        let g ← s.theFrame pageframe
        let s := s.setPage g.pfAddr (s.page f.pfAddr)
        return s.setFrame pf { f with pfDirty := false, pfBusy := false }
    | .shadow => do
      let (s, found, _) ← shadowWalk f.pfPagenum (s.nmmobj + 1) s (some f.pfObj) none
      match found with
      | none => return s.setFrame pf { f with pfDirty := true, pfBusy := false }
      | some pageframe => do
        let g ← s.theFrame pageframe
        let s := s.setFrame pageframe { g with pfBusy := false }
        let s ← unpinLoop g.pfPincount s pageframe
        let s := s.setPage g.pfAddr (s.page f.pfAddr)
        -- the busy bit that `pframe_clean` clears next belongs to a frame that is free by now
        pframeFree fuel s pf
termination_by structural fuel => fuel

end

/-- Enough for every nesting: each level of it frees a frame. -/
def putFuel (s : VmSys) : Nat := 4 * s.npframe + 8

/-! ## 7. `pframe_get` -/

/-- `page_free_count() <= nfreepages_min && !list_empty(&alloc_list)`; the minimum is 0. -/
def pageoutdNeeded (s : VmSys) : Bool := s.freePages.isEmpty && !s.allocList.isEmpty

/-- `pframe_alloc(o, pagenum)`.  When there is no memory `pframe_get` returns -1, which no caller
looks at; they go on with a frame pointer that was never set. -/
def pframeAlloc (s : VmSys) (o pagenum : Nat) : Except Halt (VmSys × Nat) :=
  match s.pframeSlab, s.freePages with
  | pf :: slab, a :: free => do
    let s := { s with
      pframeSlab := slab
      freePages := free
      allocList := s.allocList ++ [pf]
      pframe := update s.pframe pf (some ⟨o, pagenum, a, false, false, 0⟩)
      pframeHash := fun o' k => if o' = o ∧ k = pagenum then some pf else s.pframeHash o' k }
    let s ← mmobjRef s o
    let x ← s.theObj o
    return (s.setObj o { x with
      mmoNrespages := x.mmoNrespages + 1
      mmoRespages := pf :: x.mmoRespages }, pf)
  | _, _ => .error .wild

/-- The frame's busy bit. -/
def setBusy (s : VmSys) (pf : Nat) (b : Bool) : Except Halt VmSys := do
  let f ← s.theFrame pf
  return s.setFrame pf { f with pfBusy := b }

/-- The end of a `fillpage` operation and of `pframe_fill`: the contents are there. -/
def filled (s : VmSys) (pf : Nat) (data : Nat → UInt8) : Except Halt VmSys := do
  let f ← s.theFrame pf
  setBusy (s.setPage f.pfAddr data) pf false

/-- `pframe_fill(pf)` with the `fillpage` operations, for the new frame `pf` of page `pagenum` of
`o`. `get` is `pframe_get`, which the bottom of a chain is asked with; `disk` is what a file has in
the page. -/
def pframeFill (get : VmSys → Nat → Nat → Except Halt (VmSys × Option Nat)) (disk : Nat → UInt8)
    (s : VmSys) (o pagenum pf : Nat) : Except Halt (VmSys × Option Nat) := do
  let s ← setBusy s pf true
  let x ← s.theObj o
  match x.mmoOps with
  | .anon => do
    let (s, _) ← pframeGetResident s o pagenum
    let s ← filled s pf fun _ => 0
    return (← pframePin s pf, some pf)
  | .vnode => return (← filled s pf disk, some pf)
  | .shadow => do
    let (s, src, temp) ← shadowWalk pagenum (s.nmmobj + 1) s x.mmoShadowed none
    match src, temp with
    | some src, _ => do
      let g ← s.theFrame src
      return (← filled s pf (s.page g.pfAddr), some pf)
    | none, none => .error .wild    -- `pframe_get(NULL, ..)`
    | none, some temp => do
      match ← get s temp pagenum with
      | (s, none) => return (s, none)
      | (s, some src) => do
        let g ← s.theFrame src
        return (← filled s pf (s.page g.pfAddr), some pf)

/-- `pframe_get(o, pagenum, &pf)`.  The result is `none` when the call does not return: a thread
that finds no free page runs `pageoutd_run` itself, which has no end, and one that finds a busy page
waits for it. -/
def pframeGet (disk : Nat → UInt8) : Nat → VmSys → Nat → Nat → Except Halt (VmSys × Option Nat)
  | 0, _, _, _ => .error .hang
  | fuel + 1, s, o, pagenum => do
    let (s, found) ← pframeGetResident s o pagenum
    match found with
    | some pf => do
      let f ← s.theFrame pf
      return (s, if f.pfBusy then none else some pf)
    | none =>
      if pageoutdNeeded s then return ({ s with pageoutdAwake := true }, none)
      else do
        let (s, pf) ← pframeAlloc s o pagenum
        pframeFill (pframeGet disk fuel) disk s o pagenum pf

/-! ## 8. The pageout daemon -/

/-- One round of the loop of `pageoutd_run`. -/
def pageoutdRun (s : VmSys) : Except Halt VmSys :=
  if s.freePages.length < s.nfreepagesTarget then
    match s.allocList with
    | [] => .ok { s with pageoutdAwake := false }
    | pf :: _ => do
      let f ← s.theFrame pf
      if f.pfBusy then return s    -- sleeps on the frame
      else if f.pfDirty then pframeClean (putFuel s) s pf
      else pframeFree (putFuel s) s pf
  else .ok { s with pageoutdAwake := false }

end Weenix.Pageout
