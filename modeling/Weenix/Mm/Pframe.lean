/-
# The page cache (`mm/pframe.c`)

A page frame that holds a page is on three lists: a hash chain, the list of the resident pages of
its memory object, and one of `alloc_list` and `pinned_list`.  `pframe_get`, `pframe_pin`,
`pframe_unpin`, `pframe_free` and `pframe_migrate` keep these lists and the counters beside them.

What is kept:

* a `pframe_t` is the address the slab allocator gave it; its fields stay when it is freed;
* a list is the list of its frames; the three families of lists are `lists`, `pframeHash` and
  `mmoRespages`.  `list_remove` is given a link and no list, and takes the frame off whatever list
  of the family it is on; a link that is on none is `Halt.wild`;
* the operations of a memory object count references, or return a number the caller chooses; they do
  not come back to the cache.  `ref` and `put` by anyone else are calls of their own;
* `pageoutd_run`, which `pframe_get` calls when memory is short, does not return: it ends asleep on
  the daemon's queue.  How often it finds its target not met is the caller's to say.

Page contents and page tables are left out; `Pageout/Objects.lean` has these, without the counters.
-/
import Mathlib.Algebra.Group.Nat.Defs
import Weenix.Kernel
import Weenix.Lib.Filing

namespace Weenix.PageCache

open Filing

/-! ## 1. The state -/

def pfHashSize : Nat := 17

def hashPage (obj pagenum : Nat) : Nat := (obj + pagenum) % 2 ^ 32 % pfHashSize

/-- `pframe_t`; a null `pf_obj` is none.  `pf_flags` are `PF_BUSY` and `PF_DIRTY`. -/
structure Pframe where
  pfObj : Option Nat
  pfPagenum : Nat
  pfAddr : Nat
  busy : Bool
  dirty : Bool
  pfPincount : Int
deriving DecidableEq, Repr

/-- The lists that `pf_link` is for. -/
inductive PfList where
  | alloc
  | pinned
deriving DecidableEq, Repr

structure PframeSys where
  pframe : Nat → Pframe
  lists : PfList → List Nat
  nallocated : Int
  npinned : Int
  pframeHash : Nat → List Nat
  /-- the memory objects there are -/
  mmobjs : List Nat
  mmoRefcount : Nat → Int
  mmoNrespages : Nat → Int
  mmoRespages : Nat → List Nat
  /-- references to an object that are not from the cache -/
  otherRefs : Nat → Int

def pframeInit : PframeSys where
  pframe := fun _ => ⟨none, 0, 0, false, false, 0⟩
  lists := fun _ => []
  nallocated := 0
  npinned := 0
  pframeHash := fun _ => []
  mmobjs := []
  mmoRefcount := fun _ => 0
  mmoNrespages := fun _ => 0
  mmoRespages := fun _ => []
  otherRefs := fun _ => 0

namespace PframeSys

def setPframe (s : PframeSys) (pf : Nat) (f : Pframe) : PframeSys :=
  { s with pframe := update s.pframe pf f }

/-- `list_remove(&pf->pf_link)` -/
def removeLink (s : PframeSys) (pf : Nat) : Except Halt PframeSys :=
  if pf ∈ s.lists .alloc ∨ pf ∈ s.lists .pinned then .ok { s with lists := unfile s.lists pf }
  else .error .wild

/-- `list_insert_tail(list, &pf->pf_link)` -/
def insertTail (s : PframeSys) (l : PfList) (pf : Nat) : PframeSys :=
  { s with lists := update s.lists l (s.lists l ++ [pf]) }

/-- `list_remove(&pf->pf_hlink)` -/
def removeHlink (s : PframeSys) (pf : Nat) : Except Halt PframeSys :=
  if ∃ i < pfHashSize, pf ∈ s.pframeHash i then .ok { s with pframeHash := unfile s.pframeHash pf }
  else .error .wild

/-- `list_insert_head(&pframe_hash[i], &pf->pf_hlink)` -/
def insertHash (s : PframeSys) (i pf : Nat) : PframeSys :=
  { s with pframeHash := update s.pframeHash i (pf :: s.pframeHash i) }

/-- `list_remove(&pf->pf_olink)` -/
def removeOlink (s : PframeSys) (pf : Nat) : Except Halt PframeSys :=
  if ∃ o ∈ s.mmobjs, pf ∈ s.mmoRespages o then .ok { s with mmoRespages := unfile s.mmoRespages pf }
  else .error .wild

/-- `list_insert_head(&o->mmo_respages, &pf->pf_olink)` -/
def insertRespages (s : PframeSys) (o pf : Nat) : PframeSys :=
  { s with mmoRespages := update s.mmoRespages o (pf :: s.mmoRespages o) }

/-- `o->mmo_nrespages += d` -/
def addNrespages (s : PframeSys) (o : Nat) (d : Int) : PframeSys :=
  { s with mmoNrespages := update s.mmoNrespages o (s.mmoNrespages o + d) }

/-- `o->mmo_ops->ref(o)` is `addRefs o 1`, `o->mmo_ops->put(o)` is `addRefs o (-1)`. -/
def addRefs (s : PframeSys) (o : Nat) (d : Int) : PframeSys :=
  { s with mmoRefcount := update s.mmoRefcount o (s.mmoRefcount o + d) }

end PframeSys

/-! ## 2. Finding and allocating -/

def pframeGetResident (s : PframeSys) (o pagenum : Nat) : Except Halt (PframeSys × Option Nat) :=
  match (s.pframeHash (hashPage o pagenum)).find? fun pf =>
      (s.pframe pf).pfObj = some o ∧ (s.pframe pf).pfPagenum = pagenum with
  | none => .ok (s, none)
  | some pf =>
    if (s.pframe pf).pfPincount = 0 then do
      -- send to back of alloc_list
      let s ← s.removeLink pf
      return (s.insertTail .alloc pf, some pf)
    else .ok (s, some pf)

/-- `pframe_alloc(o, pagenum)`, with what the slab and the page allocator return. -/
def pframeAlloc (s : PframeSys) (o pagenum : Nat) : Option Nat → Option Nat → PframeSys × Option Nat
  | none, _ => (s, none)
  | some _, none => (s, none)
  | some pf, some addr =>
    let s := { s with nallocated := s.nallocated + 1 }
    let s := s.insertTail .alloc pf
    let s := s.setPframe pf ⟨some o, pagenum, addr, false, false, 0⟩
    let s := s.insertHash (hashPage o pagenum) pf
    let s := s.addRefs o 1
    let s := s.addNrespages o 1
    (s.insertRespages o pf, some pf)

/-- `pframe_fill(pf)`.  Nothing looks at what `fillpage` returns. -/
def pframeFill (s : PframeSys) (pf : Nat) : PframeSys :=
  let s := s.setPframe pf { s.pframe pf with busy := true }
  s.setPframe pf { s.pframe pf with busy := false }

/-! ## 3. Pinning, dirtying and cleaning -/

def pframePin (s : PframeSys) (pf : Nat) : Except Halt PframeSys := do
  kassert (s.pframe pf).pfObj.isSome "!pframe_is_free(pf)"
  kassert ((s.pframe pf).pfPincount ≥ 0) "pf->pf_pincount >= 0"
  let s ← if (s.pframe pf).pfPincount = 0 then do
      let s ← s.removeLink pf
      let s := { s with nallocated := s.nallocated - 1 }
      pure (s.insertTail .pinned pf)
    else pure s
  let s := { s with npinned := s.npinned + 1 }
  return s.setPframe pf { s.pframe pf with pfPincount := (s.pframe pf).pfPincount + 1 }

def pframeUnpin (s : PframeSys) (pf : Nat) : Except Halt PframeSys := do
  kassert (s.pframe pf).pfObj.isSome "!pframe_is_free(pf)"
  kassert ((s.pframe pf).pfPincount > 0) "pf->pf_pincount > 0"
  let s := s.setPframe pf { s.pframe pf with pfPincount := (s.pframe pf).pfPincount - 1 }
  let s := { s with npinned := s.npinned - 1 }
  if (s.pframe pf).pfPincount = 0 then
    let s ← s.removeLink pf
    let s := s.insertTail .alloc pf
    return { s with nallocated := s.nallocated + 1 }
  else return s

/-- `pframe_dirty(pf)`; `ret` is what `dirtypage` returns. -/
def pframeDirty (s : PframeSys) (pf : Nat) (ret : Int) : Except Halt PframeSys := do
  kassert (!(s.pframe pf).busy) "!pframe_is_busy(pf)"
  let s := s.setPframe pf { s.pframe pf with busy := true }
  let s := if ret = 0 then s.setPframe pf { s.pframe pf with dirty := true } else s
  return s.setPframe pf { s.pframe pf with busy := false }

/-- `pframe_clean(pf)`; `ret` is what `cleanpage` returns. -/
def pframeClean (s : PframeSys) (pf : Nat) (ret : Int) : Except Halt PframeSys := do
  kassert (s.pframe pf).dirty "pframe_is_dirty(pf) && \"Cleaning page that isn't dirty!\""
  kassert ((s.pframe pf).pfPincount == 0) "pf->pf_pincount == 0 && \"Cleaning a pinned page!\""
  let s := s.setPframe pf { s.pframe pf with dirty := false }
  let s := s.setPframe pf { s.pframe pf with busy := true }
  let s := if ret < 0 then s.setPframe pf { s.pframe pf with dirty := true } else s
  return s.setPframe pf { s.pframe pf with busy := false }

/-! ## 4. Freeing and migrating -/

def pframeFree (s : PframeSys) (pf : Nat) : Except Halt PframeSys := do
  kassert ((s.pframe pf).pfPincount == 0) "!pframe_is_pinned(pf)"
  match (s.pframe pf).pfObj with
  | none => .error (.kassert "!pframe_is_free(pf)")
  | some o =>
    kassert (!(s.pframe pf).busy) "!pframe_is_busy(pf)"
    let s ← s.removeHlink pf
    let s := s.setPframe pf { s.pframe pf with pfObj := none }
    let s := { s with nallocated := s.nallocated - 1 }
    let s ← s.removeLink pf
    let s := s.addNrespages o (-1)
    -- the frame is free already, but its links are what they were
    let s ← s.removeOlink pf
    return s.addRefs o (-1)

/-- `pframe_migrate(pf, dest)`; `ret` is what `cleanpage` returns. -/
def pframeMigrate (s : PframeSys) (pf dest : Nat) (ret : Int) : Except Halt PframeSys := do
  kassert (!(s.pframe pf).busy) "!pframe_is_busy(pf)"
  match ← pframeGetResident s dest (s.pframe pf).pfPagenum with
  | (s, some _) =>
    -- dest already has a newer version of the page, clean this page
    let s ← pframeUnpin s pf
    let s ← pframeClean s pf ret
    pframeFree s pf
  | (s, none) =>
    match (s.pframe pf).pfObj with
    | none => .error .wild
    | some src =>
      let s := s.setPframe pf { s.pframe pf with pfObj := some dest }
      let s ← s.removeHlink pf
      let s ← s.removeOlink pf
      let s := s.addNrespages src (-1)
      let s := s.addRefs src (-1)
      let s := s.insertHash (hashPage dest (s.pframe pf).pfPagenum) pf
      let s := s.insertRespages dest pf
      let s := s.addNrespages dest 1
      return s.addRefs dest 1

/-! ## 5. Getting a page -/

/-- What a round of the daemon's loop sees: whether there are enough free pages, and what
`cleanpage` returns. -/
structure Round where
  targetMet : Bool
  ret : Int

/-- The inner loop of `pageoutd_run`. -/
def pageoutdLoop (s : PframeSys) : List Round → Except Halt PframeSys
  | [] => .ok s
  | r :: rounds =>
    if r.targetMet then .ok s
    else match s.lists .alloc with
      | [] => .ok s
      | pf :: _ =>
        -- obtain least-recently-requested page
        if (s.pframe pf).busy then .ok s
        else if (s.pframe pf).dirty then do pageoutdLoop (← pframeClean s pf r.ret) rounds
        else do pageoutdLoop (← pframeFree s pf) rounds

/-- `pageoutd_run`, up to its sleep. -/
def pageoutdRun (s : PframeSys) (rounds : List Round) : Except Halt PframeSys := do
  kassert (s.nallocated ≥ 0) "nallocated >= 0"
  pageoutdLoop s rounds

/-- What `pframe_get` meets: `page_free_count()`, the rounds of the daemon, and the answers of the
slab and the page allocator. -/
structure GetEnv where
  freeCount : Nat
  rounds : List Round
  slab : Option Nat
  page : Option Nat

/-- How `pframe_get` ends: with a return value and a frame, or asleep. -/
inductive GetResult where
  | ret (code : Int) (pf : Option Nat)
  | asleep
deriving DecidableEq, Repr

/-- `pframe_get(o, pagenum, result)`; `nfreepages_min` is 0. -/
def pframeGet (s : PframeSys) (o pagenum : Nat) (env : GetEnv) :
    Except Halt (PframeSys × GetResult) := do
  match ← pframeGetResident s o pagenum with
  | (s, some f) =>
    if (s.pframe f).busy then return (s, .asleep) else return (s, .ret 0 (some f))
  | (s, none) =>
    if env.freeCount ≤ 0 ∧ s.lists .alloc ≠ [] then
      return (← pageoutdRun s env.rounds, .asleep)
    else match pframeAlloc s o pagenum env.slab env.page with
      | (s, none) => return (s, .ret (-1) none)
      | (s, some f) => return (pframeFill s f, .ret 0 (some f))

/-! ## 6. The calls -/

inductive PframeCall where
  | get (o pagenum : Nat) (env : GetEnv)
  | pin (pf : Nat)
  | unpin (pf : Nat)
  | dirty (pf : Nat) (ret : Int)
  | clean (pf : Nat) (ret : Int)
  | free (pf : Nat)
  | migrate (pf dest : Nat) (ret : Int)
  /-- a thread in `pageoutd_run` wakes up -/
  | pageoutd (rounds : List Round)
  /-- `mmobj_init(o, ops)` -/
  | newObj (o : Nat)
  | ref (o : Nat)
  | put (o : Nat)

def pframeStep (s : PframeSys) : PframeCall → Except Halt PframeSys
  | .get o pagenum env => do return (← pframeGet s o pagenum env).1
  | .pin pf => pframePin s pf
  | .unpin pf => pframeUnpin s pf
  | .dirty pf ret => pframeDirty s pf ret
  | .clean pf ret => pframeClean s pf ret
  | .free pf => pframeFree s pf
  | .migrate pf dest ret => pframeMigrate s pf dest ret
  | .pageoutd rounds => pageoutdRun s rounds
  | .newObj o => .ok { s with
      mmobjs := o :: s.mmobjs
      mmoRefcount := update s.mmoRefcount o 0
      mmoNrespages := update s.mmoNrespages o 0
      mmoRespages := update s.mmoRespages o []
      otherRefs := update s.otherRefs o 0 }
  | .ref o =>
    let s := s.addRefs o 1
    .ok { s with otherRefs := update s.otherRefs o (s.otherRefs o + 1) }
  | .put o =>
    let s := s.addRefs o (-1)
    .ok { s with otherRefs := update s.otherRefs o (s.otherRefs o - 1) }

/-- Calls are made with objects that exist and frames that hold a page; the slab allocator does not
hand out a frame that is in use; a new object is not one of those that exist; and references are
dropped by those who have them. -/
def pframeLegal (s : PframeSys) : PframeCall → Prop
  | .get o _ env => o ∈ s.mmobjs ∧ ∀ pf ∈ env.slab, (s.pframe pf).pfObj = none
  | .pin pf | .unpin pf | .dirty pf _ | .clean pf _ | .free pf => (s.pframe pf).pfObj.isSome
  | .migrate pf dest _ => (s.pframe pf).pfObj.isSome ∧ dest ∈ s.mmobjs
  | .pageoutd _ => True
  | .newObj o => o ∉ s.mmobjs
  | .ref o => o ∈ s.mmobjs
  | .put o => o ∈ s.mmobjs ∧ 0 < s.otherRefs o

instance (s : PframeSys) (c : PframeCall) : Decidable (pframeLegal s c) := by
  cases c <;> unfold pframeLegal <;> infer_instance

end Weenix.PageCache
