/-
# Getting and putting vnodes (`fs/vnode.c`)

`vget` looks for a vnode on the in-use list and loads it if it is not there; `vput` drops a
reference and tears the vnode down with the last one.  Loading and tearing down call the file
system, which may block; the vnode is on the list and `VN_BUSY` meanwhile, and a `vget` that finds
it so sleeps on its `vn_waitq`.

The kernel is not preemptive, so a thread runs from one place where it can block to the next.  These
places are the states of a thread (`Thread`), and the steps between them the calls (`VnodeCall`):
the scheduler's choice of a thread, what the slab allocator answers, and what `query_vnode` answers.

What is kept:

* a vnode is its address; `memset` and the initialisation are at its allocation, and its fields stay
  when it is freed;
* of the resident pages the number, which `pframe_alloc` and `pframe_free` change.  A thread in the
  loop of `vput` over the pages can be switched away from before each page (it may have to wait for
  it) and leave the loop at any time; the assertions after the loop are there;
* mount points (`__MOUNTING__` is off), the mutex, special files and debugging output are left out.

Beside that the state keeps what no step reads: the references there are to each vnode (`refs`), the
calls and returns of `read_vnode` and `delete_vnode` (`log`), what `vget` returned if the last step
ended one (`ret`), and which thread loads a vnode or tears it down (`stage`).
-/
import Mathlib.Data.List.Basic
import Weenix.Kernel

namespace Weenix.VnodeTable

/-! ## 1. The state -/

/-- `vn_fs` and `vn_vno` -/
abbrev Ident := Nat × Nat

/-- What is done with a vnode, and by which thread. -/
inductive Stage where
  | loading (t : Nat)
  | live
  | dying (t : Nat)
deriving DecidableEq, Repr

/-- `vnode_t`; `busy` is `VN_BUSY`. -/
structure Vnode where
  ident : Ident
  busy : Bool
  vnRefcount : Int
  vnNrespages : Int
  stage : Stage
deriving DecidableEq, Repr

/-- Where a thread is. -/
inductive Thread where
  /-- in neither function -/
  | idle
  /-- about to go on at `find:` -/
  | finding (id : Ident)
  /-- asleep on the `vn_waitq` of a vnode -/
  | waiting (vn : Nat) (id : Ident)
  /-- in `read_vnode` -/
  | reading (vn : Nat)
  /-- in the loop over the pages -/
  | uncaching (vn : Nat)
  /-- in `delete_vnode` -/
  | deleting (vn : Nat)
deriving DecidableEq, Repr

/-- Calls into the file system and returns from them. -/
inductive FsEvent where
  | readCall
  | readRet
  | deleteCall
  | deleteRet
deriving DecidableEq, Repr

structure VnodeSys where
  vnodeInuseList : List Nat
  vnode : Nat → Vnode
  vnWaitq : Nat → List Nat
  thread : Nat → Thread
  /-- The active references.  `(some t, vn)` is the one that thread `t` is dropping. -/
  refs : List (Option Nat × Nat)
  log : List (Ident × FsEvent)
  ret : Option (Ident × Nat)

def vnodeInit : VnodeSys where
  vnodeInuseList := []
  vnode := fun _ => ⟨(0, 0), false, 0, 0, .live⟩
  vnWaitq := fun _ => []
  thread := fun _ => .idle
  refs := []
  log := []
  ret := none

namespace VnodeSys

def setVnode (s : VnodeSys) (vn : Nat) (v : Vnode) : VnodeSys :=
  { s with vnode := update s.vnode vn v }

def setThread (s : VnodeSys) (t : Nat) (th : Thread) : VnodeSys :=
  { s with thread := update s.thread t th }

end VnodeSys

/-! ## 2. `vget` -/

def vref (s : VnodeSys) (vn : Nat) : Except Halt VnodeSys := do
  kassert (0 < (s.vnode vn).vnRefcount) "0 < vn->vn_refcount"
  return s.setVnode vn { s.vnode vn with vnRefcount := (s.vnode vn).vnRefcount + 1 }

/-- `vget(fs, vno)` from `find:` to the next place where it blocks or returns; `slab` is what the
slab allocator returns. -/
def vgetFind (s : VnodeSys) (t : Nat) (id : Ident) (slab : Option Nat) : Except Halt VnodeSys :=
  match s.vnodeInuseList.find? fun vn => (s.vnode vn).ident = id with
  | some vn =>
    if (s.vnode vn).busy then
      -- it's either being brought in or it's on its way out
      .ok { s.setThread t (.waiting vn id) with
        vnWaitq := update s.vnWaitq vn (s.vnWaitq vn ++ [t]), ret := none }
    else do
      let s ← vref s vn
      return { s.setThread t .idle with refs := (none, vn) :: s.refs, ret := some (id, vn) }
  | none =>
    match slab with
    | none => .ok { s with ret := none }
    | some vn =>
      let s := s.setVnode vn ⟨id, true, 0, 0, .loading t⟩
      .ok { s.setThread t (.reading vn) with
        vnodeInuseList := vn :: s.vnodeInuseList
        vnWaitq := update s.vnWaitq vn []
        log := s.log ++ [(id, .readCall)]
        ret := none }

/-- The end of `vget`, after `read_vnode`. -/
def vgetLoaded (s : VnodeSys) (t vn : Nat) : VnodeSys :=
  let id := (s.vnode vn).ident
  let s := s.setVnode vn { s.vnode vn with busy := false, vnRefcount := 1, stage := .live }
  { s.setThread t .idle with
    refs := (none, vn) :: s.refs
    log := s.log ++ [(id, .readRet)]
    ret := some (id, vn) }

/-! ## 3. `vput` -/

/-- `vput(vn)` from `--vn->vn_refcount` to the return or the call of `delete_vnode`. -/
def vputDrop (s : VnodeSys) (t vn : Nat) : Except Halt VnodeSys := do
  let s := { s with refs := s.refs.erase (some t, vn) }
  let s := s.setVnode vn { s.vnode vn with vnRefcount := (s.vnode vn).vnRefcount - 1 }
  if 0 < (s.vnode vn).vnRefcount then return { s.setThread t .idle with ret := none }
  else
    kassert ((s.vnode vn).vnRefcount == 0) "0 == vn->vn_refcount"
    kassert ((s.vnode vn).vnNrespages == 0) "0 == vn->vn_nrespages"
    let id := (s.vnode vn).ident
    let s := s.setVnode vn { s.vnode vn with busy := true, stage := .dying t }
    return { s.setThread t (.deleting vn) with log := s.log ++ [(id, .deleteCall)], ret := none }

def vputAsserts (v : Vnode) : Except Halt Unit := do
  kassert (0 ≤ v.vnNrespages) "0 <= vn->vn_nrespages"
  kassert (v.vnNrespages < v.vnRefcount) "vn->vn_nrespages < vn->vn_refcount"
  kassert (!v.busy) "!(VN_BUSY & vn->vn_flags)"

/-- `vput(vn)` up to the place where it blocks or returns; `query` is what `query_vnode` returns. -/
def vput (s : VnodeSys) (t vn : Nat) (query : Bool) : Except Halt VnodeSys := do
  vputAsserts (s.vnode vn)
  if (s.vnode vn).vnNrespages = (s.vnode vn).vnRefcount - 1 ∧ query = false then
    return { s.setThread t (.uncaching vn) with ret := none }
  else vputDrop s t vn

/-- `pframe_free(vp)` in the loop of `vput`: the page is gone, and `vo_vput` drops its reference in
a `vput` inside the `vput`.  That one is not the last, nor one that would start the loop again. -/
def vputUncache (s : VnodeSys) (vn : Nat) : Except Halt VnodeSys := do
  let s := s.setVnode vn { s.vnode vn with vnNrespages := (s.vnode vn).vnNrespages - 1 }
  vputAsserts (s.vnode vn)
  if (s.vnode vn).vnNrespages = (s.vnode vn).vnRefcount - 1 then .error .wild
  let s := s.setVnode vn { s.vnode vn with vnRefcount := (s.vnode vn).vnRefcount - 1 }
  if 0 < (s.vnode vn).vnRefcount then return { s with ret := none } else .error .wild

/-- `vput(vn)` after the loop over the pages. -/
def vputUncached (s : VnodeSys) (t vn : Nat) : Except Halt VnodeSys := do
  kassert ((s.vnode vn).vnNrespages == 0) "0 == vn->vn_nrespages"
  kassert ((s.vnode vn).vnRefcount == 1) "1 == vn->vn_refcount"
  vputDrop s t vn

/-- A thread that sleeps in `vget` is made runnable. -/
def wake : Thread → Thread
  | .waiting _ id => .finding id
  | th => th

/-- The end of `vput`, after `delete_vnode`. -/
def vputDeleted (s : VnodeSys) (t vn : Nat) : VnodeSys :=
  let id := (s.vnode vn).ident
  let s := { s with
    thread := fun t => if t ∈ s.vnWaitq vn then wake (s.thread t) else s.thread t
    vnWaitq := update s.vnWaitq vn [] }
  { s.setThread t .idle with
    vnodeInuseList := s.vnodeInuseList.erase vn
    log := s.log ++ [(id, .deleteRet)]
    ret := none }

/-! ## 4. The steps -/

inductive VnodeCall where
  /-- thread `t` calls `vget` -/
  | vget (t : Nat) (id : Ident)
  /-- a thread in `vget` goes on at `find:` -/
  | find (t : Nat) (id : Ident) (slab : Option Nat)
  /-- `read_vnode` returns -/
  | loaded (t vn : Nat)
  /-- thread `t` calls `vput` -/
  | vput (t vn : Nat) (query : Bool)
  /-- thread `t` frees a page of `vn` (`pframe_free`), and `vput`s its reference -/
  | freePage (t vn : Nat) (query : Bool)
  | uncache (t vn : Nat)
  | uncached (t vn : Nat)
  /-- `delete_vnode` returns -/
  | deleted (t vn : Nat)
  | vref (vn : Nat)
  /-- a page of `vn` becomes resident (`pframe_alloc`) -/
  | addPage (vn : Nat)
deriving Repr

def vnodeStep (s : VnodeSys) : VnodeCall → Except Halt VnodeSys
  | .vget t id => .ok { s.setThread t (.finding id) with ret := none }
  | .find t id slab => vgetFind s t id slab
  | .loaded t vn => .ok (vgetLoaded s t vn)
  | .vput t vn query => vput { s with refs := (some t, vn) :: s.refs.erase (none, vn) } t vn query
  | .freePage t vn query =>
    let s := s.setVnode vn { s.vnode vn with vnNrespages := (s.vnode vn).vnNrespages - 1 }
    vput { s with refs := (some t, vn) :: s.refs } t vn query
  | .uncache _ vn => vputUncache s vn
  | .uncached t vn => vputUncached s t vn
  | .deleted t vn => .ok (vputDeleted s t vn)
  | .vref vn => do
    let s ← vref s vn
    return { s with refs := (none, vn) :: s.refs, ret := none }
  | .addPage vn => do
    let s ← vref s vn
    let s := s.setVnode vn { s.vnode vn with vnNrespages := (s.vnode vn).vnNrespages + 1 }
    return { s with ret := none }

/-- A thread does what it is at; a reference is used by someone who has it; a page is freed that is
there; the slab allocator does not hand out a vnode that is in use. -/
def vnodeLegal (s : VnodeSys) : VnodeCall → Prop
  | .vget t _ => s.thread t = .idle
  | .find t id slab => s.thread t = .finding id ∧ ∀ vn ∈ slab, vn ∉ s.vnodeInuseList
  | .loaded t vn => s.thread t = .reading vn
  | .vput t vn _ => s.thread t = .idle ∧ (none, vn) ∈ s.refs
  | .freePage t vn _ => s.thread t = .idle ∧ vn ∈ s.vnodeInuseList ∧ 0 < (s.vnode vn).vnNrespages
  | .uncache t vn => s.thread t = .uncaching vn ∧ 0 < (s.vnode vn).vnNrespages
  | .uncached t vn => s.thread t = .uncaching vn
  | .deleted t vn => s.thread t = .deleting vn
  | .vref vn => (none, vn) ∈ s.refs
  | .addPage vn => (none, vn) ∈ s.refs

instance (s : VnodeSys) (c : VnodeCall) : Decidable (vnodeLegal s c) := by
  cases c <;> unfold vnodeLegal <;> infer_instance

end Weenix.VnodeTable
