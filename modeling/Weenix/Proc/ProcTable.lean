/-
# The process table (`proc/proc.c`)

Processes are the addresses of their `proc_t`.  `_proc_list` and every `p_children` are lists of
them in the order of the links; `slab_obj_alloc` hands out an address that is not in use, which may
have been in use before.

The functions are cut at the points where a thread can be switched away from.  `proc_cleanup` is
`cleanupStart`, which ends with the parent to wake up, and `cleanupFinish`, which is what it does
after `vput`, `do_close` and `vmmap_destroy`.  `do_waitpid` is `doWaitpid` up to its first sleep or
its return, and `waitpidScan` every time it is woken up; the loop for -1 and the loop for a positive
pid are the same text.

Left out are the fields that these functions only pass on or release: the name, the files, the
working directory, the address space and the page directory, whose assertion in `do_waitpid` is
about `pt_create_pagedir`.  Without threads to a process (`__MTP__`) `p_threads` is one thread, and
`ktExited` is what `do_waitpid` finds in its `kt_state`.
-/
import Weenix.Kernel

namespace Weenix.Proc

/-! ## 1. The state -/

/-- `PROC_RUNNING` and `PROC_DEAD` -/
inductive ProcState where
  | running
  | dead
deriving DecidableEq, Repr

/-- `proc_t` -/
structure Process where
  pPid : Int
  pState : ProcState
  pStatus : Int
  pPproc : Option Nat
  pChildren : List Nat
deriving DecidableEq, Repr

/-- The static variables of `proc.c`, and all processes. -/
structure ProcTable where
  proc : Nat → Process
  procList : List Nat
  procInitproc : Option Nat
  nextPid : Nat

def ProcTable.modify (t : ProcTable) (p : Nat) (f : Process → Process) : ProcTable :=
  { t with proc := update t.proc p (f (t.proc p)) }

theorem modify_self (t : ProcTable) (p : Nat) (f : Process → Process) :
    (t.modify p f).proc p = f (t.proc p) := update_self ..

theorem modify_ne {t : ProcTable} {p q : Nat} {f : Process → Process} (hq : q ≠ p) :
    (t.modify p f).proc q = t.proc q := update_of_ne hq ..

def procMaxCount : Nat := 65536

def pidIdle : Int := 0

def pidInit : Int := 1

def echild : Int := 10

/-! ## 2. Creation -/

/-- The test of the loop of `_proc_getid`. -/
def ProcTable.usesPid (t : ProcTable) (pid : Nat) : Bool :=
  t.procList.any fun p => (t.proc p).pPid = pid

/-- The loop of `_proc_getid`, at `pid`; `none` is -1. -/
def getidLoop (uses : Nat → Bool) (nextPid : Nat) : Nat → Nat → Except Halt (Option Nat)
  | 0, _ => .error .hang
  | fuel + 1, pid =>
    if uses pid then
      if (pid + 1) % procMaxCount = nextPid then .ok none
      else getidLoop uses nextPid fuel ((pid + 1) % procMaxCount)
    else .ok (some pid)

def procGetid (t : ProcTable) : Except Halt (ProcTable × Int) := do
  match ← getidLoop t.usesPid t.nextPid procMaxCount t.nextPid with
  | none => return (t, -1)
  | some pid => return ({ t with nextPid := (pid + 1) % procMaxCount }, pid)

/-- The rest of `proc_create`, for the process at `proc` and its pid. -/
def createWith (t : ProcTable) (curproc : Option Nat) (proc : Nat) (pid : Int) :
    Except Halt ProcTable := do
  let t := if pid = pidInit then { t with procInitproc := some proc } else t
  kassert (pid ≠ pidIdle || t.procList.isEmpty) "PID_IDLE != pid || list_empty(&_proc_list)"
  if pid = pidInit ∧ curproc.isNone then .error .wild    -- `parentProc->p_pid`
  kassert (pid ≠ pidInit || curproc.any fun p => (t.proc p).pPid = pidIdle)
    "PID_INIT != pid || PID_IDLE == parentProc->p_pid"
  let t := t.modify proc fun _ => ⟨pid, .running, 0, curproc, []⟩
  let t := match curproc with
    | none => t
    | some p => t.modify p fun r => { r with pChildren := r.pChildren ++ [proc] }
  return { t with procList := t.procList ++ [proc] }

/-- `proc_create` by `curproc`, at the address `proc`. -/
def procCreate (t : ProcTable) (curproc : Option Nat) (proc : Nat) : Except Halt ProcTable := do
  let r ← procGetid t
  createWith r.1 curproc proc r.2

def procLookup (t : ProcTable) (pid : Int) : Option Nat :=
  t.procList.find? fun p => (t.proc p).pPid = pid

/-! ## 3. Exit -/

/-- `proc_cleanup` up to `sched_wakeup_on(&(myParentProc->p_wait))`: the parent. -/
def cleanupStart (t : ProcTable) (curproc : Nat) : Except Halt Nat := do
  kassert t.procInitproc.isSome "NULL != proc_initproc"
  kassert (1 ≤ (t.proc curproc).pPid) "1 <= curproc->p_pid"
  kassert (t.proc curproc).pPproc.isSome "NULL != curproc->p_pproc"
  match (t.proc curproc).pPproc with
  | none => .error .wild
  | some myParentProc => return myParentProc

/-- Move the first child of `p` to the end of the children of `initproc`. -/
def ProcTable.moveChild (t : ProcTable) (p initproc child : Nat) (rest : List Nat) : ProcTable :=
  let t := t.modify p fun r => { r with pChildren := rest }
  let t := t.modify initproc fun r => { r with pChildren := r.pChildren ++ [child] }
  t.modify child fun r => { r with pPproc := some initproc }

/-- The loop of `proc_cleanup` over the children of `p`. -/
def reparentLoop (p initproc : Nat) : Nat → ProcTable → Except Halt ProcTable
  | fuel, t =>
    match (t.proc p).pChildren with
    | [] => .ok t
    | child :: rest =>
      match fuel with
      | 0 => .error .hang
      | fuel + 1 => reparentLoop p initproc fuel (t.moveChild p initproc child rest)

/-- `proc_cleanup(status)` from the loop on. -/
def cleanupFinish (t : ProcTable) (curproc : Nat) (status : Int) : Except Halt ProcTable :=
  match t.procInitproc with
  | none => .error .wild
  | some initproc => do
    let t ← reparentLoop curproc initproc (t.proc curproc).pChildren.length t
    let t := t.modify curproc fun r => { r with pState := .dead, pStatus := status }
    kassert (t.proc curproc).pPproc.isSome "NULL != curproc->p_pproc"
    return t

/-! ## 4. Waiting -/

/-- What a round of `do_waitpid` comes to: its return value and what it stores in `*status`, or
that it sleeps on `p_wait`. -/
inductive WaitOut where
  | returned (r : Int) (status : Option Int)
  | sleeps
deriving DecidableEq, Repr

def deadChild (t : ProcTable) (curproc : Nat) : Option Nat :=
  (t.proc curproc).pChildren.find? fun c => (t.proc c).pState = .dead

/-- The process `c` is taken off its two lists and freed. -/
def ProcTable.reap (t : ProcTable) (curproc c : Nat) : ProcTable :=
  { t.modify curproc fun r => { r with pChildren := r.pChildren.erase c } with
    procList := t.procList.erase c }

/-- One round of the loops of `do_waitpid`. -/
def waitpidScan (t : ProcTable) (curproc : Nat) (ktExited : Nat → Bool) :
    Except Halt (ProcTable × WaitOut) :=
  match deadChild t curproc with
  | some c => do
    kassert (ktExited c) "KT_EXITED == pThread->kt_state"
    return (t.reap curproc c, .returned (t.proc c).pPid (some (t.proc c).pStatus))
  | none => .ok (t, .sleeps)

/-- `do_waitpid(pid, 0, &status)` by `curproc`, with its first round. -/
def doWaitpid (t : ProcTable) (curproc : Nat) (pid : Int) (ktExited : Nat → Bool) :
    Except Halt (ProcTable × WaitOut) :=
  if (t.proc curproc).pChildren.isEmpty then .ok (t, .returned (-echild) none)
  else if pid = -1 then waitpidScan t curproc ktExited
  else if 0 < pid then
    match procLookup t pid with
    | none => .ok (t, .returned (-echild) none)
    | some p =>
      if (t.proc p).pPproc ≠ some curproc then .ok (t, .returned (-echild) none)
      else do
        kassert (pid = -1 || (t.proc p).pPid = pid) "-1 == pid || pProc->p_pid == pid"
        waitpidScan t curproc ktExited
  else .ok (t, .returned pid none)

/-! ## 5. Boot -/

/-- The table before the first process. -/
def emptyTable : ProcTable where
  proc := fun _ => ⟨0, .running, 0, none, []⟩
  procList := []
  procInitproc := none
  nextPid := 0

/-- The idle process, and the init process that it creates. -/
def bootTable (idle init : Nat) : Except Halt ProcTable := do
  let t ← procCreate emptyTable none idle
  procCreate t (some idle) init

end Weenix.Proc
