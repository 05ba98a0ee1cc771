/-
# Mutexes (`proc/kmutex.c`)

One mutex, whose wait queue is the queue `kmWaitq`, on top of the scheduler.  A thread that has to
wait is switched away from inside the call, and the call goes on when the thread runs again: `pc`
says which threads are in the middle of a call, and the step `ret` ends the call of the current
thread.  All that is left to do then is to return, with 0: `kmutex_lock` has nothing after
`sched_sleep_on`, and `sched_cancellable_sleep_on` ends with `return 0`.

Beside the mutex the state keeps what results about it speak of and no call reads: the threads
between a successful acquisition and its unlock (`inside`), and the threads in the order in which
they called, were made the holder, and returned.

Threads may call all of the scheduler in between, on other queues, and any thread may be cancelled
at any time.
-/
import Weenix.Lib.Run
import Weenix.Proc.SchedInv

namespace Weenix.Proc

/-! ## 1. `kmutex.c` -/

def eintr : Int := 4

/-- `&mtx->km_waitq` -/
def kmWaitq : Nat := 1

/-- `kmutex_t`, with the scheduler that has its queue. -/
structure Kmutex where
  kmHolder : Option Nat
  sched : Sched

/-- What a call to lock the mutex comes to before the thread is switched away from. -/
inductive LockOut where
  | returned (r : Int)
  | asleep
deriving DecidableEq, Repr

def kmutexLock (m : Kmutex) : Except Halt (Kmutex × LockOut) := do
  kassert (m.kmHolder ≠ some m.sched.curthr) "curthr && (curthr != mtx->km_holder)"
  if m.kmHolder.isSome then
    return ({ m with sched := ← schedSleepOn m.sched kmWaitq }, .asleep)
  else
    return ({ m with kmHolder := some m.sched.curthr }, .returned 0)

def kmutexLockCancellable (m : Kmutex) : Except Halt (Kmutex × LockOut) := do
  kassert (m.kmHolder ≠ some m.sched.curthr) "curthr && (curthr != mtx->km_holder)"
  if m.kmHolder.isNone then
    return ({ m with kmHolder := some m.sched.curthr }, .returned 0)
  else
    let r ← schedCancellableSleepOn m.sched kmWaitq
    return ({ m with sched := r.1 }, if r.2 then .returned (-eintr) else .asleep)

def kmutexUnlock (m : Kmutex) : Except Halt Kmutex := do
  kassert (m.kmHolder = some m.sched.curthr) "curthr && (curthr == mtx->km_holder)"
  let m' ← if m.sched.tqSize kmWaitq ≠ 0 then do
      let r ← schedWakeupOn m.sched kmWaitq
      pure { m with sched := r.1, kmHolder := r.2 }
    else pure { m with kmHolder := none }
  kassert (m'.kmHolder ≠ some m.sched.curthr) "curthr != mtx->km_holder"
  return m'

/-! ## 2. The system -/

/-- Where a thread is: not in a call, or asleep in one of the two. -/
inductive Pc where
  | user
  | inLock
  | inLockCancellable
deriving DecidableEq, Repr

structure KmState where
  mtx : Kmutex
  pc : Nat → Pc
  inside : List Nat
  lockCalls : List Nat
  acquired : List Nat
  returned : List Nat

def KmState.cur (s : KmState) : Nat := s.mtx.sched.curthr

/-- The threads that wait for the mutex, the one that came last first. -/
def KmState.waitq (s : KmState) : List Nat := s.mtx.sched.tqList kmWaitq

inductive KmCall where
  | lock
  | lockCancellable
  | unlock
  | ret
  | sched (c : SchedCall)
deriving DecidableEq, Repr

/-- The call `thr` made, which it sleeps in at `pc` if it has to, has come to `r`. -/
def KmState.locked (s : KmState) (thr : Nat) (pc : Pc) (r : Kmutex × LockOut) : KmState :=
  match r.2 with
  | .asleep =>
    { s with
      mtx := r.1
      pc := update s.pc thr pc
      lockCalls := s.lockCalls ++ [thr] }
  | .returned v =>
    if v = 0 then
      { s with
        mtx := r.1
        inside := thr :: s.inside
        lockCalls := s.lockCalls ++ [thr]
        acquired := s.acquired ++ [thr]
        returned := s.returned ++ [thr] }
    else { s with mtx := r.1 }

/-- One call. -/
def kmStep (s : KmState) : KmCall → Except Halt KmState
  | .lock => do return s.locked s.cur .inLock (← kmutexLock s.mtx)
  | .lockCancellable => do return s.locked s.cur .inLockCancellable (← kmutexLockCancellable s.mtx)
  | .unlock => do
    let m ← kmutexUnlock s.mtx
    return { s with
      mtx := m
      inside := s.inside.erase s.cur
      acquired := s.acquired ++ m.kmHolder.toList }
  | .ret =>
    .ok { s with
      pc := update s.pc s.cur .user
      inside := s.cur :: s.inside
      returned := s.returned ++ [s.cur] }
  | .sched c => do return { s with mtx := { s.mtx with sched := ← schedStep s.mtx.sched c } }

/-- No new thread is put where one that has the mutex was. -/
def SchedCall.spares (inside : List Nat) : SchedCall → Prop
  | .create thr | .clone thr => thr ∉ inside
  | _ => True

instance (inside : List Nat) (c : SchedCall) : Decidable (c.spares inside) := by
  obtain _ | _ := c <;> unfold SchedCall.spares <;> infer_instance

/-- The contract: no thread locks a mutex it has, only a thread that has it unlocks it, and only
the mutex uses its wait queue. -/
def KmLegal (s : KmState) : KmCall → Prop
  | .lock | .lockCancellable => s.mtx.sched.running ∧ s.pc s.cur = .user ∧ s.cur ∉ s.inside
  | .unlock => s.mtx.sched.running ∧ s.pc s.cur = .user ∧ s.cur ∈ s.inside
  | .ret => s.mtx.sched.running ∧ s.pc s.cur ≠ .user
  | .sched c => SchedUse s.mtx.sched c ∧ c.queue ≠ some kmWaitq ∧
      (c.ofInterrupt = false → s.pc s.cur = .user) ∧ c.spares s.inside

instance (s : KmState) (c : KmCall) : Decidable (KmLegal s c) := by
  cases c <;> unfold KmLegal <;> infer_instance

/-- The mutex after `kmutex_init`, and one thread. -/
def bootKmutex (idle : Nat) : KmState where
  mtx := ⟨none, bootSched idle⟩
  pc := fun _ => .user
  inside := []
  lockCalls := []
  acquired := []
  returned := []

end Weenix.Proc
