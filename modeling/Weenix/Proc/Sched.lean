/-
# Threads and the scheduler (`proc/sched.c`, `proc/kthread.c`)

Threads and queues are numbers; `ktRunq` is the run queue.  A queue is the list of its threads from
`l_next` to `l_prev`: `ktqueue_enqueue` puts a thread at the front and `ktqueue_dequeue` takes the
last one.  The two pointers of `kt_qlink` are the list the link is on, if it is on one.

`context_switch` saves the place the current thread is at and goes on where the next thread was
saved.  Here it is the change of `curthr`: what a thread does when it runs again is up to the model
that uses this one.  A thread that finds the run queue empty waits in `intr_wait` while `curthr` is
still that thread, and interrupt handlers may wake up threads there (`intrWait`).

Two fields of a thread are not in the source, and nothing but proofs reads them: whether the thread
has been on a queue since it was created (`ktNew`) and when it arrived at its queue (`ktArrived`,
counted by `clock`).  The interrupt level is left out, and so is what a thread is for: `kt_ctx`,
`kt_kstack`, `kt_retval`, `kt_errno`, `kt_proc` and `kt_plink`.
-/
import Weenix.Kernel

namespace Weenix.Proc

/-! ## 1. The state -/

/-- The thread states of `kthread.h`. -/
inductive KtState where
  | noState
  | run
  | sleep
  | sleepCancellable
  | exited
deriving DecidableEq, Repr

structure Kthread where
  ktState : KtState
  ktWchan : Option Nat
  ktQlink : Option Nat
  ktCancelled : Bool
  ktNew : Bool
  ktArrived : Nat
deriving DecidableEq, Repr

/-- All threads and queues. -/
structure Sched where
  curthr : Nat
  intrWait : Bool
  kthread : Nat → Kthread
  tqList : Nat → List Nat
  tqSize : Nat → Int
  clock : Nat

def ktRunq : Nat := 0

def Sched.setThread (s : Sched) (thr : Nat) (f : Kthread → Kthread) : Sched :=
  { s with kthread := update s.kthread thr (f (s.kthread thr)) }

/-! ## 2. Queues -/

/-- `list_insert_head(&q->tq_list, &thr->kt_qlink)` with the two assignments after it. -/
def Sched.link (s : Sched) (q thr : Nat) : Sched :=
  { s with
    kthread := update s.kthread thr
      { s.kthread thr with
        ktWchan := some q, ktQlink := some q, ktNew := false, ktArrived := s.clock }
    tqList := update s.tqList q (thr :: s.tqList q)
    tqSize := update s.tqSize q (s.tqSize q + 1)
    clock := s.clock + 1 }

/-- `list_remove(&thr->kt_qlink)` on the list `l`, and the two assignments after it. -/
def Sched.unlink (s : Sched) (q l thr : Nat) : Sched :=
  { s with
    kthread := update s.kthread thr { s.kthread thr with ktWchan := none, ktQlink := none }
    tqList := update s.tqList l ((s.tqList l).erase thr)
    tqSize := update s.tqSize q (s.tqSize q - 1) }

/-- `ktqueue_enqueue(q, thr)`.  Inserting a link that is on a list breaks that list. -/
def ktqueueEnqueue (s : Sched) (q thr : Nat) : Except Halt Sched := do
  kassert (s.kthread thr).ktWchan.isNone "!thr->kt_wchan"
  if (s.kthread thr).ktQlink.isSome then .error .wild
  return s.link q thr

def ktqueueDequeue (s : Sched) (q : Nat) : Sched × Option Nat :=
  match (s.tqList q).getLast? with
  | none => (s, none)
  | some thr => (s.unlink q q thr, some thr)

def ktqueueRemove (s : Sched) (q thr : Nat) : Except Halt Sched := do
  kassert (s.kthread thr).ktQlink.isSome "thr->kt_qlink.l_next && thr->kt_qlink.l_prev"
  match (s.kthread thr).ktQlink with
  | none => .error .wild
  | some l => return s.unlink q l thr

/-! ## 3. The scheduler -/

def schedMakeRunnable (s : Sched) (thr : Nat) : Except Halt Sched := do
  kassert ((s.kthread thr).ktWchan ≠ some ktRunq) "&kt_runq != thr->kt_wchan"
  ktqueueEnqueue (s.setThread thr fun k => { k with ktState := .run }) ktRunq thr

/-- Take the next thread off the run queue and switch to it. -/
def runNext (s : Sched) : Except Halt Sched :=
  match ktqueueDequeue s ktRunq with
  | (_, none) => .error .wild    -- `thread2->kt_proc`
  | (s, some thread2) => .ok { s with curthr := thread2, intrWait := false }

/-- What `sched_sleep_on`, `sched_cancellable_sleep_on` and `sched_switch` end with. -/
def switchAway (s : Sched) : Except Halt Sched :=
  if (s.tqList ktRunq).isEmpty then .ok { s with intrWait := true } else runNext s

/-- `sched_sleep_on(q)`, up to where the thread is switched away from. -/
def schedSleepOn (s : Sched) (q : Nat) : Except Halt Sched := do
  let s := s.setThread s.curthr fun k => { k with ktState := .sleep }
  let s ← ktqueueEnqueue s q s.curthr
  switchAway s

/-- `sched_cancellable_sleep_on(q)`, up to where the thread is switched away from.  The flag says
whether it returned `-EINTR` instead; a thread that was switched away from gets 0. -/
def schedCancellableSleepOn (s : Sched) (q : Nat) : Except Halt (Sched × Bool) := do
  if (s.kthread s.curthr).ktCancelled then
    return (s, true)
  let s := s.setThread s.curthr fun k => { k with ktState := .sleepCancellable }
  let s ← ktqueueEnqueue s q s.curthr
  return (← switchAway s, false)

def schedWakeupOn (s : Sched) (q : Nat) : Except Halt (Sched × Option Nat) :=
  match ktqueueDequeue s q with
  | (s, none) => .ok (s, none)
  | (s, some pThread) => do
    kassert ((s.kthread pThread).ktState = .sleep || (s.kthread pThread).ktState =
      .sleepCancellable)
      "(pThread->kt_state == KT_SLEEP) || ( pThread->kt_state == KT_SLEEP_CANCELLABLE)"
    return (← schedMakeRunnable s pThread, some pThread)

def broadcastLoop (q : Nat) : Nat → Sched → Except Halt Sched
  | fuel, s =>
    match ktqueueDequeue s q with
    | (s, none) => .ok s
    | (s, some pThread) =>
      match fuel with
      | 0 => .error .hang
      | fuel + 1 => do broadcastLoop q fuel (← schedMakeRunnable s pThread)

def schedBroadcastOn (s : Sched) (q : Nat) : Except Halt Sched :=
  broadcastLoop q (s.tqList q).length s

def schedCancel (s : Sched) (kthr : Nat) : Except Halt Sched :=
  let s := s.setThread kthr fun k => { k with ktCancelled := true }
  if (s.kthread kthr).ktState = .sleepCancellable then
    match (s.kthread kthr).ktWchan with
    | none => .error .wild    -- `q->tq_size--`
    | some q => do schedMakeRunnable (← ktqueueRemove s q kthr) kthr
  else .ok s

def schedSwitch (s : Sched) : Except Halt Sched := switchAway s

/-! ## 4. Threads -/

/-- `kthread_create` at the address `thr`. -/
def kthreadCreate (s : Sched) (thr : Nat) : Sched :=
  s.setThread thr fun _ => ⟨.noState, none, none, false, true, 0⟩

/-- `kthread_clone(curthr)` at the address `newthr`. -/
def kthreadClone (s : Sched) (newthr : Nat) : Except Halt Sched := do
  let thr := s.kthread s.curthr
  kassert (thr.ktState = .run) "KT_RUN == thr->kt_state"
  return s.setThread newthr fun _ => ⟨thr.ktState, none, none, thr.ktCancelled, true, 0⟩

/-- `kthread_exit`, before `proc_thread_exited`. -/
def kthreadExit (s : Sched) : Except Halt Sched := do
  let s := s.setThread s.curthr fun k => { k with ktState := .exited }
  kassert (s.kthread s.curthr).ktWchan.isNone "!curthr->kt_wchan"
  kassert (s.kthread s.curthr).ktQlink.isNone "!curthr->kt_qlink.l_next && !curthr->kt_qlink.l_prev"
  return s

/-! ## 5. Calls -/

/-- What the current thread can call, and what happens while the scheduler waits. -/
inductive SchedCall where
  | sleepOn (q : Nat)
  | cancellableSleepOn (q : Nat)
  | wakeupOn (q : Nat)
  | broadcastOn (q : Nat)
  | cancel (thr : Nat)
  | switch
  | makeRunnable (thr : Nat)
  | create (thr : Nat)
  | clone (thr : Nat)
  | exit
  | intrWakeupOn (q : Nat)
  | intrBroadcastOn (q : Nat)
  | intrDone
deriving DecidableEq, Repr

/-- What goes on while the scheduler waits is not done by the current thread. -/
def SchedCall.ofInterrupt : SchedCall → Bool
  | .intrWakeupOn _ | .intrBroadcastOn _ | .intrDone => true
  | _ => false

/-- One call. -/
def schedStep (s : Sched) : SchedCall → Except Halt Sched
  | .sleepOn q => schedSleepOn s q
  | .cancellableSleepOn q => do return (← schedCancellableSleepOn s q).1
  | .wakeupOn q | .intrWakeupOn q => do return (← schedWakeupOn s q).1
  | .broadcastOn q | .intrBroadcastOn q => schedBroadcastOn s q
  | .cancel thr => schedCancel s thr
  | .switch => schedSwitch s
  | .makeRunnable thr => schedMakeRunnable s thr
  | .create thr => .ok (kthreadCreate s thr)
  | .clone thr => kthreadClone s thr
  | .exit => kthreadExit s
  | .intrDone => runNext s    -- the loop around `intr_wait` ends

/-- The current thread runs: the scheduler does not wait, and the thread has not made itself
runnable, after which it only switches. -/
def Sched.running (s : Sched) : Prop :=
  s.intrWait = false ∧ (s.kthread s.curthr).ktWchan = none
deriving Decidable

/-- The address is free for a new thread: nothing is there, or a thread that has exited and was
switched away from. -/
def Sched.unused (s : Sched) (thr : Nat) : Prop :=
  thr ≠ s.curthr ∧ ((s.kthread thr).ktNew = true ∨ (s.kthread thr).ktState = .exited)
deriving Decidable

/-- What every caller keeps to.  The run queue is private to `sched.c`; only new threads, and the
current thread right before it switches, are made runnable; interrupt handlers run while the
scheduler waits. -/
def SchedUse (s : Sched) : SchedCall → Prop
  | .sleepOn q | .cancellableSleepOn q | .wakeupOn q | .broadcastOn q => s.running ∧ q ≠ ktRunq
  | .cancel _ | .exit => s.running
  | .switch => s.intrWait = false
  | .makeRunnable thr => s.running ∧ ((s.kthread thr).ktNew = true ∨ thr = s.curthr)
  | .create thr => s.running ∧ s.unused thr
  | .clone thr => s.running ∧ s.unused thr ∧ (s.kthread s.curthr).ktState = .run
  | .intrWakeupOn q | .intrBroadcastOn q => s.intrWait = true ∧ q ≠ ktRunq
  | .intrDone => s.intrWait = true ∧ s.tqList ktRunq ≠ []

instance (s : Sched) (c : SchedCall) : Decidable (SchedUse s c) := by
  cases c <;> unfold SchedUse <;> infer_instance

/-- What keeps threads from getting lost: threads that have exited do not sleep and are not made
runnable, and only they, and threads that are on the run queue already, call `sched_switch`. -/
def SchedLegal (s : Sched) (c : SchedCall) : Prop :=
  SchedUse s c ∧
  match c with
  | .sleepOn _ | .cancellableSleepOn _ => (s.kthread s.curthr).ktState ≠ .exited
  | .switch => (s.kthread s.curthr).ktWchan = some ktRunq ∨ (s.kthread s.curthr).ktState = .exited
  | .makeRunnable thr => (s.kthread thr).ktState ≠ .exited
  | _ => True

instance (s : Sched) (c : SchedCall) : Decidable (SchedLegal s c) := by
  unfold SchedLegal
  cases c <;> infer_instance

/-- All queues are empty and `idle` runs. -/
def bootSched (idle : Nat) : Sched where
  curthr := idle
  intrWait := false
  kthread := fun thr => ⟨.noState, none, none, false, thr != idle, 0⟩
  tqList := fun _ => []
  tqSize := fun _ => 0
  clock := 0

end Weenix.Proc
