/-
# Processes that run

The process table on top of the scheduler.  Without threads to a process, the thread of the process
`p` is the thread `p`, and its `p_wait` is the queue `pWait p`; all other queues have even numbers.

`pc` says where the thread of a process is: in its own business, asleep in `do_waitpid` or about to
look at its children again, or in the middle of `proc_cleanup`, where `vput`, `do_close` and
`vmmap_destroy` may put it to sleep any number of times.  A step is what a thread does up to the
next point where it may be switched away from.

Addresses are used again, so a process is told from an earlier one at the same address by a serial
number.  The state records who exited and what `do_waitpid` reported; no call reads these records.
-/
import Weenix.Proc.ProcTable
import Weenix.Proc.SchedInv

namespace Weenix.Proc

/-- `&p->p_wait` -/
def pWait (p : Nat) : Nat := 2 * p + 1

/-- Where the thread of a process is. -/
inductive ProcPc where
  | user
  | inWait (pid : Int)
  | exiting (status : Int)
  | gone
deriving DecidableEq, Repr

/-- A process, its pid and the status it exited with. -/
structure ExitRecord where
  serial : Nat
  pid : Int
  status : Int
deriving DecidableEq, Repr

structure ProcSys where
  tbl : ProcTable
  sched : Sched
  pc : Nat → ProcPc
  serial : Nat → Nat
  nserial : Nat
  exits : List ExitRecord
  reports : List ExitRecord

def ProcSys.cur (s : ProcSys) : Nat := s.sched.curthr

/-- What `do_waitpid` finds in the threads of its children. -/
def ProcSys.ktExited (s : ProcSys) (p : Nat) : Bool := (s.sched.kthread p).ktState = .exited

inductive ProcCall where
  | create (a : Nat)
  | exit (status : Int)
  | finish
  | waitpid (pid : Int)
  | rescan
  | sched (c : SchedCall)
deriving DecidableEq, Repr

/-- The process that a round of `do_waitpid` has freed, with what it returned and stored. -/
def ProcSys.reported (s : ProcSys) (v : Int) : Option Int → List ExitRecord
  | none => []
  | some status => (deadChild s.tbl s.cur).toList.map fun c => ⟨s.serial c, v, status⟩

/-- A round of `do_waitpid(pid, ..)` has come to `r`. -/
def ProcSys.settle (s : ProcSys) (pid : Int) (r : ProcTable × WaitOut) : Except Halt ProcSys :=
  match r.2 with
  | .returned v status =>
    .ok { s with
      tbl := r.1
      pc := update s.pc s.cur .user
      reports := s.reports ++ s.reported v status }
  | .sleeps => do
    return { s with
      sched := ← schedSleepOn s.sched (pWait s.cur)
      pc := update s.pc s.cur (.inWait pid) }

/-- One step. -/
def procStep (s : ProcSys) : ProcCall → Except Halt ProcSys
  -- `proc_create` and `kthread_create`
  | .create a => do
    let tbl ← procCreate s.tbl (some s.cur) a
    return { s with
      tbl := tbl
      sched := kthreadCreate s.sched a
      pc := update s.pc a .user
      serial := update s.serial a s.nserial
      nserial := s.nserial + 1 }
  -- `kthread_exit` and `proc_cleanup`, up to the first point where it may sleep
  | .exit status => do
    let sched ← kthreadExit s.sched
    let myParentProc ← cleanupStart s.tbl s.cur
    let r ← schedWakeupOn sched (pWait myParentProc)
    return { s with sched := r.1, pc := update s.pc s.cur (.exiting status) }
  -- the rest of `proc_cleanup`, and `sched_switch`
  | .finish =>
    match s.pc s.cur with
    | .exiting status => do
      let tbl ← cleanupFinish s.tbl s.cur status
      let sched ← schedSwitch s.sched
      return { s with
        tbl := tbl
        sched := sched
        pc := update s.pc s.cur .gone
        exits := s.exits ++ [⟨s.serial s.cur, (s.tbl.proc s.cur).pPid, status⟩] }
    | _ => .ok s
  | .waitpid pid => do s.settle pid (← doWaitpid s.tbl s.cur pid s.ktExited)
  | .rescan =>
    match s.pc s.cur with
    | .inWait pid => do s.settle pid (← waitpidScan s.tbl s.cur s.ktExited)
    | _ => .ok s
  | .sched c => do return { s with sched := ← schedStep s.sched c }

/-- The calls to the scheduler that are not steps of their own. -/
def SchedCall.other : SchedCall → Bool
  | .exit | .create _ | .clone _ => false
  | _ => true

/-- A process may call the scheduler on its own business, and in the middle of `proc_cleanup`. -/
def ProcPc.awake : ProcPc → Bool
  | .user | .exiting _ => true
  | _ => false

def ProcPc.isInWait : ProcPc → Bool
  | .inWait _ => true
  | _ => false

def ProcPc.isExiting : ProcPc → Bool
  | .exiting _ => true
  | _ => false

/-- Steps are made by the process that runs, where its thread is.  Idle and init do not exit, and
only `proc.c` uses the `p_wait` queues. -/
def ProcLegal (idle init : Nat) (s : ProcSys) : ProcCall → Prop
  | .create a => s.sched.running ∧ s.pc s.cur = .user ∧ s.sched.unused a ∧ a ∉ s.tbl.procList
  | .exit _ => s.sched.running ∧ s.pc s.cur = .user ∧ s.cur ≠ idle ∧ s.cur ≠ init
  | .finish => s.sched.running ∧ (s.pc s.cur).isExiting = true
  | .waitpid _ => s.sched.running ∧ s.pc s.cur = .user
  | .rescan => s.sched.running ∧ (s.pc s.cur).isInWait = true
  | .sched c => SchedUse s.sched c ∧ c.other = true ∧ (∀ q ∈ c.queue, q % 2 = 0) ∧
      (c.ofInterrupt = false → (s.pc s.cur).awake = true)

instance (idle init : Nat) (s : ProcSys) (c : ProcCall) : Decidable (ProcLegal idle init s c) := by
  cases c <;> unfold ProcLegal <;> infer_instance

/-- The process is asleep on its own `p_wait`. -/
def ProcSys.waiting (s : ProcSys) (p : Nat) : Prop := p ∈ s.sched.tqList (pWait p)
deriving Decidable

/-- The state after boot: idle runs, and the thread of init is new. -/
def bootSys (idle init : Nat) : Except Halt ProcSys := do
  let tbl ← bootTable idle init
  return {
    tbl := tbl
    sched := bootSched idle
    pc := fun p => if p = idle ∨ p = init then .user else .gone
    serial := fun p => if p = idle then 0 else 1
    nserial := 2
    exits := []
    reports := [] }

end Weenix.Proc
