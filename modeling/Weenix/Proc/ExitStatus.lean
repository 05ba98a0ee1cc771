/-
# What a process exits with (`proc/proc.c`, `proc/kthread.c`, `proc/context.c`, `api/syscall.c`)

A thread ends in `kthread_exit(retval)`, and `proc_thread_exited` takes the exit status of the
process from there.  `retval` is a `void *`: the result of the thread function, the argument of
`SYS_thr_exit`, or what `kthread_cancel` left in `kt_retval`.  `do_exit(status)` passes the address
of its own argument, and `proc_thread_exited` reads an `int` through whatever it gets.

Pointers and `int`s are 32-bit words.  `KernMem` is memory as the kernel sees it through the current
page directory; where no page is mapped `_pt_fault_handler` panics.  `derefs` records the pointers
that `proc_thread_exited` has read through, and no call reads it.

The rest is `ProcSys`.  One thread to a process, so the loop of `do_exit` over the other threads of
`p_threads` finds none.
-/
import Weenix.Proc.ProcSys

namespace Weenix.Proc

/-! ## 1. Memory -/

/-- The bytes the kernel can read. -/
abbrev KernMem := BitVec 32 → Option (BitVec 8)

/-- `*(int *)a` -/
def loadInt (m : KernMem) (a : BitVec 32) : Except Halt (BitVec 32) :=
  match m a, m (a + 1), m (a + 2), m (a + 3) with
  | some b₀, some b₁, some b₂, some b₃ => .ok (b₃ ++ b₂ ++ b₁ ++ b₀)
  | _, _, _, _ => .error (.panic "\nPage faulted while accessing 0x%08x\n")

/-- `*(int *)a = v` -/
def storeInt (m : KernMem) (a v : BitVec 32) : KernMem := fun x =>
  if x = a then some (v.extractLsb' 0 8)
  else if x = a + 1 then some (v.extractLsb' 8 8)
  else if x = a + 2 then some (v.extractLsb' 16 8)
  else if x = a + 3 then some (v.extractLsb' 24 8)
  else m x

/-! ## 2. The state -/

structure ExitSys where
  sys : ProcSys
  ktRetval : Nat → BitVec 32
  mem : KernMem
  derefs : List (BitVec 32)

/-- The ways in which the current thread, and with it the current process, ends.  `slot` is where on
its stack the argument of `do_exit` is. -/
inductive Ending where
  | doExit (status slot : BitVec 32)
  | returns (result : BitVec 32)
  | thrExit (args : BitVec 32)
  | cancelled
deriving DecidableEq, Repr

inductive ExitCall where
  | ends (e : Ending)
  | cancel (kthr : Nat) (retval : BitVec 32)
  | writes (mem : KernMem)
  | other (c : ProcCall)

/-! ## 3. Exit -/

/-- `proc_thread_exited(retval)`, with `proc_cleanup` up to the first point where it may sleep. -/
def procThreadExited (s : ExitSys) (retval : BitVec 32) : Except Halt ExitSys := do
  let status ← loadInt s.mem retval
  return { s with
    sys := ← procStep s.sys (.exit status.toInt)
    derefs := s.derefs ++ [retval] }

/-- `kthread_exit(retval)`.  Its assertions come before the load, and are made again in `procStep`
with no other outcome. -/
def kthreadExitWith (s : ExitSys) (retval : BitVec 32) : Except Halt ExitSys := do
  let _ ← kthreadExit s.sys.sched
  procThreadExited { s with ktRetval := update s.ktRetval s.sys.cur retval } retval

def doExit (s : ExitSys) (status slot : BitVec 32) : Except Halt ExitSys :=
  kthreadExitWith { s with mem := storeInt s.mem slot status } slot

def endThread (s : ExitSys) : Ending → Except Halt ExitSys
  | .doExit status slot => doExit s status slot
  | .returns result => kthreadExitWith s result    -- `__context_initial_func`
  | .thrExit args => kthreadExitWith s args
  | .cancelled => kthreadExitWith s (s.ktRetval s.sys.cur)    -- `syscall_handler`

def kthreadCancel (s : ExitSys) (kthr : Nat) (retval : BitVec 32) : Except Halt ExitSys :=
  if s.sys.cur = kthr then kthreadExitWith s retval
  else do
    return { s with
      sys := ← procStep s.sys (.sched (.cancel kthr))
      ktRetval := update s.ktRetval kthr retval }

/-- One step.  `writes` is whatever the rest of the kernel stores anywhere. -/
def exitStep (s : ExitSys) : ExitCall → Except Halt ExitSys
  | .ends e => endThread s e
  | .cancel kthr retval => kthreadCancel s kthr retval
  | .writes mem => .ok { s with mem := mem }
  -- a new thread has `kt_retval = 0`
  | .other (.create a) => do
    return { s with
      sys := ← procStep s.sys (.create a)
      ktRetval := update s.ktRetval a 0 }
  | .other c => do return { s with sys := ← procStep s.sys c }

/-! ## 4. Use -/

/-- The calls of `ProcSys` that have no step of their own here. -/
def ProcCall.plain : ProcCall → Bool
  | .exit _ | .sched (.cancel _) => false
  | _ => true

/-- The current process may end: any process but idle. -/
def ExitSys.mayEnd (s : ExitSys) (idle : Nat) : Prop :=
  s.sys.sched.running ∧ s.sys.pc s.sys.cur = .user ∧ s.sys.cur ≠ idle
deriving Decidable

/-- The stack is mapped at the argument of `do_exit`, and only cancelled threads exit for having
been cancelled. -/
def Ending.possible (s : ExitSys) : Ending → Prop
  | .doExit _ slot => [0, 1, 2, 3].all (fun i => (s.mem (slot + i)).isSome) = true
  | .cancelled => (s.sys.sched.kthread s.sys.cur).ktCancelled = true
  | _ => True

def ExitLegal (idle init : Nat) (s : ExitSys) : ExitCall → Prop
  | .ends e => s.mayEnd idle ∧ e.possible s
  | .cancel kthr _ => s.sys.sched.running ∧ (s.sys.pc s.sys.cur).awake = true ∧
    (s.sys.cur = kthr → s.mayEnd idle)
  | .writes _ => True
  | .other c => ProcLegal idle init s.sys c ∧ c.plain = true

instance (s : ExitSys) (e : Ending) : Decidable (e.possible s) := by
  cases e <;> unfold Ending.possible <;> infer_instance

instance (idle init : Nat) (s : ExitSys) (c : ExitCall) : Decidable (ExitLegal idle init s c) := by
  cases c <;> unfold ExitLegal <;> infer_instance

/-! ## 5. What the process ends with -/

/-- The integer that the process ends with: `n`, or `r` itself. -/
def Ending.value (s : ExitSys) : Ending → Int
  | .doExit status _ => status.toInt
  | .returns result => result.toInt
  | .thrExit args => args.toInt
  | .cancelled => (s.ktRetval s.sys.cur).toInt

/-- The pointer `r`, in the three ways in which there is one. -/
def Ending.pointer (s : ExitSys) : Ending → Option (BitVec 32)
  | .doExit _ _ => none
  | .returns result => some result
  | .thrExit args => some args
  | .cancelled => some (s.ktRetval s.sys.cur)

/-- The state after boot, with any memory. -/
def bootExit (idle init : Nat) (mem : KernMem) : Except Halt ExitSys := do
  return ⟨← bootSys idle init, fun _ => 0, mem, []⟩

end Weenix.Proc
