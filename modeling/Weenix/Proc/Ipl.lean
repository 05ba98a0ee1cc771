/-
# The interrupt priority level

The level is one register; a call in `sched.c` keeps its old value in a local variable while other
threads run.  A call is here the list of what it does to the level and the run queue.  Which branch
it takes and which thread is resumed are left open, so that every run of the code is one of these.
-/
import Weenix.Kernel
import Weenix.Lib.Run

namespace Weenix.Proc.Ipl

open Option

def iplLow : Nat := 0

def iplHigh : Nat := 0xff

inductive Op where
  | getipl
  | setipl (l : Nat)
  | runq
  | intrWait
  | contextSwitch
  | restore
deriving DecidableEq

/-- A call in progress: `earlier_ipl`, the level at the call, and what is left to do. -/
structure Frame where
  earlierIpl : Nat
  entry : Nat
  code : List Op
deriving DecidableEq

/-- A thread's stack has its calls in progress, the innermost first. -/
structure Cpu where
  ipl : Nat
  curthr : Nat
  stack : Nat → List Frame

/-- The three calls that switch; `sched_sleep_on` does not lower the level after its
first branch. -/
def switchCode (lowers empty : Bool) : List Op :=
  [.getipl, .setipl iplHigh] ++ (if empty
    then [.setipl iplLow, .intrWait, .setipl iplHigh, .runq, .contextSwitch]
    else [.runq, .contextSwitch] ++ if lowers then [.setipl iplLow] else []) ++ [.restore]

/-- `empty` is what the call finds the run queue to be. -/
inductive Call where
  | sleepOn (empty : Bool)
  | cancellableSleepOn (cancelled empty : Bool)
  | switch (empty : Bool)
  | makeRunnable
deriving DecidableEq

def Call.code : Call → List Op
  | .sleepOn empty => switchCode false empty
  | .cancellableSleepOn cancelled empty => if cancelled then [] else switchCode true empty
  | .switch empty => switchCode true empty
  | .makeRunnable => [.getipl, .setipl iplHigh, .runq, .restore]

/-- A thread outside of `sched.c` sets the level; a call is made, goes on or returns, or
switches. -/
inductive Event where
  | setipl (l : Nat)
  | call (c : Call)
  | goOn
  | resume (t : Nat)

def Cpu.put (s : Cpu) (l : Nat) (fs : List Frame) : Cpu :=
  ⟨l, s.curthr, update s.stack s.curthr fs⟩

def step (s : Cpu) (e : Event) : Except Halt Cpu :=
  match e, s.stack s.curthr with
  | .setipl l, [] => .ok { s with ipl := l }
  | .call c, fs =>
    -- inside of a call, an interrupt handler's
    if fs = [] ∨ c = .makeRunnable ∧ s.ipl ≠ iplHigh
      then .ok (s.put s.ipl (⟨0, s.ipl, c.code⟩ :: fs))
    else .error .wild
  | .goOn, ⟨_, _, []⟩ :: fs => .ok (s.put s.ipl fs)
  | .goOn, ⟨_, n, .getipl :: ops⟩ :: fs => .ok (s.put s.ipl (⟨s.ipl, n, ops⟩ :: fs))
  | .goOn, ⟨m, n, .setipl l :: ops⟩ :: fs => .ok (s.put l (⟨m, n, ops⟩ :: fs))
  | .goOn, ⟨m, n, .restore :: ops⟩ :: fs => .ok (s.put m (⟨m, n, ops⟩ :: fs))
  | .goOn, ⟨m, n, .runq :: ops⟩ :: fs => .ok (s.put s.ipl (⟨m, n, ops⟩ :: fs))
  | .goOn, ⟨m, n, .intrWait :: ops⟩ :: fs => .ok (s.put s.ipl (⟨m, n, ops⟩ :: fs))
  | .resume t, ⟨m, n, .contextSwitch :: ops⟩ :: fs =>
    let u := s.put s.ipl (⟨m, n, ops⟩ :: fs)
    -- a thread that has never switched begins in __context_initial_func
    .ok { u with curthr := t, ipl := if u.stack t = [] then iplLow else s.ipl }
  | _, _ => .error .wild

/-- The rest of a call made at level `n`, with `m` in `earlier_ipl`, can go on at level `l`
(`none`: at any). -/
def Fine (n : Nat) : Nat → Option Nat → List Op → Prop
  | _, l, [] => l = some n
  | _, l, .getipl :: ops => l = some n ∧ Fine n n l ops
  | m, _, .setipl l :: ops => Fine n m (some l) ops
  | m, l, .runq :: ops => l = some iplHigh ∧ Fine n m l ops
  | m, l, .intrWait :: ops => l = some iplLow ∧ Fine n m l ops
  | m, _, .contextSwitch :: ops => Fine n m none ops
  | m, _, .restore :: ops => Fine n m (some m) ops

/-- The innermost call can go on at level `l`, and each other one at the level the next
was made at. -/
def Fits : Option Nat → List Frame → Prop
  | _, [] => True
  | l, f :: fs => Fine f.entry f.earlierIpl l f.code ∧ Fits (some f.entry) fs

def Inv (s : Cpu) : Prop :=
  ∀ t, Fits (if t = s.curthr then some s.ipl else none) (s.stack t)

section
variable {s s' : Cpu} {e : Event} {l : Option Nat} {m n : Nat} {fs : List Frame}

theorem fine_code (c : Call) : Fine n m (some n) c.code := by
  cases c <;> simp only [Call.code, switchCode] <;> repeat' split
  all_goals simp [Fine]

theorem Fits.resumed (h : Fits none fs) : Fits l fs := by
  obtain _ | ⟨⟨m, n, _ | ⟨op, ops⟩⟩, fs⟩ := fs
  · trivial
  · cases h.1
  · cases op <;> first | exact h | cases h.1.1

theorem Inv.put (h : Inv s) (hfs : Fits l fs) (t : Nat) :
    Fits (if t = s.curthr then l else none) ((s.put m fs).stack t) := by
  have ht := h t
  by_cases hc : t = s.curthr <;> simp_all [Cpu.put]

theorem Inv.step (h : Inv s) (hs : step s e = .ok s') : Inv s' := by
  have hcur : Fits (some s.ipl) (s.stack s.curthr) := by simpa using h s.curthr
  unfold Ipl.step at hs
  split at hs <;> try cases hs
  all_goals rename_i hstack; try rw [hstack] at hcur
  case h_1 =>
    intro t
    by_cases ht : t = s.curthr
    · simp [ht, hstack, Fits]
    · simpa [ht] using h t
  case h_2 =>
    split at hs <;> cases hs
    exact h.put ⟨fine_code _, hcur⟩
  case h_3 => exact h.put (some.inj hcur.1 ▸ hcur.2)
  case h_4 => exact h.put ⟨some.inj hcur.1.1 ▸ hcur.1.2, hcur.2⟩
  case h_5 | h_6 => exact h.put hcur
  case h_7 | h_8 => exact h.put ⟨hcur.1.2, hcur.2⟩
  case h_9 m n ops fs =>
    intro t
    have ht := h.put (m := s.ipl) (show Fits none (⟨m, n, ops⟩ :: fs) from hcur) t
    rw [ite_self] at ht
    exact ht.resumed

end

/-- Thread `t` runs at level `l`, and no other thread has run. -/
def boot (l t : Nat) : Cpu := ⟨l, t, fun _ => []⟩

/-- **The level**: when a call returns it is what it was at the call; at a change of the run queue
it is `IPL_HIGH`, and where the processor waits for an interrupt `IPL_LOW`. -/
theorem interrupt_level {l t : Nat} {s : Cpu} {f : Frame} {fs : List Frame}
    (hrun : Lts.Run (fun _ _ => True) step (boot l t) s) (hf : s.stack s.curthr = f :: fs) :
    (f.code = [] → s.ipl = f.entry) ∧ (f.code.head? = some .runq → s.ipl = iplHigh) ∧
      (f.code.head? = some .intrWait → s.ipl = iplLow) := by
  have hboot : Inv (boot l t) := fun _ => trivial
  have hcur := hrun.invariant hboot (fun _ _ _ h _ hs => h.step hs) s.curthr
  rw [if_pos rfl, hf] at hcur
  obtain ⟨m, n, _ | ⟨op, ops⟩⟩ := f
  · exact ⟨fun _ => some.inj hcur.1, nofun, nofun⟩
  · refine ⟨nofun, fun hop => ?_, fun hop => ?_⟩ <;> cases hop <;> exact some.inj hcur.1.1

/-- Thread 1 switches at level 7 and is resumed after thread 2 has set the level to 3. -/
theorem interrupt_level_resumed : ∃ s, Lts.Run (fun _ _ => True) step (boot 7 1) s ∧ s.ipl = 7 := by
  obtain ⟨s, hrun, hf⟩ : ∃ s, Lts.Run (fun _ _ => True) step (boot 7 1) s ∧
    s.stack s.curthr = [⟨7, 7, []⟩] :=
    Lts.exists_run [.call (.switch false), .goOn, .goOn, .goOn, .resume 2, .setipl 3,
      .call (.sleepOn false), .goOn, .goOn, .goOn, .resume 1, .goOn, .goOn] (by decide +kernel)
  exact ⟨s, hrun, (interrupt_level hrun hf).1 rfl⟩

end Weenix.Proc.Ipl
