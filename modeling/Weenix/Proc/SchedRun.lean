/-
# Runs of the scheduler

Under `SchedLegal` no thread gets lost: one that is on no queue runs, has not run yet, or has exited
(`Loose`).  Together with `QInv` this is the scheduler's invariant, and `sched_queues` is the result
about runs.  `cancellable_sleep` follows one thread from its call until it is woken up, and
`run_queue_order` says in which order the threads run.
-/
import Weenix.Lib.Run
import Weenix.Proc.SchedInv

namespace Weenix.Proc

/-! ## 1. No thread is lost -/

/-- A thread on no queue, other than the one in hand, is accounted for; and the thread under which
the scheduler waits for an interrupt can be switched away from. -/
structure Loose (hold : Option Nat) (s : Sched) : Prop where
  loose : ∀ t, hold ≠ some t → (s.kthread t).ktWchan = none →
    t = s.curthr ∨ (s.kthread t).ktNew = true ∨ (s.kthread t).ktState = .exited
  waits : s.intrWait = true → hold = some s.curthr ∨ (s.kthread s.curthr).ktWchan ≠ none ∨
    (s.kthread s.curthr).ktState = .exited

/-- The current thread can be switched away from. -/
def Sched.parted (s : Sched) : Prop :=
  (s.kthread s.curthr).ktWchan ≠ none ∨ (s.kthread s.curthr).ktState = .exited

section
variable {s s' : Sched} {hold : Option Nat} {q t : Nat} {st : KtState}

theorem Loose.put (h : Loose hold s) (hhold : ∀ u, hold = some u → u = t) :
    Loose none (s.put q t st) := by
  have hkeep : ∀ u, u ≠ t → hold ≠ some u := fun u hu he => hu (hhold u he)
  constructor
  · intro u _ hu
    by_cases hut : u = t
    · subst hut
      rw [put_kthread_self] at hu
      cases hu
    · rw [put_kthread_ne hut] at hu ⊢
      exact h.loose u (hkeep u hut) hu
  · intro hi
    right
    rw [put_curthr]
    by_cases hc : s.curthr = t
    · rw [hc, put_kthread_self]
      exact .inl (by simp)
    · rw [put_kthread_ne hc]
      exact (h.waits hi).resolve_left (hkeep _ hc)

section
variable (h : Loose none s)
include h

theorem Loose.take : Loose (some t) (s.unlink q q t) := by
  constructor
  · intro u hhold hu
    have hut : u ≠ t := fun he => hhold (he ▸ rfl)
    rw [unlink_kthread_ne hut] at hu ⊢
    exact h.loose u (by simp) hu
  · intro hi
    rw [unlink_curthr]
    by_cases hc : s.curthr = t
    · exact .inl (hc ▸ rfl)
    · rw [unlink_kthread_ne hc]
      exact .inr ((h.waits hi).resolve_left (by simp))

theorem Loose.requeue : Loose none ((s.unlink q q t).put ktRunq t .run) :=
  h.take.put fun _ hu => (Option.some.inj hu).symm

theorem Loose.requeued (hr : Requeued q s s') : Loose none s' := by
  induction hr with
  | refl => exact h
  | step _ _ ih => exact ih h.requeue

theorem Loose.switchTo (hp : s.parted) : Loose none (s.dispatch t) := by
  have h' : Loose (some t) (s.unlink ktRunq ktRunq t) := h.take
  refine ⟨fun u _ hu => ?_, fun hi => by cases hi⟩
  change ((s.unlink ktRunq ktRunq t).kthread u).ktWchan = none at hu
  by_cases hut : u = t
  · exact .inl hut
  · rcases h'.loose u (fun he => hut (Option.some.inj he).symm) hu with rfl | hr
    · -- the thread that ran before is on a queue or has exited
      rw [unlink_curthr] at hut hu
      rw [unlink_kthread_ne hut] at hu
      refine .inr (.inr ?_)
      change ((s.unlink ktRunq ktRunq t).kthread s.curthr).ktState = .exited
      rw [unlink_ktState]
      exact hp.resolve_left fun hq => hq hu
    · exact .inr hr

theorem Loose.switchAway (hp : s.parted) (hs : switchAway s = .ok s') : Loose none s' := by
  obtain hl | ⟨l, t, hl⟩ := List.eq_nil_or_concat' (s.tqList ktRunq)
  · rw [Proc.switchAway, if_pos (by simp [hl])] at hs
    cases hs
    exact ⟨h.loose, fun _ => .inr hp⟩
  · rw [Proc.switchAway, if_neg (by simp [hl]), runNext_eq hl] at hs
    cases hs
    exact h.switchTo hp

theorem Loose.sleep (hs : Proc.switchAway (s.put q s.curthr st) = .ok s') : Loose none s' := by
  refine (h.put fun u hu => by cases hu).switchAway (.inl ?_) hs
  rw [put_curthr, put_kthread_self]
  simp

/-- A new or exited thread, or the current one, takes the place of the thread `t`. -/
theorem Loose.setThread {f : Kthread → Kthread}
    (hf : t = s.curthr ∨ (f (s.kthread t)).ktNew = true ∨ (f (s.kthread t)).ktState = .exited)
    (hwait : s.intrWait = false) : Loose none (s.setThread t f) := by
  constructor
  · intro u hhold hu
    by_cases hut : u = t
    · subst hut
      have hself : (s.setThread u f).kthread u = f (s.kthread u) := by simp [Sched.setThread]
      rw [hself]
      exact hf
    · have hne : (s.setThread t f).kthread u = s.kthread u := by simp [Sched.setThread, hut]
      rw [hne] at hu ⊢
      exact h.loose u hhold hu
  · intro hi
    change s.intrWait = true at hi
    rw [hwait] at hi
    cases hi

theorem Loose.setCancelled (t : Nat) : Loose none (s.flagged t) := by
  constructor
  · intro u hhold hu
    obtain ⟨c, hc⟩ := setCancelled_eq s t u
    rw [hc] at hu ⊢
    exact h.loose u hhold hu
  · intro hi
    obtain ⟨c, hc⟩ := setCancelled_eq s t s.curthr
    change none = some s.curthr ∨ ((s.flagged t).kthread s.curthr).ktWchan ≠ none ∨
      ((s.flagged t).kthread s.curthr).ktState = .exited
    rw [hc]
    exact h.waits hi

end

/-- **Every legal call accounts for all threads.** -/
theorem schedStep_loose (hq : QInv none s) (h : Loose none s) {c : SchedCall} (hc : SchedLegal s c)
    (hs : schedStep s c = .ok s') : Loose none s' := by
  obtain ⟨huse, hc⟩ := hc
  cases schedStep_inv hq huse hs with
  | stays => exact h
  | sleeps _ _ _ _ away => exact h.sleep away
  | wakes _ _ requeued => exact h.requeued requeued
  | cancels => exact h.setCancelled _
  | cancelsSleep _ _ _ => exact (h.setCancelled _).requeue
  | switches away =>
    refine h.switchAway ?_ away
    obtain hw | he := hc
    · exact .inl (by rw [hw]; simp)
    · exact .inr he
  | readies _ => exact h.put fun u hu => by cases hu
  | makes running _ _ => exact h.setThread (.inr (.inl rfl)) running.1
  | exits running => exact h.setThread (.inl rfl) running.1
  | runs _ => exact h.switchTo ((h.waits huse.1).resolve_left (by simp))

end

theorem Loose.boot (idle : Nat) : Loose none (bootSched idle) where
  loose t _ _ := by
    by_cases ht : t = idle
    · exact .inl ht
    · exact .inr (.inl (bne_iff_ne.mpr ht))
  waits h := by cases h

/-! ## 2. The invariant of runs -/

theorem sched_of_run {idle : Nat} {s : Sched}
    (hr : Lts.Run SchedLegal schedStep (bootSched idle) s) : QInv none s ∧ Loose none s := by
  refine hr.invariant (I := fun s => QInv none s ∧ Loose none s) ⟨.boot idle, .boot idle⟩ ?_
  rintro t c u ⟨hq, hl⟩ hc hstep
  refine ⟨?_, schedStep_loose hq hl hc hstep⟩
  obtain ⟨u', heq, hu'⟩ := schedStep_spec hq hc.1
  rw [heq] at hstep
  cases hstep
  exact hu'

/-- What holds of the queues between any two calls. -/
structure QueuesOk (s : Sched) : Prop where
  /-- a thread is on at most one queue, once -/
  one : ∀ t q q', t ∈ s.tqList q → t ∈ s.tqList q' → q = q'
  once : ∀ q, (s.tqList q).Nodup
  /-- `kt_wchan` is the queue the thread is on, and null when it is on none -/
  wchan : ∀ t q, (s.kthread t).ktWchan = some q ↔ t ∈ s.tqList q
  null : ∀ t, (s.kthread t).ktWchan = none ↔ ∀ q, t ∉ s.tqList q
  size : ∀ q, s.tqSize q = (s.tqList q).length
  runq : ∀ t ∈ s.tqList ktRunq, (s.kthread t).ktState = .run
  asleep : ∀ q ≠ ktRunq, ∀ t ∈ s.tqList q, (s.kthread t).ktState = .sleep ∨
    (s.kthread t).ktState = .sleepCancellable
  loose : ∀ t, (∀ q, t ∉ s.tqList q) → t = s.curthr ∨ (s.kthread t).ktNew = true ∨
    (s.kthread t).ktState = .exited
  /-- the thread that is taken off a queue next has been there longest -/
  order : ∀ q t s', ktqueueDequeue s q = (s', some t) →
    ∀ u ∈ s.tqList q, u ≠ t → (s.kthread t).ktArrived < (s.kthread u).ktArrived

theorem QInv.queuesOk {s : Sched} (h : QInv none s) (hl : Loose none s) : QueuesOk s where
  one _ _ _ := h.placed.unique
  once := h.placed.nodup
  wchan := h.placed.mem
  null _ := h.placed.none_iff
  size := h.size
  runq := h.runq
  asleep := h.asleep
  loose t ht := hl.loose t (by simp) (h.placed.none_iff.mpr ht)
  order _ _ _ := h.dequeue_first

/-- **The scheduler's queues.**  In every state of every run the queues are in order, and every
call its contract allows returns: no assertion fails, and the thread chosen to run is never
null. -/
theorem sched_queues {idle : Nat} {s : Sched}
    (hr : Lts.Run SchedLegal schedStep (bootSched idle) s) :
    QueuesOk s ∧ ∀ c, SchedLegal s c → ∃ s', schedStep s c = .ok s' := by
  obtain ⟨h, hl⟩ := sched_of_run hr
  refine ⟨h.queuesOk hl, fun c hc => ?_⟩
  obtain ⟨s', heq, -⟩ := schedStep_spec h hc.1
  exact ⟨s', heq⟩

/-- The idle thread starts two threads and sleeps; the first sleeps on the same queue, and the
second cancels it, wakes the idle thread up, and exits. -/
def twoThreads : List SchedCall :=
  [.create 2, .makeRunnable 2, .create 3, .makeRunnable 3, .sleepOn 5, .cancellableSleepOn 5,
    .cancel 2, .wakeupOn 5, .exit]

theorem sched_queues_two_threads : ∃ s, Lts.Run SchedLegal schedStep (bootSched 1) s ∧
    s.tqList ktRunq = [1, 2] ∧ s.curthr = 3 ∧ QueuesOk s ∧ ∃ s', schedStep s .switch = .ok s' := by
  obtain ⟨s, hs, hq, hcur, hlegal⟩ : ∃ s, Lts.Run SchedLegal schedStep (bootSched 1) s ∧
      s.tqList ktRunq = [1, 2] ∧ s.curthr = 3 ∧ SchedLegal s .switch :=
    Lts.exists_run twoThreads (by decide +kernel)
  obtain ⟨hok, hstep⟩ := sched_queues hs
  exact ⟨s, hs, hq, hcur, hok, hstep _ hlegal⟩

/-- **A thread that only calls `sched_switch` is lost.**  The idle thread starts another one and
switches without having made itself runnable: it is on no queue then, and nothing runs it again. -/
theorem switch_loses_thread : ∃ s, Lts.Run SchedUse schedStep (bootSched 1) s ∧ s.curthr = 2 ∧
    (s.kthread 1).ktWchan = none ∧ (s.kthread 1).ktNew = false ∧ (s.kthread 1).ktState ≠ .exited ∧
    ¬ QueuesOk s := by
  obtain ⟨s, hrun, hcur, hwchan, hnew, hstate⟩ : ∃ s, Lts.Run SchedUse schedStep (bootSched 1) s ∧
      s.curthr = 2 ∧ (s.kthread 1).ktWchan = none ∧ (s.kthread 1).ktNew = false ∧
      (s.kthread 1).ktState ≠ .exited :=
    Lts.exists_run [.create 2, .makeRunnable 2, .switch] (by decide +kernel)
  refine ⟨s, hrun, hcur, hwchan, hnew, hstate, fun hok => ?_⟩
  obtain hone | hfresh | hexited := hok.loose 1 ((hok.null 1).mp hwchan)
  · rw [hcur] at hone
    cases hone
  · rw [hnew] at hfresh
    cases hfresh
  · exact hstate hexited

/-! ## 3. Cancellable sleep -/

/-- The call wakes up threads that sleep on `q`. -/
def SchedCall.Wakes (c : SchedCall) (q : Nat) : Prop :=
  c = .wakeupOn q ∨ c = .broadcastOn q ∨ c = .intrWakeupOn q ∨ c = .intrBroadcastOn q

/-- A call while `t` sleeps on `q`, other than one that cancels it. -/
def Undisturbed (q t : Nat) (s : Sched) (c : SchedCall) : Prop :=
  SchedLegal s c ∧ t ∈ s.tqList q ∧ c ≠ .cancel t
deriving Decidable

section
variable {s s' : Sched} {c : SchedCall} {q r t u : Nat} {st : KtState}

theorem mem_put (ht : t ∈ s.tqList q) : t ∈ (s.put r u st).tqList q := by
  by_cases hr : q = r
  · subst hr
    rw [put_tqList_self]
    exact .tail _ ht
  · rwa [put_tqList_ne hr]

theorem put_ktCancelled : ((s.put q u st).kthread t).ktCancelled = (s.kthread t).ktCancelled := by
  by_cases hu : t = u
  · subst hu
    rw [put_kthread_self]
  · rw [put_kthread_ne hu]

theorem switchAway_ktCancelled (hs : switchAway s = .ok s') :
    (s'.kthread t).ktCancelled = (s.kthread t).ktCancelled := by
  obtain hl | ⟨l, u, hl⟩ := List.eq_nil_or_concat' (s.tqList ktRunq)
  · rw [switchAway, if_pos (by simp [hl])] at hs
    cases hs
    rfl
  · rw [switchAway, if_neg (by simp [hl]), runNext_eq hl] at hs
    cases hs
    exact unlink_ktCancelled (q := ktRunq)

theorem requeued_ktCancelled (hr : Requeued q s s') :
    (s'.kthread t).ktCancelled = (s.kthread t).ktCancelled := by
  induction hr with
  | refl => rfl
  | step _ _ ih => rw [ih, put_ktCancelled, unlink_ktCancelled]

/-- **A thread that sleeps**: nothing but `sched_cancel` sets its flag, and nothing but a wakeup
takes it off its queue. -/
theorem schedStep_undisturbed (h : QInv none s) (hq : q ≠ ktRunq) (hu : Undisturbed q t s c)
    (hs : schedStep s c = .ok s') :
    (s'.kthread t).ktCancelled = (s.kthread t).ktCancelled ∧ (t ∈ s'.tqList q ∨ c.Wakes q) := by
  obtain ⟨⟨hc, -⟩, ht, hcancel⟩ := hu
  have hother : ∀ {u f}, u ≠ t → (s.setThread u f).kthread t = s.kthread t :=
    fun hu => update_of_ne hu.symm ..
  have haway : ∀ {s s' : Sched}, switchAway s = .ok s' → t ∈ s.tqList q → t ∈ s'.tqList q :=
    fun hs ht => (frame_switchAway hq hs).tqList ▸ ht
  cases schedStep_inv h hc hs with
  | stays => exact ⟨rfl, .inl ht⟩
  | sleeps _ _ _ _ away =>
    exact ⟨(switchAway_ktCancelled away).trans put_ktCancelled, .inl (haway away (mem_put ht))⟩
  | @wakes _ q' _ queue _ requeued =>
    refine ⟨requeued_ktCancelled requeued, ?_⟩
    by_cases hne : q = q'
    · subst hne
      cases c with
      | sleepOn =>
        cases queue
        rw [schedStep, schedSleepOn_eq h hc.1.2] at hs
        exact .inl (haway hs (mem_put ht))
      | cancellableSleepOn =>
        cases queue
        rw [schedStep, schedCancellableSleepOn_eq h hc.1.2] at hs
        obtain ⟨⟨u, eintr⟩, hcall, hs⟩ := bind_eq_ok hs
        cases hs
        split at hcall
        · cases hcall
          exact .inl ht
        · obtain ⟨v, away, hv⟩ := map_eq_ok hcall
          cases hv
          exact .inl (haway away (mem_put ht))
      | wakeupOn | broadcastOn | intrWakeupOn | intrBroadcastOn =>
        cases queue
        simp [SchedCall.Wakes]
      | _ => cases queue
    · exact .inl ((frame_requeued hne hq h requeued).tqList ▸ ht)
  | cancels => exact ⟨congrArg _ (hother fun he => hcancel (he ▸ rfl)), .inl ht⟩
  | @cancelsSleep t' q' _ _ _ =>
    have hne : t' ≠ t := fun he => hcancel (he ▸ rfl)
    refine ⟨?_, .inl (mem_put ?_)⟩
    · rw [put_ktCancelled, unlink_ktCancelled, hother hne]
    · by_cases hqq : q = q'
      · subst hqq
        rw [unlink_tqList_self]
        exact (List.mem_erase_of_ne hne.symm).mpr ht
      · rwa [unlink_tqList_ne hqq]
  | switches away => exact ⟨switchAway_ktCancelled away, .inl (haway away ht)⟩
  | readies _ => exact ⟨put_ktCancelled, .inl (mem_put ht)⟩
  | @makes _ u _ _ _ unused _ =>
    have hne : u ≠ t := fun he => h.placed.none_iff.mp (h.unused_loose unused) q (he ▸ ht)
    exact ⟨congrArg _ (hother hne), .inl ht⟩
  | exits running =>
    have hne : s.curthr ≠ t := fun he => h.placed.none_iff.mp running.2 q (he ▸ ht)
    exact ⟨congrArg _ (hother hne), .inl ht⟩
  | @runs _ u _ => exact ⟨unlink_ktCancelled (q := ktRunq), .inl ((unlink_tqList_ne hq).symm ▸ ht)⟩

end

/-- **What `sched_cancellable_sleep_on` returns**: `-EINTR` to a thread that was cancelled before
the call, and 0 to one that leaves the queue without having been cancelled. -/
theorem cancellable_sleep {idle q : Nat} {s : Sched}
    (hr : Lts.Run SchedLegal schedStep (bootSched idle) s)
    (hc : SchedLegal s (.cancellableSleepOn q)) :
    ∃ s' eintr, schedCancellableSleepOn s q = .ok (s', eintr) ∧
      (eintr = true ↔ (s.kthread s.curthr).ktCancelled = true) ∧
      (eintr = false → s.curthr ∈ s'.tqList q ∧
        ∀ u c v, Lts.Run (Undisturbed q s.curthr) schedStep s' u → Undisturbed q s.curthr u c →
          schedStep u c = .ok v → s.curthr ∉ v.tqList q →
          (v.kthread s.curthr).ktCancelled = false ∧ c.Wakes q) := by
  obtain ⟨h, -⟩ := sched_of_run hr
  obtain ⟨⟨⟨-, hw⟩, hq⟩, -⟩ := hc
  rw [schedCancellableSleepOn_eq h hw]
  cases hflag : (s.kthread s.curthr).ktCancelled with
  | true => exact ⟨s, true, rfl, iff_of_true rfl rfl, nofun⟩
  | false =>
    obtain ⟨s', haway, h'⟩ := switchAway_ok (h.sleepOn hw hq (.inr rfl))
    rw [haway]
    refine ⟨s', false, rfl, iff_of_false nofun nofun,
      fun _ => ⟨?_, fun u c v hrun hu hs hleft => ?_⟩⟩
    · rw [(frame_switchAway hq haway).tqList, put_tqList_self]
      exact .head _
    · have hinv : QInv none u ∧ (u.kthread s.curthr).ktCancelled = false := by
        refine hrun.invariant (I := fun u => QInv none u ∧
          (u.kthread s.curthr).ktCancelled = false) ⟨h', ?_⟩ ?_
        · rw [switchAway_ktCancelled haway, put_ktCancelled, hflag]
        · rintro u c v ⟨hqu, hfl⟩ hu hs
          exact ⟨hqu.moved (schedStep_inv hqu hu.1.1 hs),
            (schedStep_undisturbed hqu hq hu hs).1.trans hfl⟩
      obtain ⟨hkept, hwake⟩ := schedStep_undisturbed hinv.1 hq hu hs
      exact ⟨hkept.trans hinv.2, hwake.resolve_left hleft⟩

/-- Thread 2 goes to sleep on queue 5 behind thread 1, and the second wakeup is for it. -/
theorem cancellable_sleep_woken : ∃ s s' u v, Lts.Run SchedLegal schedStep (bootSched 1) s ∧
    s.curthr = 2 ∧ schedCancellableSleepOn s 5 = .ok (s', false) ∧
    Lts.Run (Undisturbed 5 2) schedStep s' u ∧ schedStep u (.wakeupOn 5) = .ok v ∧
    2 ∈ u.tqList 5 ∧ 2 ∉ v.tqList 5 ∧ (v.kthread 2).ktCancelled = false := by
  obtain ⟨s, hrun, hc, hcur, hwoken⟩ : ∃ s, Lts.Run SchedLegal schedStep (bootSched 1) s ∧
      SchedLegal s (.cancellableSleepOn 5) ∧ s.curthr = 2 ∧
      (schedCancellableSleepOn s 5).toOption.any (fun r => !r.2 &&
        (Lts.drive (Undisturbed 5 2) schedStep [.wakeupOn 5] r.1).any fun u =>
          decide (Undisturbed 5 2 u (.wakeupOn 5)) &&
          (schedStep u (.wakeupOn 5)).toOption.any fun v => 2 ∉ v.tqList 5) = true :=
    Lts.exists_run (twoThreads.take 5) (by decide +kernel)
  obtain ⟨⟨t, eintr⟩, ht, hwoken⟩ := ok_of_any hwoken
  rw [Bool.and_eq_true, Bool.not_eq_true'] at hwoken
  obtain ⟨rfl, hwoken⟩ := hwoken
  obtain ⟨u, hasleep, hwoken⟩ := Lts.Run.of_drive_any hwoken
  rw [Bool.and_eq_true, decide_eq_true_eq] at hwoken
  obtain ⟨v, hv, hleft⟩ := ok_of_any hwoken.2
  have hleft := of_decide_eq_true hleft
  obtain ⟨s', eintr, hs, -, hzero⟩ := cancellable_sleep hrun hc
  cases ht.symm.trans hs
  rw [hcur] at hzero
  exact ⟨s, t, u, v, hrun, hcur, hs, hasleep, hv, hwoken.1.2.1, hleft,
    ((hzero rfl).2 u _ v hasleep hwoken.1 hv hleft).1⟩

/-- **Cancelled while it sleeps**, a thread leaves the queue with its flag set, and its call
returns 0. -/
theorem cancelled_sleep_returns_zero : ∃ s, Lts.Run SchedLegal schedStep (bootSched 1) s ∧
    s.curthr = 2 ∧ (schedCancellableSleepOn s 5).toOption.any (fun r =>
      !r.2 && decide (SchedLegal r.1 (.cancel 2)) &&
      (schedStep r.1 (.cancel 2)).toOption.any fun v =>
        (v.kthread 2).ktCancelled && !(v.tqList 5).contains 2) = true :=
  Lts.exists_run (twoThreads.take 5) (by decide +kernel)

/-! ## 4. The order of the run queue -/

/-- A call, with the threads that have been taken off the run queue so far. -/
def traceStep (x : Sched × List Nat) (c : SchedCall) : Except Halt (Sched × List Nat) := do
  let s ← schedStep x.1 c
  return (s, if (s.tqList ktRunq).length < (x.1.tqList ktRunq).length
    then x.2 ++ [s.curthr] else x.2)

section
variable {s s' : Sched} {c : SchedCall} {q : Nat}

/-- Threads have arrived, or the one that came first was switched to. -/
def FirstOut (s s' : Sched) : Prop :=
  (∃ new, s'.tqList ktRunq = new ++ s.tqList ktRunq) ∨
    s.tqList ktRunq = s'.tqList ktRunq ++ [s'.curthr]

theorem dispatch_firstOut (h : QInv none s) {l : List Nat} {t : Nat}
    (hl : s.tqList ktRunq = l ++ [t]) :
    FirstOut s (s.dispatch t) := by
  have hnodup := h.placed.nodup ktRunq
  rw [hl, List.nodup_append] at hnodup
  have ht : t ∉ l := fun hm => hnodup.2.2 t hm t (by simp) rfl
  right
  change s.tqList ktRunq = (s.unlink ktRunq ktRunq t).tqList ktRunq ++ [t]
  rw [unlink_tqList_self, hl, List.erase_append_right _ ht]
  simp

theorem switchAway_firstOut (h : QInv none s) (hs : switchAway s = .ok s') : FirstOut s s' := by
  obtain ⟨-, heq, -⟩ | ⟨l, t, hl, heq, -⟩ := switchAway_spec h
  · rw [heq] at hs
    cases hs
    exact .inl ⟨[], rfl⟩
  · rw [heq] at hs
    cases hs
    exact dispatch_firstOut h hl

theorem requeued_arrive (hq : q ≠ ktRunq) (hr : Requeued q s s') :
    ∃ new, s'.tqList ktRunq = new ++ s.tqList ktRunq := by
  induction hr with
  | refl => exact ⟨[], rfl⟩
  | @step s _ t _ _ ih =>
    obtain ⟨new, hnew⟩ := ih
    refine ⟨new ++ [t], ?_⟩
    rw [hnew, put_tqList_self, unlink_tqList_ne hq.symm]
    simp

theorem schedStep_firstOut (h : QInv none s) (hc : SchedUse s c) (hs : schedStep s c = .ok s') :
    FirstOut s s' := by
  cases schedStep_inv h hc hs with
  | stays | cancels | makes | exits => exact .inl ⟨[], rfl⟩
  | @sleeps _ q st _ _ hq hst loose away =>
    have hput := switchAway_firstOut (h.sleepOn loose hq hst) away
    rwa [FirstOut, put_tqList_ne hq.symm] at hput
  | wakes _ hq requeued => exact .inl (requeued_arrive hq requeued)
  | @cancelsSleep t q _ _ hq =>
    refine .inl ⟨[t], ?_⟩
    rw [put_tqList_self, unlink_tqList_ne hq.symm]
    rfl
  | switches away => exact switchAway_firstOut h away
  | readies _ => exact .inl ⟨[_], put_tqList_self⟩
  | runs hl => exact dispatch_firstOut h hl

end

/-- **First come, first to run.**  Whatever is called after a reachable state, the threads that are
switched to are, in order, those that were on the run queue, the longest there first, and then those
that have come since: the thread with `k` others before it is the one that the scheduler takes `k`
threads later. -/
theorem run_queue_order {idle : Nat} {s s' : Sched} {log : List Nat}
    (hr : Lts.Run SchedLegal schedStep (bootSched idle) s)
    (hrun : Lts.Run (fun x => SchedLegal x.1) traceStep (s, []) (s', log)) :
    (∃ arrived, log ++ (s'.tqList ktRunq).reverse = (s.tqList ktRunq).reverse ++ arrived) ∧
    ∀ k t, (s.tqList ktRunq).reverse[k]? = some t → k < log.length → log[k]? = some t := by
  have hinv := hrun.invariant (I := fun x => QInv none x.1 ∧
      ∃ arrived, x.2 ++ (x.1.tqList ktRunq).reverse = (s.tqList ktRunq).reverse ++ arrived)
    ⟨(sched_of_run hr).1, [], by simp⟩ ?_
  · obtain ⟨-, arrived, harrived⟩ := hinv
    refine ⟨⟨arrived, harrived⟩, fun k t hk hlt => ?_⟩
    have hlt' := (List.getElem?_eq_some_iff.mp hk).1
    rw [← List.getElem?_append_left hlt, harrived, List.getElem?_append_left hlt', hk]
  · rintro ⟨t, log⟩ c y ⟨h, arrived, heq⟩ hc hstep
    obtain ⟨u, hs, hy⟩ := bind_eq_ok hstep
    cases hy
    dsimp only at *
    refine ⟨h.moved (schedStep_inv h hc.1 hs), ?_⟩
    rcases schedStep_firstOut h hc.1 hs with ⟨new, hnew⟩ | hfirst
    · refine ⟨arrived ++ new.reverse, ?_⟩
      rw [if_neg (by simp [hnew]), hnew, List.reverse_append, ← List.append_assoc, heq,
        List.append_assoc]
    · refine ⟨arrived, ?_⟩
      rw [if_pos (by simp [hfirst]), ← heq, hfirst, List.reverse_append, List.append_assoc]
      rfl

/-- Threads 2 and 3 are on the run queue when the idle thread goes to sleep, and run in
this order. -/
theorem run_queue_order_two : ∃ s s' log, Lts.Run SchedLegal schedStep (bootSched 1) s ∧
    Lts.Run (fun x => SchedLegal x.1) traceStep (s, []) (s', log) ∧ s.tqList ktRunq = [3, 2] ∧
      log[1]? = some 3 := by
  obtain ⟨s, hs, hq, htrace⟩ :
    ∃ s, Lts.Run SchedLegal schedStep (bootSched 1) s ∧ s.tqList ktRunq = [3, 2] ∧
      (Lts.drive (fun x => SchedLegal x.1) traceStep [.sleepOn 5, .sleepOn 5] (s, [])).any
        (fun x => decide (x.2.length = 2)) = true :=
    Lts.exists_run (twoThreads.take 4) (by decide +kernel)
  obtain ⟨⟨s', log⟩, hrun, hlen⟩ := Lts.Run.of_drive_any htrace
  refine ⟨s, s', log, hs, hrun, hq, (run_queue_order hs hrun).2 1 3 (by rw [hq]; rfl) ?_⟩
  exact (of_decide_eq_true hlen).symm ▸ Nat.one_lt_two

end Weenix.Proc
