/-
# Who holds the mutex

A thread in the middle of a lock call waits on the queue or has been handed the mutex (`KmInv`).
That is so as long as no thread leaves the wait queue in another way, which `sched_cancel` of a
thread asleep in `kmutex_lock_cancellable` is: it then runs, and its call returns 0 although it was
given nothing.

* `mutual_exclusion`: without such a cancellation the mutex excludes.
* `cancelled_waiter_enters`: a run with one, after which two threads have the mutex.
* `fifo_handoff`: with `kmutex_lock` alone, and any cancellations, threads get the mutex in the
  order in which they asked for it.
-/
import Weenix.Proc.Kmutex

namespace Weenix.Proc

open List Option Sched

variable {c : KmCall} {s : KmState} {st : KtState} {l : List Nat} {idle o t : Nat} {pc : Nat → Pc}
  {sch : Sched}

/-! ## 1. The calls -/

theorem kmWaitq_ne : kmWaitq ≠ ktRunq := by decide

section
variable {m : Kmutex}

theorem kmutexLock_free (hf : m.kmHolder = none) :
    kmutexLock m = .ok ({ m with kmHolder := some m.sched.curthr }, .returned 0) := by
  simp [kmutexLock, hf, pure_eq_ok]

theorem kmutexLockCancellable_free (hf : m.kmHolder = none) :
    kmutexLockCancellable m = .ok ({ m with kmHolder := some m.sched.curthr }, .returned 0) := by
  simp [kmutexLockCancellable, hf, pure_eq_ok]

/-- What the current thread leaves when it goes to sleep on the wait queue. -/
structure Asleep (st : KtState) (s s' : Sched) : Prop where
  q : QInv none s'
  tqList : s'.tqList kmWaitq = s.curthr :: s.tqList kmWaitq
  self : (s'.kthread s.curthr).ktState = st
  state : ∀ t ∈ s.tqList kmWaitq, (s'.kthread t).ktState = (s.kthread t).ktState
  alive : ∀ t, s.alive t ∨ t = s.curthr → s'.alive t

theorem asleep_switchAway {s : Sched} (h : QInv none s) (hw : (s.kthread s.curthr).ktWchan = none)
    (hst : st = .sleep ∨ st = .sleepCancellable) :
    ∃ s', switchAway (s.put kmWaitq s.curthr st) = .ok s' ∧ Asleep st s s' := by
  have hput := h.sleepOn hw kmWaitq_ne hst
  obtain ⟨s', heq, h'⟩ := switchAway_ok hput
  have hfr := frame_switchAway kmWaitq_ne heq
  have hmem : s.curthr ∈ (s.put kmWaitq s.curthr st).tqList kmWaitq := by simp
  refine ⟨s', heq, h', by rw [hfr.tqList, put_tqList_self], ?_, ?_, ?_⟩
  · rw [hfr.state _ hmem, put_kthread_self]
  · intro t ht
    have hne : t ≠ s.curthr := by
      rintro rfl
      exact h.placed.none_iff.mp hw _ ht
    rw [hfr.state t (by rw [put_tqList_self]; exact .tail _ ht), put_kthread_ne hne]
  · intro t ht
    refine hfr.alive t ?_
    by_cases hc : t = s.curthr
    · subst hc
      obtain rfl | rfl := hst <;> simp [alive]
    · rw [alive, put_kthread_ne hc]
      exact ht.resolve_right hc

theorem kmutexUnlock_free (h : QInv none m.sched) (ho : m.kmHolder = some m.sched.curthr)
    (hl : m.sched.tqList kmWaitq = []) : kmutexUnlock m = .ok { m with kmHolder := none } := by
  have hsz : m.sched.tqSize kmWaitq = 0 := by rw [h.size, hl]; rfl
  simp [kmutexUnlock, ho, hsz, pure_eq_ok]

variable (h : QInv none m.sched) (hw : m.sched.running)
include h hw

theorem kmutexLock_wait (ho : m.kmHolder = some o) (hne : o ≠ m.sched.curthr) :
    ∃ s', kmutexLock m = .ok ({ m with sched := s' }, .asleep) ∧ Asleep .sleep m.sched s' := by
  obtain ⟨s', heq, hs⟩ := asleep_switchAway h hw.2 (.inl rfl)
  refine ⟨s', ?_, hs⟩
  have hk : decide (m.kmHolder ≠ some m.sched.curthr) = true := by simp [ho, hne]
  rw [kmutexLock, kassert_of hk, ok_bind, if_pos (by simp [ho]), schedSleepOn_eq h hw.2, heq]
  rfl

theorem kmutexLockCancellable_wait (ho : m.kmHolder = some o) (hne : o ≠ m.sched.curthr) :
    kmutexLockCancellable m = .ok (m, .returned (-eintr)) ∨
    ∃ s', kmutexLockCancellable m = .ok ({ m with sched := s' }, .asleep) ∧
      Asleep .sleepCancellable m.sched s' := by
  obtain ⟨s', heq, hs⟩ := asleep_switchAway h hw.2 (.inr rfl)
  have hk : decide (m.kmHolder ≠ some m.sched.curthr) = true := by simp [ho, hne]
  rw [kmutexLockCancellable, kassert_of hk, ok_bind, if_neg (by simp [ho]),
    schedCancellableSleepOn_eq h hw.2]
  by_cases hc : (m.sched.kthread m.sched.curthr).ktCancelled = true
  · left
    rw [if_pos hc]
    rfl
  · right
    rw [if_neg hc, heq]
    exact ⟨s', rfl, hs⟩

theorem kmutexUnlock_handoff (ho : m.kmHolder = some m.sched.curthr)
    (hl : m.sched.tqList kmWaitq = l ++ [t]) :
    kmutexUnlock m = .ok ⟨some t, (m.sched.unlink kmWaitq kmWaitq t).put ktRunq t .run⟩ := by
  have hsz : m.sched.tqSize kmWaitq ≠ 0 := by
    rw [h.size, hl, length_append]
    simp
    omega
  have hne : t ≠ m.sched.curthr := by
    rintro rfl
    exact h.placed.none_iff.mp hw.2 kmWaitq (by rw [hl]; simp)
  obtain ⟨hnil, -⟩ | ⟨l', t', hl', heq, -⟩ := schedWakeupOn_spec h kmWaitq_ne
  · rw [hl] at hnil
    simp at hnil
  · obtain ⟨-, ht⟩ := append_inj' (hl.symm.trans hl') rfl
    obtain rfl : t = t' := by simpa using ht
    simp [kmutexUnlock, ho, hsz, heq, hne, ok_bind, pure_eq_ok]

end

/-! ## 2. The invariant -/

structure KmInv (s : KmState) : Prop where
  q : QInv none s.mtx.sched
  free : s.mtx.kmHolder = none → s.waitq = []
  waiting : ∀ t ∈ s.waitq, s.pc t ≠ .user
  pcs : ∀ t, s.pc t ≠ .user → t ∈ s.waitq ∨ s.mtx.kmHolder = some t
  holder : ∀ t, s.mtx.kmHolder = some t → t ∉ s.waitq
  inside : ∀ t, t ∈ s.inside ↔ s.mtx.kmHolder = some t ∧ s.pc t = .user
  nodup : s.inside.Nodup
  alive : ∀ t, s.pc t ≠ .user → s.mtx.sched.alive t

section
variable {s s' : KmState}

theorem KmInv.boot (idle : Nat) : KmInv (bootKmutex idle) where
  q := .boot idle
  free _ := rfl
  waiting _ ht := (nomatch ht)
  pcs _ ht := absurd rfl ht
  holder _ ht := (nomatch ht)
  inside _ := ⟨fun h => (nomatch h), fun h => (nomatch h.1)⟩
  nodup := .nil
  alive _ ht := absurd rfl ht

variable (h : KmInv s)
include h

theorem KmInv.cur_not_waiting (hr : s.mtx.sched.running) : s.cur ∉ s.waitq :=
  h.q.placed.none_iff.mp hr.2 kmWaitq

theorem KmInv.holder_ne (hpc : s.pc s.cur = .user) (hin : s.cur ∉ s.inside) :
    s.mtx.kmHolder ≠ some s.cur := fun he => hin ((h.inside s.cur).mpr ⟨he, hpc⟩)

theorem KmInv.takeFree (hr : s.mtx.sched.running) (hpc : s.pc s.cur = .user)
    (hf : s.mtx.kmHolder = none) (pc : Pc) :
    KmInv (s.locked s.cur pc ({ s.mtx with kmHolder := some s.mtx.sched.curthr },
      .returned 0)) := by
  have hempty : s.inside = [] := by
    refine eq_nil_iff_forall_not_mem.mpr fun t ht => ?_
    have := ((h.inside t).mp ht).1
    rw [hf] at this
    cases this
  refine ⟨h.q, fun he => (nomatch he), h.waiting, ?_, ?_, ?_, ?_, h.alive⟩
  · intro t ht
    obtain hw | ho := h.pcs t ht
    · exact .inl hw
    · rw [hf] at ho
      cases ho
  · rintro t ht
    cases ht
    exact h.cur_not_waiting hr
  · intro t
    change t ∈ s.cur :: s.inside ↔ some s.cur = some t ∧ s.pc t = .user
    rw [hempty, mem_singleton]
    constructor
    · rintro rfl
      exact ⟨rfl, hpc⟩
    · rintro ⟨ht, -⟩
      exact (some.inj ht).symm
  · change (s.cur :: s.inside).Nodup
    rw [hempty]
    simp

theorem KmInv.sleep (ho : s.mtx.kmHolder = some o) (hne : o ≠ s.cur) {pc : Pc} (hpc' : pc ≠ .user)
    (hs : Asleep st s.mtx.sched sch) :
    KmInv (s.locked s.cur pc ({ s.mtx with sched := sch }, .asleep)) := by
  have hself : (update s.pc s.cur pc) s.cur = pc := update_self ..
  have hoth : ∀ {t}, t ≠ s.cur → (update s.pc s.cur pc) t = s.pc t :=
    fun ht => update_of_ne ht ..
  have hwq : (s.locked s.cur pc ({ s.mtx with sched := sch }, .asleep)).waitq = s.cur :: s.waitq :=
    hs.tqList
  refine ⟨hs.q, ?_, ?_, ?_, ?_, ?_, h.nodup, ?_⟩
  · intro he
    change s.mtx.kmHolder = none at he
    rw [ho] at he
    cases he
  · intro t ht
    change (update s.pc s.cur pc) t ≠ .user
    rw [hwq] at ht
    by_cases hc : t = s.cur
    · rw [hc, hself]
      exact hpc'
    · rw [hoth hc]
      exact h.waiting t ((mem_cons.mp ht).resolve_left hc)
  · intro t ht
    change (update s.pc s.cur pc) t ≠ .user at ht
    rw [hwq]
    by_cases hc : t = s.cur
    · exact .inl (hc ▸ .head _)
    · rw [hoth hc] at ht
      obtain hw | hh := h.pcs t ht
      · exact .inl (.tail _ hw)
      · exact .inr hh
  · intro t ht
    rw [hwq]
    change s.mtx.kmHolder = some t at ht
    have htc : t ≠ s.cur := by
      rw [ho] at ht
      exact (some.inj ht) ▸ hne
    exact fun hm => h.holder t ht ((mem_cons.mp hm).resolve_left htc)
  · intro t
    change t ∈ s.inside ↔ s.mtx.kmHolder = some t ∧ (update s.pc s.cur pc) t = .user
    rw [h.inside t]
    by_cases hc : t = s.cur
    · subst hc
      rw [hself, ho]
      exact ⟨fun hx => absurd (some.inj hx.1) hne, fun hx => absurd hx.2 hpc'⟩
    · rw [hoth hc]
  · intro t ht
    change (update s.pc s.cur pc) t ≠ .user at ht
    refine hs.alive t ?_
    by_cases hc : t = s.cur
    · exact .inr hc
    · rw [hoth hc] at ht
      exact .inl (h.alive t ht)

/-- The only thread that has the mutex gives it up. -/
theorem KmInv.inside_erase (hin : s.cur ∈ s.inside) : s.inside.erase s.cur = [] := by
  refine eq_nil_iff_forall_not_mem.mpr fun t ht => ?_
  have hmem := mem_of_mem_erase ht
  have h1 := ((h.inside t).mp hmem).1
  have h2 := ((h.inside s.cur).mp hin).1
  rw [h1] at h2
  obtain rfl : t = s.cur := some.inj h2
  exact h.nodup.not_mem_erase ht

def KmState.unlocked (s : KmState) (m : Kmutex) : KmState :=
  { s with mtx := m, inside := s.inside.erase s.cur, acquired := s.acquired ++ m.kmHolder.toList }

theorem KmInv.unlockFree (hin : s.cur ∈ s.inside) (hl : s.waitq = []) :
    KmInv (s.unlocked { s.mtx with kmHolder := none }) := by
  have hho := ((h.inside s.cur).mp hin).1
  refine ⟨h.q, fun _ => hl, h.waiting, ?_, fun t ht => (nomatch ht), ?_, ?_, h.alive⟩
  · intro t ht
    obtain hw | ho := h.pcs t ht
    · exact .inl hw
    · -- the holder is the current thread, which is not in a call
      have hpc := ((h.inside s.cur).mp hin).2
      rw [hho] at ho
      obtain rfl : s.cur = t := some.inj ho
      exact absurd hpc ht
  · intro t
    change t ∈ s.inside.erase s.cur ↔ none = some t ∧ _
    rw [h.inside_erase hin]
    simp
  · change (s.inside.erase s.cur).Nodup
    rw [h.inside_erase hin]
    exact .nil

theorem KmInv.unlockHandoff (hin : s.cur ∈ s.inside) (hl : s.waitq = l ++ [t]) :
    KmInv (s.unlocked ⟨some t, (s.mtx.sched.unlink kmWaitq kmWaitq t).put ktRunq t .run⟩) := by
  have ht : t ∈ s.mtx.sched.tqList kmWaitq := by
    change t ∈ s.waitq
    rw [hl]
    simp
  obtain ⟨hho, hpc⟩ := (h.inside s.cur).mp hin
  have hwq : (s.unlocked ⟨some t, (s.mtx.sched.unlink kmWaitq kmWaitq t).put ktRunq t .run⟩).waitq =
    l :=
    h.q.requeue_tqList kmWaitq_ne hl
  have hnd : t ∉ l := by
    have hn : s.waitq.Nodup := h.q.placed.nodup kmWaitq
    rw [hl, nodup_append] at hn
    exact fun hm => hn.2.2 t hm t (by simp) rfl
  refine ⟨h.q.requeue ht, fun he => (nomatch he), ?_, ?_, ?_, ?_, ?_, ?_⟩
  · intro u hu
    rw [hwq] at hu
    exact h.waiting u (by rw [hl]; exact mem_append_left _ hu)
  · intro u hu
    rw [hwq]
    change u ∈ l ∨ some t = some u
    obtain hw | ho := h.pcs u hu
    · rw [hl] at hw
      obtain hw | hw := mem_append.mp hw
      · exact .inl hw
      · exact .inr (by rw [mem_singleton.mp hw])
    · rw [hho] at ho
      obtain rfl : s.cur = u := some.inj ho
      exact absurd hpc hu
  · rintro u hu
    cases hu
    rw [hwq]
    exact hnd
  · intro u
    change u ∈ s.inside.erase s.cur ↔ some t = some u ∧ s.pc u = .user
    rw [h.inside_erase hin]
    refine ⟨fun hm => (nomatch hm), ?_⟩
    rintro ⟨hu, hpu⟩
    cases hu
    exact absurd hpu (h.waiting t ht)
  · change (s.inside.erase s.cur).Nodup
    rw [h.inside_erase hin]
    exact .nil
  · intro u hu
    have halive := h.alive u hu
    change ((s.mtx.sched.unlink kmWaitq kmWaitq t).put ktRunq t .run).alive u
    by_cases hut : u = t
    · subst hut
      simp [Sched.alive]
    · rw [Sched.alive, put_kthread_ne hut, unlink_kthread_ne hut]
      exact halive

theorem KmInv.ret_holder (hr : s.mtx.sched.running) (hpc : s.pc s.cur ≠ .user) :
    s.mtx.kmHolder = some s.cur :=
  (h.pcs s.cur hpc).resolve_left (h.cur_not_waiting hr)

theorem KmInv.ret (hr : s.mtx.sched.running) (hpc : s.pc s.cur ≠ .user)
    (hs : kmStep s .ret = .ok s') : KmInv s' := by
  have hho := h.ret_holder hr hpc
  have hself : (update s.pc s.cur .user) s.cur = .user := update_self ..
  have hoth : ∀ {t}, t ≠ s.cur → (update s.pc s.cur .user) t = s.pc t :=
    fun ht => update_of_ne ht ..
  have hnew : ∀ {t}, (update s.pc s.cur .user) t ≠ .user → s.pc t ≠ .user := by
    intro t ht
    by_cases hc : t = s.cur
    · rw [hc]
      exact hpc
    · rw [hoth hc] at ht
      exact ht
  have hempty : s.inside = [] := by
    refine eq_nil_iff_forall_not_mem.mpr fun t ht => ?_
    obtain ⟨h1, h2⟩ := (h.inside t).mp ht
    rw [hho] at h1
    obtain rfl : s.cur = t := some.inj h1
    exact hpc h2
  cases hs
  refine ⟨h.q, h.free, ?_, fun t ht => h.pcs t (hnew ht), h.holder, ?_, ?_,
    fun t ht => h.alive t (hnew ht)⟩
  · intro t ht
    have hc : t ≠ s.cur := by
      rintro rfl
      exact h.cur_not_waiting hr ht
    change (update s.pc s.cur .user) t ≠ .user
    rw [hoth hc]
    exact h.waiting t ht
  · intro t
    change t ∈ s.cur :: s.inside ↔ s.mtx.kmHolder = some t ∧ (update s.pc s.cur .user) t = .user
    rw [hempty, mem_singleton, hho]
    constructor
    · rintro rfl
      exact ⟨rfl, hself⟩
    · rintro ⟨ht, -⟩
      exact (some.inj ht).symm
  · change (s.cur :: s.inside).Nodup
    rw [hempty]
    simp

/-- What a call to the scheduler leaves of the mutex. -/
structure SchedKept (s : KmState) (sch : Sched) : Prop where
  q : QInv none sch
  tqList : sch.tqList kmWaitq = s.waitq
  state : ∀ t ∈ s.waitq, (sch.kthread t).ktState = (s.mtx.sched.kthread t).ktState
  alive : ∀ t, s.pc t ≠ .user → sch.alive t

theorem KmInv.schedKept (hk : SchedKept s sch) :
    KmInv { s with mtx := { s.mtx with sched := sch } } := by
  have hwq : ({ s with mtx := { s.mtx with sched := sch } } : KmState).waitq = s.waitq := hk.tqList
  refine ⟨hk.q, ?_, ?_, ?_, ?_, h.inside, h.nodup, hk.alive⟩
  · rw [hwq]
    exact h.free
  · rw [hwq]
    exact h.waiting
  · rw [hwq]
    exact h.pcs
  · rw [hwq]
    exact h.holder

/-- No thread is cancelled while it is asleep in `kmutex_lock_cancellable`. -/
def KmQuiet (s : KmState) : KmCall → Prop
  | .sched (.cancel t) => ¬ (t ∈ s.waitq ∧ (s.mtx.sched.kthread t).ktState = .sleepCancellable)
  | _ => True

theorem KmInv.schedStep {c : SchedCall} (hc : KmLegal s (.sched c)) (hq : KmQuiet s (.sched c)) :
    ∃ sch, schedStep s.mtx.sched c = .ok sch ∧ SchedKept s sch := by
  obtain ⟨huse, hqueue, hpc, -⟩ := hc
  obtain ⟨sch, heq, hq'⟩ := schedStep_spec h.q huse
  refine ⟨sch, heq, ?_⟩
  by_cases hx : c = .exit
  · -- the thread that exits is in no call
    subst hx
    rw [schedStep_exit h.q huse] at heq
    cases heq
    have hne : ∀ {t}, t ≠ s.mtx.sched.curthr →
        (s.mtx.sched.setThread s.mtx.sched.curthr fun k => { k with ktState := .exited }).kthread t
          = s.mtx.sched.kthread t := by
      intro t ht
      simp [setThread, ht]
    refine ⟨hq', rfl, fun t ht => ?_, fun t ht => ?_⟩
    · have htc : t ≠ s.mtx.sched.curthr := by
        rintro rfl
        exact h.cur_not_waiting huse ht
      rw [hne htc]
    · have htc : t ≠ s.mtx.sched.curthr := by
        rintro rfl
        exact ht (hpc rfl)
      rw [Sched.alive, hne htc]
      exact h.alive t ht
  · have hf := schedStep_frame h.q huse kmWaitq_ne hqueue hx ?_ heq
    · exact ⟨hq', hf.tqList, hf.state, fun t ht => hf.alive t (h.alive t ht)⟩
    · rintro t rfl hm hst
      exact hq ⟨hm, hst⟩

/-- **Every legal call returns**, and keeps the invariant unless it cancels a waiting thread. -/
theorem kmStep_spec (hc : KmLegal s c) (hq : KmQuiet s c) :
    ∃ s', kmStep s c = .ok s' ∧ KmInv s' := by
  cases c with
  | lock =>
    obtain ⟨hr, hpc, hin⟩ := hc
    cases ho : s.mtx.kmHolder with
    | none => exact ⟨_, by rw [kmStep, kmutexLock_free ho]; rfl, h.takeFree hr hpc ho .inLock⟩
    | some o =>
      have hne : o ≠ s.cur := fun he => h.holder_ne hpc hin (he ▸ ho)
      obtain ⟨sch, heq, hs⟩ := kmutexLock_wait h.q hr ho hne
      exact ⟨_, by rw [kmStep, heq]; rfl, h.sleep ho hne (by simp) hs⟩
  | lockCancellable =>
    obtain ⟨hr, hpc, hin⟩ := hc
    cases ho : s.mtx.kmHolder with
    | none =>
      exact ⟨_, by rw [kmStep, kmutexLockCancellable_free ho]; rfl,
        h.takeFree hr hpc ho .inLockCancellable⟩
    | some o =>
      have hne : o ≠ s.cur := fun he => h.holder_ne hpc hin (he ▸ ho)
      obtain heq | ⟨sch, heq, hs⟩ := kmutexLockCancellable_wait h.q hr ho hne
      · exact ⟨s, by rw [kmStep, heq]; rfl, h⟩
      · exact ⟨_, by rw [kmStep, heq]; rfl, h.sleep ho hne (by simp) hs⟩
  | unlock =>
    obtain ⟨hr, -, hin⟩ := hc
    have hho := ((h.inside s.cur).mp hin).1
    obtain hl | ⟨l, t, hl⟩ := eq_nil_or_concat' s.waitq
    · exact ⟨_, by rw [kmStep, kmutexUnlock_free h.q hho hl]; rfl, h.unlockFree hin hl⟩
    · exact ⟨_, by rw [kmStep, kmutexUnlock_handoff h.q hr hho hl]; rfl, h.unlockHandoff hin hl⟩
  | ret => exact ⟨_, rfl, h.ret hc.1 hc.2 rfl⟩
  | sched c =>
    obtain ⟨sch, heq, hk⟩ := h.schedStep hc hq
    exact ⟨_, by rw [kmStep, heq]; rfl, h.schedKept hk⟩

/-- The calls of the mutex and of the scheduler return, whichever thread is cancelled. -/
theorem kmStep_returns (hc : KmLegal s c) : ∃ s', kmStep s c = .ok s' := by
  cases c with
  | sched c =>
    obtain ⟨sch, heq, -⟩ := schedStep_spec h.q hc.1
    exact ⟨_, by rw [kmStep, heq]; rfl⟩
  | lock | lockCancellable | unlock | ret =>
    obtain ⟨s', heq, -⟩ := kmStep_spec h hc trivial
    exact ⟨s', heq⟩

end

/-! ## 3. Mutual exclusion -/

theorem kmInv_of_run (hr : Lts.Run (fun s c => KmLegal s c ∧
    KmQuiet s c) kmStep (bootKmutex idle) s) : KmInv s := by
  refine hr.invariant (KmInv.boot idle) ?_
  rintro t c u ht ⟨hc, hq⟩ hstep
  obtain ⟨u', heq, hu'⟩ := kmStep_spec ht hc hq
  rw [heq] at hstep
  cases hstep
  exact hu'

/-- **Mutual exclusion.**  In every run in which no thread is cancelled while it is asleep in
`kmutex_lock_cancellable`, at most one thread has the mutex and it is the holder, every call the
contract allows returns, and a `kmutex_lock_cancellable` that fails leaves its caller with nothing
and waiting for nothing. -/
theorem mutual_exclusion {idle : Nat} {s : KmState}
    (hr : Lts.Run (fun s c => KmLegal s c ∧ KmQuiet s c) kmStep (bootKmutex idle) s) :
    s.inside.length ≤ 1 ∧ (∀ t ∈ s.inside, s.mtx.kmHolder = some t) ∧
    (∀ c, KmLegal s c → ∃ s', kmStep s c = .ok s') ∧
    (KmLegal s .lockCancellable → ∀ m r, kmutexLockCancellable s.mtx = .ok (m, .returned r) →
      r ≠ 0 → m.kmHolder ≠ some s.cur ∧ s.cur ∉ m.sched.tqList kmWaitq) := by
  have h := kmInv_of_run hr
  refine ⟨?_, fun t ht => ((h.inside t).mp ht).1, fun c hc => kmStep_returns h hc, ?_⟩
  · match hl : s.inside with
    | [] | [_] => simp
    | t :: u :: l =>
      have ht := ((h.inside t).mp (by rw [hl]; simp)).1
      have hu := ((h.inside u).mp (by rw [hl]; simp)).1
      rw [ht] at hu
      have hnd := h.nodup
      rw [hl, some.inj hu] at hnd
      simp at hnd
  · rintro ⟨hrun, hpc, hin⟩ m r heq hr0
    cases ho : s.mtx.kmHolder with
    | none =>
      rw [kmutexLockCancellable_free ho] at heq
      cases heq
      exact absurd rfl hr0
    | some o =>
      have hne : o ≠ s.cur := fun he => h.holder_ne hpc hin (he ▸ ho)
      obtain heq' | ⟨sch, heq', -⟩ := kmutexLockCancellable_wait h.q hrun ho hne
      · rw [heq'] at heq
        cases heq
        exact ⟨h.holder_ne hpc hin, h.cur_not_waiting hrun⟩
      · rw [heq'] at heq
        cases heq

def startTwo : List KmCall :=
  [.sched (.create 2), .sched (.makeRunnable 2), .sched (.create 3), .sched (.makeRunnable 3),
    .sched (.makeRunnable 1), .sched .switch]

/-- The current thread `t` lets the others run. -/
def yieldCalls (t : Nat) : List KmCall := [.sched (.makeRunnable t), .sched .switch]

instance (s : KmState) (c : KmCall) : Decidable (KmQuiet s c) := by
  obtain _ | _ | _ | _ | (_ | _) := c <;> unfold KmQuiet <;> infer_instance

/-- Thread 2 has the mutex, thread 3 waits for it in a cancellable call, and both end up with it
one after the other. -/
theorem mutual_exclusion_two_threads :
    ∃ s, Lts.Run (fun s c => KmLegal s c ∧ KmQuiet s c) kmStep (bootKmutex 1) s ∧
    s.inside = [3] ∧ s.mtx.kmHolder = some 3 ∧ ∃ s', kmStep s .unlock = .ok s' := by
  obtain ⟨s, hs, hin, hlegal⟩ :
    ∃ s, Lts.Run (fun s c => KmLegal s c ∧ KmQuiet s c) kmStep (bootKmutex 1) s ∧
      s.inside = [3] ∧ KmLegal s .unlock :=
    Lts.exists_run (startTwo ++ .lock :: yieldCalls 2 ++ .lockCancellable :: yieldCalls 1 ++
        .unlock :: yieldCalls 2 ++ yieldCalls 1 ++ [.ret]) (by decide +kernel)
  obtain ⟨-, hho, hret, -⟩ := mutual_exclusion hs
  exact ⟨s, hs, hin, hho 3 (by rw [hin]; simp), hret _ hlegal⟩

/-- **A cancelled waiter enters.**  Thread 2 has the mutex and thread 3 sleeps in
`kmutex_lock_cancellable` when it is cancelled.  Its call returns 0; both threads have the mutex,
and when thread 3 unlocks it the first assertion of `kmutex_unlock` fails. -/
theorem cancelled_waiter_enters : ∃ s, Lts.Run KmLegal kmStep (bootKmutex 1) s ∧
    s.inside = [3, 2] ∧ s.mtx.kmHolder = some 2 ∧ KmLegal s .unlock ∧
    kmStep s .unlock = .error (.kassert "curthr && (curthr == mtx->km_holder)") := by
  obtain ⟨s, hs, hin, hho, hlegal, hcur⟩ : ∃ s, Lts.Run KmLegal kmStep (bootKmutex 1) s ∧
      s.inside = [3, 2] ∧ s.mtx.kmHolder = some 2 ∧ KmLegal s .unlock ∧ s.mtx.sched.curthr = 3 :=
    Lts.exists_run (startTwo ++ .lock :: yieldCalls 2 ++ .lockCancellable :: .sched (.cancel 3) ::
      yieldCalls 1 ++
        yieldCalls 2 ++ [.ret]) (by decide +kernel)
  refine ⟨s, hs, hin, hho, hlegal, ?_⟩
  simp [kmStep, kmutexUnlock, hho, hcur, kassert, error_bind]

/-! ## 4. The order of acquisition -/

/-- The thread that was handed the mutex and has not run since. -/
def pendingOf (holder : Option Nat) (pc : Nat → Pc) : List Nat :=
  match holder with
  | none => []
  | some t => if pc t = .user then [] else [t]

def KmState.pending (s : KmState) : List Nat := pendingOf s.mtx.kmHolder s.pc

/-- What the order of calls has to do with the order in which threads get the mutex. -/
structure FifoInv (s : KmState) : Prop where
  order : s.lockCalls = s.acquired ++ s.waitq.reverse
  returns : s.acquired = s.returned ++ s.pending
  sleeping : ∀ t ∈ s.waitq, (s.mtx.sched.kthread t).ktState = .sleep

/-- The contract without `kmutex_lock_cancellable`. -/
def KmPlain (s : KmState) (c : KmCall) : Prop := KmLegal s c ∧ c ≠ .lockCancellable
deriving Decidable

section
variable {s s' : KmState}

theorem FifoInv.boot (idle : Nat) : FifoInv (bootKmutex idle) :=
  ⟨rfl, rfl, fun _ ht => (nomatch ht)⟩

/-- Where all waiting threads sleep uninterruptibly, cancelling is harmless. -/
theorem FifoInv.quiet (hf : FifoInv s) (c : KmCall) : KmQuiet s c := by
  cases c with
  | sched c =>
    cases c with
    | cancel t =>
      rintro ⟨ht, hst⟩
      rw [hf.sleeping t ht] at hst
      cases hst
    | _ => trivial
  | lock | lockCancellable | unlock | ret => trivial

theorem pendingOf_user (hpc : pc t = .user) : pendingOf (some t) pc = [] :=
  if_pos hpc

theorem pendingOf_call (hpc : pc t ≠ .user) : pendingOf (some t) pc = [t] :=
  if_neg hpc

theorem FifoInv.takeFree (hf : FifoInv s) (h : KmInv s) (hpc : s.pc s.cur = .user)
    (ho : s.mtx.kmHolder = none) : FifoInv
      (s.locked s.cur .inLock ({ s.mtx with kmHolder := some s.mtx.sched.curthr },
        .returned 0)) := by
  have hwq : s.waitq = [] := h.free ho
  refine ⟨?_, ?_, hf.sleeping⟩
  · change s.lockCalls ++ [s.cur] = s.acquired ++ [s.cur] ++ s.waitq.reverse
    rw [hf.order, hwq]
    simp
  · change s.acquired ++ [s.cur] = s.returned ++ [s.cur] ++ pendingOf (some s.cur) s.pc
    rw [hf.returns, KmState.pending, ho, pendingOf_user hpc]
    simp [pendingOf]

theorem FifoInv.sleep (hf : FifoInv s) (ho : s.mtx.kmHolder = some o) (hne : o ≠ s.cur)
    (hs : Asleep .sleep s.mtx.sched sch) :
    FifoInv (s.locked s.cur .inLock ({ s.mtx with sched := sch }, .asleep)) := by
  have hwq : (s.locked s.cur .inLock ({ s.mtx with sched := sch }, .asleep)).waitq =
    s.cur :: s.waitq := hs.tqList
  refine ⟨?_, ?_, ?_⟩
  · rw [hwq]
    change s.lockCalls ++ [s.cur] = s.acquired ++ (s.cur :: s.waitq).reverse
    rw [hf.order]
    simp
  · change s.acquired = s.returned ++ pendingOf s.mtx.kmHolder (update s.pc s.cur .inLock)
    rw [hf.returns, KmState.pending, ho]
    simp only [pendingOf, update_of_ne hne]
  · intro t ht
    rw [hwq] at ht
    obtain rfl | ht := mem_cons.mp ht
    · exact hs.self
    · exact (hs.state t ht).trans (hf.sleeping t ht)

section
variable (hf : FifoInv s) (h : KmInv s) (hin : s.cur ∈ s.inside)
include hf h hin

/-- The current thread has the mutex, so nobody else was handed it. -/
theorem FifoInv.all_returned : s.acquired = s.returned := by
  obtain ⟨ho, hpc⟩ := (h.inside s.cur).mp hin
  rw [hf.returns, KmState.pending, ho, pendingOf_user hpc, append_nil]

theorem FifoInv.unlockFree : FifoInv (s.unlocked { s.mtx with kmHolder := none }) := by
  refine ⟨?_, ?_, hf.sleeping⟩
  · change s.lockCalls = s.acquired ++ [] ++ s.waitq.reverse
    rw [append_nil]
    exact hf.order
  · change s.acquired ++ [] = s.returned ++ []
    rw [hf.all_returned h hin]

theorem FifoInv.unlockHandoff (hl : s.waitq = l ++ [t]) : FifoInv
      (s.unlocked ⟨some t, (s.mtx.sched.unlink kmWaitq kmWaitq t).put ktRunq t .run⟩) := by
  have ht : t ∈ s.waitq := by
    rw [hl]
    simp
  have hwq : (s.unlocked ⟨some t, (s.mtx.sched.unlink kmWaitq kmWaitq t).put ktRunq t .run⟩).waitq =
    l :=
    h.q.requeue_tqList kmWaitq_ne hl
  refine ⟨?_, ?_, ?_⟩
  · rw [hwq]
    change s.lockCalls = s.acquired ++ [t] ++ l.reverse
    rw [hf.order, hl]
    simp
  · change s.acquired ++ [t] = s.returned ++ pendingOf (some t) s.pc
    rw [hf.all_returned h hin, pendingOf_call (h.waiting t ht)]
  · intro u hu
    have hut : u ≠ t := by
      rintro rfl
      exact (h.unlockHandoff hin hl).holder u rfl hu
    rw [hwq] at hu
    change (((s.mtx.sched.unlink kmWaitq kmWaitq t).put ktRunq t .run).kthread u).ktState = .sleep
    rw [put_kthread_ne hut, unlink_kthread_ne hut]
    exact hf.sleeping u (by rw [hl]; exact mem_append_left _ hu)

end

theorem FifoInv.ret (hf : FifoInv s) (h : KmInv s) (hr : s.mtx.sched.running)
    (hpc : s.pc s.cur ≠ .user) (hs : kmStep s .ret = .ok s') : FifoInv s' := by
  have hho := h.ret_holder hr hpc
  cases hs
  refine ⟨hf.order, ?_, hf.sleeping⟩
  change s.acquired = s.returned ++ [s.cur] ++ pendingOf s.mtx.kmHolder (update s.pc s.cur .user)
  rw [hf.returns, KmState.pending, hho, pendingOf_call hpc,
    pendingOf_user (update_self ..), append_nil]

theorem FifoInv.schedKept (hf : FifoInv s) (hk : SchedKept s sch) :
    FifoInv { s with mtx := { s.mtx with sched := sch } } := by
  have hwq : ({ s with mtx := { s.mtx with sched := sch } } : KmState).waitq = s.waitq := hk.tqList
  refine ⟨?_, hf.returns, ?_⟩
  · rw [hwq]
    exact hf.order
  · intro t ht
    rw [hwq] at ht
    exact (hk.state t ht).trans (hf.sleeping t ht)

/-- **Every call keeps the order.** -/
theorem kmStep_fifo (h : KmInv s) (hf : FifoInv s) (hc : KmPlain s c) :
    ∃ s', kmStep s c = .ok s' ∧ KmInv s' ∧ FifoInv s' := by
  obtain ⟨hc, hplain⟩ := hc
  obtain ⟨s', heq, h'⟩ := kmStep_spec h hc (hf.quiet c)
  refine ⟨s', heq, h', ?_⟩
  cases c with
  | lock =>
    obtain ⟨hr, hpc, hin⟩ := hc
    cases ho : s.mtx.kmHolder with
    | none =>
      rw [kmStep, kmutexLock_free ho] at heq
      cases heq
      exact hf.takeFree h hpc ho
    | some o =>
      have hne : o ≠ s.cur := fun he => h.holder_ne hpc hin (he ▸ ho)
      obtain ⟨sch, heq', hs⟩ := kmutexLock_wait h.q hr ho hne
      rw [kmStep, heq'] at heq
      cases heq
      exact hf.sleep ho hne hs
  | lockCancellable => exact absurd rfl hplain
  | unlock =>
    obtain ⟨hr, -, hin⟩ := hc
    have hho := ((h.inside s.cur).mp hin).1
    obtain hl | ⟨l, t, hl⟩ := eq_nil_or_concat' s.waitq
    · rw [kmStep, kmutexUnlock_free h.q hho hl] at heq
      cases heq
      exact hf.unlockFree h hin
    · rw [kmStep, kmutexUnlock_handoff h.q hr hho hl] at heq
      cases heq
      exact hf.unlockHandoff h hin hl
  | ret => exact hf.ret h hc.1 hc.2 heq
  | sched c =>
    obtain ⟨sch, heq', hk⟩ := h.schedStep hc (hf.quiet _)
    rw [kmStep, heq'] at heq
    cases heq
    exact hf.schedKept hk

end

theorem fifo_of_run (hr : Lts.Run KmPlain kmStep (bootKmutex idle) s) : KmInv s ∧ FifoInv s := by
  refine hr.invariant (I := fun s => KmInv s ∧ FifoInv s) ⟨.boot idle, .boot idle⟩ ?_
  rintro t c u ⟨h, hf⟩ hc hstep
  obtain ⟨u', heq, hu'⟩ := kmStep_fifo h hf hc
  rw [heq] at hstep
  cases hstep
  exact hu'

/-- **First come, first served.**  In every run without `kmutex_lock_cancellable`, with any
cancellations: the mutex is free only when nobody waits; a thread that returns from `kmutex_lock`
is the holder; `kmutex_unlock` does not give up the processor and makes the thread that has waited
longest the holder; and the threads that were made the holder are, in order, the first of those
that called `kmutex_lock`, the rest being the waiting ones. -/
theorem fifo_handoff {idle : Nat} {s : KmState} (hr : Lts.Run KmPlain kmStep (bootKmutex idle) s) :
    (s.mtx.kmHolder = none → s.waitq = []) ∧
    (KmLegal s .lock → ∀ m r, kmutexLock s.mtx = .ok (m, .returned r) → m.kmHolder = some s.cur) ∧
    (KmLegal s .ret → s.mtx.kmHolder = some s.cur) ∧
    (KmLegal s .unlock → ∃ m, kmutexUnlock s.mtx = .ok m ∧ m.sched.curthr = s.cur ∧
      m.sched.intrWait = false ∧ (s.waitq = [] → m.kmHolder = none) ∧
      (s.waitq ≠ [] → ∃ t ∈ s.waitq, m.kmHolder = some t ∧ ∀ u ∈ s.waitq, u ≠ t →
        (s.mtx.sched.kthread t).ktArrived < (s.mtx.sched.kthread u).ktArrived)) ∧
    (∀ c, KmPlain s c → ∃ s', kmStep s c = .ok s') ∧
    s.lockCalls = s.acquired ++ s.waitq.reverse ∧ s.acquired = s.returned ++ s.pending := by
  obtain ⟨h, hf⟩ := fifo_of_run hr
  refine ⟨h.free, ?_, fun hc => h.ret_holder hc.1 hc.2, ?_, ?_, hf.order, hf.returns⟩
  · rintro ⟨hrun, hpc, hin⟩ m r heq
    cases ho : s.mtx.kmHolder with
    | none =>
      rw [kmutexLock_free ho] at heq
      cases heq
      rfl
    | some o =>
      have hne : o ≠ s.cur := fun he => h.holder_ne hpc hin (he ▸ ho)
      obtain ⟨sch, heq', -⟩ := kmutexLock_wait h.q hrun ho hne
      rw [heq'] at heq
      cases heq
  · rintro ⟨hrun, -, hin⟩
    have hho := ((h.inside s.cur).mp hin).1
    obtain hl | ⟨l, t, hl⟩ := eq_nil_or_concat' s.waitq
    · exact ⟨_, kmutexUnlock_free h.q hho hl, rfl, hrun.1, fun _ => rfl, fun hn => absurd hl hn⟩
    · refine ⟨_, kmutexUnlock_handoff h.q hrun hho hl, rfl, hrun.1, ?_, fun _ => ⟨t, ?_, rfl, ?_⟩⟩
      · intro hn
        rw [hl] at hn
        simp at hn
      · rw [hl]
        simp
      · exact h.q.dequeue_first (ktqueueDequeue_concat hl)
  · intro c hc
    obtain ⟨s', heq, -⟩ := kmStep_fifo h hf hc
    exact ⟨s', heq⟩

/-- Threads 2, 3 and 1 ask for the mutex in this order, thread 3 is cancelled while it waits, and
the mutex goes to thread 3 and then to thread 1. -/
theorem fifo_handoff_three_threads : ∃ s, Lts.Run KmPlain kmStep (bootKmutex 1) s ∧
    s.lockCalls = [2, 3, 1] ∧ s.returned = [2, 3] ∧ s.mtx.kmHolder = some 1 ∧
    s.acquired = [2, 3] ++ s.pending ∧ s.lockCalls = s.acquired ++ s.waitq.reverse := by
  obtain ⟨s, hs, hcalls, hret, hho⟩ : ∃ s, Lts.Run KmPlain kmStep (bootKmutex 1) s ∧
      s.lockCalls = [2, 3, 1] ∧ s.returned = [2, 3] ∧ s.mtx.kmHolder = some 1 :=
    Lts.exists_run (startTwo ++ .lock :: yieldCalls 2 ++ .lock :: .sched (.cancel 3) :: .lock ::
        .unlock :: yieldCalls 2 ++ [.ret, .unlock]) (by decide +kernel)
  obtain ⟨-, -, -, -, -, horder, hreturns⟩ := fifo_handoff hs
  exact ⟨s, hs, hcalls, hret, hho, hret ▸ hreturns, horder⟩

end Weenix.Proc
