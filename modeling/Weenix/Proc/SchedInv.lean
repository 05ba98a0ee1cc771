/-
# The scheduler's queues

`QInv` is what the queues, the notes in the threads and the thread states agree on.  All calls
move threads by two moves, taking one off a queue and putting one on a queue, and between the two a
thread is on no queue although it sleeps or runs next.  `QInv (some t)` is the invariant while the
thread `t` is in hand, and `QInv none` the one between calls.

Each call is first brought to a closed form in the two moves, and `schedStep_spec` says that every
call returns and keeps the invariant.
-/
import Weenix.Lib.Placement
import Weenix.Proc.Sched

namespace Weenix.Proc

open Placement List Sched

variable {st : KtState} {f : Kthread → Kthread} {r t : Nat} {s s' : Sched} {c : SchedCall}

/-! ## 1. The invariant -/

structure QInv (hold : Option Nat) (s : Sched) : Prop where
  qlink : ∀ t, (s.kthread t).ktQlink = (s.kthread t).ktWchan
  placed : Placed s.tqList fun t => (s.kthread t).ktWchan
  size : ∀ q, s.tqSize q = (s.tqList q).length
  order : ∀ q, (s.tqList q).Pairwise fun t u => (s.kthread u).ktArrived < (s.kthread t).ktArrived
  clock : ∀ q, ∀ t ∈ s.tqList q, (s.kthread t).ktArrived < s.clock
  runq : ∀ t ∈ s.tqList ktRunq, (s.kthread t).ktState = .run
  asleep : ∀ q ≠ ktRunq, ∀ t ∈ s.tqList q, (s.kthread t).ktState = .sleep ∨
    (s.kthread t).ktState = .sleepCancellable
  awake : ∀ t, hold ≠ some t → (s.kthread t).ktWchan = none →
    (s.kthread t).ktState ≠ .sleep ∧ (s.kthread t).ktState ≠ .sleepCancellable
  fresh : ∀ t, (s.kthread t).ktNew = true → (s.kthread t).ktWchan = none ∧ t ≠ s.curthr

/-! ## 2. The two moves -/

/-- Set the state of a thread that is on no queue, and enqueue it. -/
def Sched.put (s : Sched) (q t : Nat) (st : KtState) : Sched :=
  (s.setThread t fun k => { k with ktState := st }).link q t

/-- Set the flag of `sched_cancel`. -/
abbrev Sched.flagged (s : Sched) (t : Nat) :
    Sched := s.setThread t fun k => { k with ktCancelled := true }

/-- Switch to a thread of the run queue. -/
abbrev Sched.dispatch (s : Sched) (t : Nat) : Sched :=
  { s.unlink ktRunq ktRunq t with curthr := t, intrWait := false }

section
variable {s : Sched} {hold : Option Nat} {q t u : Nat} {st : KtState}

@[simp] theorem put_curthr : (s.put q t st).curthr = s.curthr := rfl
@[simp] theorem unlink_curthr : (s.unlink q q t).curthr = s.curthr := rfl

@[simp] theorem put_kthread_self : (s.put q t st).kthread t = { s.kthread t with
      ktState := st, ktWchan := some q, ktQlink := some q, ktNew := false, ktArrived :=
        s.clock } := by
  simp [put, link, setThread]

theorem put_kthread_ne (h : u ≠ t) : (s.put q t st).kthread u = s.kthread u := by
  simp [put, link, setThread, h]

@[simp] theorem put_tqList_self : (s.put q t st).tqList q = t :: s.tqList q := by
  simp [put, link, setThread]

theorem put_tqList_ne (h : r ≠ q) : (s.put q t st).tqList r = s.tqList r := by
  simp [put, link, setThread, h]

@[simp] theorem unlink_kthread_self : (s.unlink q q t).kthread t =
    { s.kthread t with ktWchan := none, ktQlink := none } := by
  simp [unlink]

theorem unlink_kthread_ne (h : u ≠ t) : (s.unlink q q t).kthread u = s.kthread u := by
  simp [unlink, h]

@[simp] theorem unlink_tqList_self : (s.unlink q q t).tqList q = (s.tqList q).erase t := by
  simp [unlink]

theorem unlink_tqList_ne (h : r ≠ q) : (s.unlink q q t).tqList r = s.tqList r := by
  simp [unlink, h]

theorem unlink_field {β : Type} (g : Kthread → β)
    (hg : ∀ k w l, g { k with ktWchan := w, ktQlink := l } = g k) :
    g ((s.unlink q q t).kthread u) = g (s.kthread u) := by
  by_cases hu : u = t
  · subst hu
    rw [unlink_kthread_self, hg]
  · rw [unlink_kthread_ne hu]

theorem unlink_ktArrived : ((s.unlink q q t).kthread u).ktArrived = (s.kthread u).ktArrived :=
  unlink_field (·.ktArrived) fun _ _ _ => rfl

theorem unlink_ktState : ((s.unlink q q t).kthread u).ktState = (s.kthread u).ktState :=
  unlink_field (·.ktState) fun _ _ _ => rfl

theorem unlink_ktNew : ((s.unlink q q t).kthread u).ktNew = (s.kthread u).ktNew :=
  unlink_field (·.ktNew) fun _ _ _ => rfl

theorem unlink_ktCancelled : ((s.unlink q q t).kthread u).ktCancelled = (s.kthread u).ktCancelled :=
  unlink_field (·.ktCancelled) fun _ _ _ => rfl

/-- **Putting a thread on a queue.**  The thread in hand, if any, is the one that is put. -/
theorem QInv.put (h : QInv hold s) (hw : (s.kthread t).ktWchan = none)
    (hhold : ∀ u, hold = some u → u = t) (hrun : q = ktRunq → st = .run)
    (hsleep : q ≠ ktRunq → st = .sleep ∨ st = .sleepCancellable) : QInv none (s.put q t st) := by
  have hno : ∀ r, t ∉ s.tqList r := h.placed.none_iff.mp hw
  have hne : ∀ {r u}, u ∈ s.tqList r → u ≠ t := fun hm he => hno _ (he ▸ hm)
  have hkeep : ∀ u, u ≠ t → hold ≠ some u := fun u hu he => hu (hhold u he)
  -- the members of a queue are the old ones and `t`
  have hmem : ∀ {r u}, u ∈ (s.put q t st).tqList r → u = t ∧ r = q ∨ u ≠ t ∧ u ∈ s.tqList r := by
    intro r u hu
    by_cases hr : r = q
    · subst hr
      rw [put_tqList_self] at hu
      obtain rfl | hu := mem_cons.mp hu
      · exact .inl ⟨rfl, rfl⟩
      · exact .inr ⟨hne hu, hu⟩
    · rw [put_tqList_ne hr] at hu
      exact .inr ⟨hne hu, hu⟩
  refine ⟨?_, ?_, ?_, ?_, ?_, ?_, ?_, ?_, ?_⟩
  · intro u
    by_cases hu : u = t
    · subst hu
      rw [put_kthread_self]
    · rw [put_kthread_ne hu]
      exact h.qlink u
  · refine h.placed.insert (t := t) (q := q) hw (fun r hr => put_tqList_ne hr) ?_ ?_ ?_
    · rw [put_tqList_self]
    · rw [put_kthread_self]
    · intro u hu
      rw [put_kthread_ne hu]
  · intro r
    by_cases hr : r = q
    · subst hr
      simp only [put, link, setThread, update_self, length_cons, h.size]
      omega
    · simp only [Sched.put, Sched.link, Sched.setThread, update_of_ne hr, h.size]
  · intro r
    have hold' : (s.tqList r).Pairwise fun a b =>
        ((s.put q t st).kthread b).ktArrived < ((s.put q t st).kthread a).ktArrived := by
      refine (h.order r).imp_of_mem fun {a b} ha hb hab => ?_
      rw [put_kthread_ne (hne ha), put_kthread_ne (hne hb)]
      exact hab
    by_cases hr : r = q
    · subst hr
      rw [put_tqList_self]
      refine pairwise_cons.mpr ⟨fun b hb => ?_, hold'⟩
      rw [put_kthread_self, put_kthread_ne (hne hb)]
      exact h.clock r b hb
    · rw [put_tqList_ne hr]
      exact hold'
  · intro r u hu
    obtain ⟨rfl, rfl⟩ | ⟨hut, hu⟩ := hmem hu
    · rw [put_kthread_self]
      exact Nat.lt_succ_self _
    · rw [put_kthread_ne hut]
      exact Nat.lt_succ_of_lt (h.clock r u hu)
  · intro u hu
    obtain ⟨rfl, hq⟩ | ⟨hut, hu⟩ := hmem hu
    · rw [put_kthread_self]
      exact hrun hq.symm
    · rw [put_kthread_ne hut]
      exact h.runq u hu
  · intro r hr u hu
    obtain ⟨rfl, rfl⟩ | ⟨hut, hu⟩ := hmem hu
    · rw [put_kthread_self]
      exact hsleep hr
    · rw [put_kthread_ne hut]
      exact h.asleep r hr u hu
  · intro u _ hu
    by_cases hut : u = t
    · subst hut
      rw [put_kthread_self] at hu
      cases hu
    · rw [put_kthread_ne hut] at hu ⊢
      exact h.awake u (hkeep u hut) hu
  · intro u hu
    by_cases hut : u = t
    · subst hut
      rw [put_kthread_self] at hu
      cases hu
    · rw [put_kthread_ne hut] at hu ⊢
      exact h.fresh u hu

/-- A thread as `sched_cancel` leaves it, apart from the flag. -/
theorem setCancelled_eq (s : Sched) (t u : Nat) : ∃ c, (s.flagged t).kthread u
      = { s.kthread u with ktCancelled := c } := by
  by_cases hu : u = t
  · subst hu
    exact ⟨true, by simp [setThread]⟩
  · exact ⟨(s.kthread u).ktCancelled, by simp [setThread, hu]⟩

variable (h : QInv none s)
include h

/-- **Taking a thread off its queue.** -/
theorem QInv.take (ht : t ∈ s.tqList q) : QInv (some t) (s.unlink q q t) := by
  have hw : (s.kthread t).ktWchan = some q := (h.placed.mem t q).mpr ht
  have hmem : ∀ {r u}, u ∈ (s.unlink q q t).tqList r → u ≠ t ∧ u ∈ s.tqList r := by
    intro r u hu
    by_cases hr : r = q
    · subst hr
      rw [unlink_tqList_self] at hu
      refine ⟨?_, mem_of_mem_erase hu⟩
      rintro rfl
      exact (h.placed.nodup r).not_mem_erase hu
    · rw [unlink_tqList_ne hr] at hu
      refine ⟨?_, hu⟩
      rintro rfl
      exact hr (h.placed.unique hu ht)
  refine ⟨?_, ?_, ?_, ?_, ?_, ?_, ?_, ?_, ?_⟩
  · intro u
    by_cases hu : u = t
    · subst hu
      rw [unlink_kthread_self]
    · rw [unlink_kthread_ne hu]
      exact h.qlink u
  · refine h.placed.remove (t := t)
      (q := q) hw (fun r hr => unlink_tqList_ne hr) unlink_tqList_self ?_ ?_
    · rw [unlink_kthread_self]
    · intro u hu
      rw [unlink_kthread_ne hu]
  · intro r
    by_cases hr : r = q
    · subst hr
      have hlen := length_erase_of_mem ht
      have hpos := length_pos_of_mem ht
      simp only [unlink, update_self, h.size, hlen]
      omega
    · simp only [unlink, update_of_ne hr, h.size]
  · intro r
    have hsub : ((s.unlink q q t).tqList r).Sublist (s.tqList r) := by
      by_cases hr : r = q
      · subst hr
        rw [unlink_tqList_self]
        exact erase_sublist
      · rw [unlink_tqList_ne hr]
    refine ((h.order r).sublist hsub).imp fun {a b} hab => ?_
    rw [unlink_ktArrived, unlink_ktArrived]
    exact hab
  · intro r u hu
    rw [unlink_ktArrived]
    exact h.clock r u (hmem hu).2
  · intro u hu
    rw [unlink_ktState]
    exact h.runq u (hmem hu).2
  · intro r hr u hu
    rw [unlink_ktState]
    exact h.asleep r hr u (hmem hu).2
  · intro u hhold hu
    have hut : u ≠ t := fun he => hhold (he ▸ rfl)
    rw [unlink_kthread_ne hut] at hu ⊢
    exact h.awake u (by simp) hu
  · intro u hu
    rw [unlink_ktNew] at hu
    have hut : u ≠ t := by
      rintro rfl
      rw [(h.fresh u hu).1] at hw
      cases hw
    rw [unlink_kthread_ne hut]
    exact h.fresh u hu

/-- **Moving a thread to the run queue.** -/
theorem QInv.requeue (ht : t ∈ s.tqList q) : QInv none ((s.unlink q q t).put ktRunq t .run) := by
  refine (h.take ht).put ?_ ?_ (fun _ => rfl) fun hn => absurd rfl hn
  · rw [unlink_kthread_self]
  · rintro u ⟨⟩
    rfl

/-- **Switching to a thread of the run queue.** -/
theorem QInv.switchTo (ht : t ∈ s.tqList ktRunq) : QInv none (s.dispatch t) := by
  have h' := h.take ht
  have hrun := h.runq t ht
  refine { h' with awake := ?_, fresh := ?_ }
  · intro u _ hu
    change ((s.unlink ktRunq ktRunq t).kthread u).ktWchan = none at hu
    change ((s.unlink ktRunq ktRunq t).kthread u).ktState ≠ .sleep ∧
      ((s.unlink ktRunq ktRunq t).kthread u).ktState ≠ .sleepCancellable
    by_cases hut : u = t
    · rw [unlink_ktState, hut, hrun]
      simp
    · exact h'.awake u (fun he => hut (Option.some.inj he).symm) hu
  · intro u hu
    refine ⟨(h'.fresh u hu).1, ?_⟩
    rintro rfl
    change ((s.unlink ktRunq ktRunq u).kthread u).ktNew = true at hu
    rw [unlink_ktNew] at hu
    exact h.placed.none_iff.mp (h.fresh u hu).1 ktRunq ht

/-- **Waiting for an interrupt.** -/
theorem QInv.wait : QInv none { s with intrWait := true } :=
  { h with }

/-- **Changing a thread that is on no queue.** -/
theorem QInv.setLoose (hw : (s.kthread t).ktWchan = none) (hfw : (f (s.kthread t)).ktWchan = none)
    (hfq : (f (s.kthread t)).ktQlink = none)
    (hawake : (f (s.kthread t)).ktState ≠ .sleep ∧ (f (s.kthread t)).ktState ≠ .sleepCancellable)
    (hfresh : (f (s.kthread t)).ktNew = true → t ≠ s.curthr) : QInv none (s.setThread t f) := by
  have hself : (s.setThread t f).kthread t = f (s.kthread t) := by simp [setThread]
  have hne : ∀ {u}, u ≠ t → (s.setThread t f).kthread u = s.kthread u := by
    intro u hu
    simp [setThread, hu]
  have hno : ∀ {r u}, u ∈ s.tqList r → u ≠ t :=
    fun hm he => h.placed.none_iff.mp hw _ (he ▸ hm)
  refine ⟨?_, ?_, h.size, ?_, ?_, ?_, ?_, ?_, ?_⟩
  · intro u
    by_cases hu : u = t
    · rw [hu, hself, hfw, hfq]
    · rw [hne hu]
      exact h.qlink u
  · refine h.placed.congr (fun _ => rfl) fun u => ?_
    by_cases hu : u = t
    · rw [hu, hself, hfw, hw]
    · rw [hne hu]
  · intro r
    refine (h.order r).imp_of_mem fun {a b} ha hb hab => ?_
    rw [hne (hno ha), hne (hno hb)]
    exact hab
  · intro r u hu
    rw [hne (hno hu)]
    exact h.clock r u hu
  · intro u hu
    rw [hne (hno hu)]
    exact h.runq u hu
  · intro r hr u hu
    rw [hne (hno hu)]
    exact h.asleep r hr u hu
  · intro u hhold hu
    by_cases hut : u = t
    · rw [hut, hself]
      exact hawake
    · rw [hne hut] at hu ⊢
      exact h.awake u hhold hu
  · intro u hu
    by_cases hut : u = t
    · rw [hut, hself] at hu
      rw [hut, hself]
      exact ⟨hfw, hfresh hu⟩
    · rw [hne hut] at hu ⊢
      exact h.fresh u hu

/-- **Setting the flag** changes nothing the queues depend on. -/
theorem QInv.setCancelled (t : Nat) : QInv none (s.flagged t) := by
  have hk := setCancelled_eq s t
  refine ⟨?_, ?_, h.size, ?_, ?_, ?_, ?_, ?_, ?_⟩
  · intro u
    obtain ⟨c, hc⟩ := hk u
    rw [hc]
    exact h.qlink u
  · refine h.placed.congr (fun _ => rfl) fun u => ?_
    obtain ⟨c, hc⟩ := hk u
    rw [hc]
  · intro r
    refine (h.order r).imp fun {a b} hab => ?_
    obtain ⟨c, hc⟩ := hk a
    obtain ⟨d, hd⟩ := hk b
    rw [hc, hd]
    exact hab
  · intro r u hu
    obtain ⟨c, hc⟩ := hk u
    rw [hc]
    exact h.clock r u hu
  · intro u hu
    obtain ⟨c, hc⟩ := hk u
    rw [hc]
    exact h.runq u hu
  · intro r hr u hu
    obtain ⟨c, hc⟩ := hk u
    rw [hc]
    exact h.asleep r hr u hu
  · intro u hhold hu
    obtain ⟨c, hc⟩ := hk u
    rw [hc] at hu ⊢
    exact h.awake u hhold hu
  · intro u hu
    obtain ⟨c, hc⟩ := hk u
    rw [hc] at hu ⊢
    exact h.fresh u hu

theorem QInv.exited_loose (he : (s.kthread t).ktState = .exited) :
    (s.kthread t).ktWchan = none := by
  refine h.placed.none_iff.mpr fun r hr => ?_
  by_cases hq : r = ktRunq
  · subst hq
    rw [h.runq t hr] at he
    cases he
  · obtain hs | hs := h.asleep r hq t hr
    · rw [hs] at he
      cases he
    · rw [hs] at he
      cases he

end

/-! ## 3. The calls in terms of the moves -/

section
variable {s : Sched} {q t : Nat} {l : List Nat}

theorem ktqueueEnqueue_eq (hw : (s.kthread t).ktWchan = none) (hq : (s.kthread t).ktQlink = none) :
    ktqueueEnqueue s q t = .ok (s.link q t) := by
  simp [ktqueueEnqueue, hw, hq, pure_eq_ok]

theorem ktqueueDequeue_nil (h : s.tqList q = []) : ktqueueDequeue s q = (s, none) := by
  simp [ktqueueDequeue, h]

theorem ktqueueDequeue_concat (h : s.tqList q = l ++ [t]) :
    ktqueueDequeue s q = (s.unlink q q t, some t) := by
  simp [ktqueueDequeue, h]

theorem schedMakeRunnable_eq (hw : (s.kthread t).ktWchan = none)
    (hq : (s.kthread t).ktQlink = none) : schedMakeRunnable s t = .ok (s.put ktRunq t .run) := by
  have hk : decide ((s.kthread t).ktWchan ≠ some ktRunq) = true := by
    rw [hw]
    rfl
  rw [schedMakeRunnable, kassert_of hk, ok_bind, ktqueueEnqueue_eq]
  · rfl
  · simp [setThread, hw]
  · simp [setThread, hq]

theorem runNext_eq (h : s.tqList ktRunq = l ++ [t]) : runNext s = .ok (s.dispatch t) := by
  rw [runNext, ktqueueDequeue_concat h]

/-- **Giving up the processor** never finds a null thread. -/
theorem switchAway_spec (h : QInv none s) :
    s.tqList ktRunq = [] ∧ switchAway s = .ok { s with intrWait := true } ∧
      QInv none { s with intrWait := true } ∨
    ∃ l t, s.tqList ktRunq = l ++ [t] ∧ switchAway s = .ok (s.dispatch t) ∧
      QInv none (s.dispatch t) := by
  obtain hl | ⟨l, t, hl⟩ := eq_nil_or_concat' (s.tqList ktRunq)
  · refine .inl ⟨hl, ?_, h.wait⟩
    simp [switchAway, hl]
  · refine .inr ⟨l, t, hl, ?_, h.switchTo (by rw [hl]; simp)⟩
    rw [switchAway, if_neg (by simp [hl]), runNext_eq hl]

theorem switchAway_ok (h : QInv none s) : ∃ s', switchAway s = .ok s' ∧ QInv none s' := by
  obtain ⟨-, heq, h'⟩ | ⟨l, t, -, heq, h'⟩ := switchAway_spec h
  · exact ⟨_, heq, h'⟩
  · exact ⟨_, heq, h'⟩

theorem QInv.switchAway (h : QInv none s) (hs : switchAway s = .ok s') : QInv none s' := by
  obtain ⟨s1, heq, h1⟩ := switchAway_ok h
  rw [heq] at hs
  cases hs
  exact h1

section
variable (h : QInv none s) (hw : (s.kthread s.curthr).ktWchan = none)
include h hw

/-- Going to sleep is putting the current thread on the queue and switching away. -/
theorem sleep_enqueue_eq (st : KtState) :
    ktqueueEnqueue (s.setThread s.curthr fun k => { k with ktState := st }) q s.curthr
      = .ok (s.put q s.curthr st) := by
  rw [ktqueueEnqueue_eq]
  · rfl
  · simp [setThread, hw]
  · simp [setThread, h.qlink, hw]

theorem QInv.sleepOn (hq : q ≠ ktRunq) (hst : st = .sleep ∨ st = .sleepCancellable) :
    QInv none (s.put q s.curthr st) :=
  h.put hw (fun _ hu => by cases hu) (fun he => absurd he hq) fun _ => hst

theorem schedSleepOn_eq : schedSleepOn s q = switchAway (s.put q s.curthr .sleep) := by
  rw [schedSleepOn]
  change (ktqueueEnqueue (s.setThread s.curthr fun k => { k with ktState := .sleep }) q s.curthr >>=
    switchAway) = _
  rw [sleep_enqueue_eq h hw, ok_bind]

theorem schedCancellableSleepOn_eq : schedCancellableSleepOn s q =
      if (s.kthread s.curthr).ktCancelled then .ok (s, true)
      else (switchAway (s.put q s.curthr .sleepCancellable)).map fun s' => (s', false) := by
  rw [schedCancellableSleepOn]
  split
  · rfl
  · change (ktqueueEnqueue (s.setThread s.curthr fun k => { k with ktState := .sleepCancellable }) q
      s.curthr >>= fun s' => switchAway s' >>= fun r => pure (r, false)) = _
    rw [sleep_enqueue_eq h hw, ok_bind]
    cases switchAway (s.put q s.curthr .sleepCancellable) <;> rfl

end

/-- **`sched_wakeup_on`** moves the last thread of a queue to the run queue. -/
theorem schedWakeupOn_spec (h : QInv none s) (hq : q ≠ ktRunq) :
    s.tqList q = [] ∧ schedWakeupOn s q = .ok (s, none) ∨
    ∃ l t, s.tqList q = l ++ [t] ∧
      schedWakeupOn s q = .ok ((s.unlink q q t).put ktRunq t .run, some t) ∧
      QInv none ((s.unlink q q t).put ktRunq t .run) := by
  obtain hl | ⟨l, t, hl⟩ := eq_nil_or_concat' (s.tqList q)
  · refine .inl ⟨hl, ?_⟩
    rw [schedWakeupOn, ktqueueDequeue_nil hl]
  · have ht : t ∈ s.tqList q := by
      rw [hl]
      simp
    refine .inr ⟨l, t, hl, ?_, h.requeue ht⟩
    have hstate : (decide (((s.unlink q q t).kthread t).ktState = .sleep) ||
        decide (((s.unlink q q t).kthread t).ktState = .sleepCancellable)) = true := by
      rw [unlink_ktState]
      obtain hs | hs := h.asleep q hq t ht <;> simp [hs]
    rw [schedWakeupOn, ktqueueDequeue_concat hl]
    simp only [kassert_of hstate, ok_bind]
    rw [schedMakeRunnable_eq (by simp) (by simp)]
    rfl

/-- What is left of a queue when its last thread goes to the run queue. -/
theorem QInv.requeue_tqList (h : QInv none s) (hq : q ≠ ktRunq) (hl : s.tqList q = l ++ [t]) :
    ((s.unlink q q t).put ktRunq t .run).tqList q = l := by
  have hnd : t ∉ l := by
    have := h.placed.nodup q
    rw [hl, nodup_append] at this
    exact fun hm => this.2.2 t hm t (by simp) rfl
  rw [put_tqList_ne hq, unlink_tqList_self, hl, erase_append_right _ hnd]
  simp

/-- Some threads of `q` went to the run queue, one after the other. -/
inductive Requeued (q : Nat) : Sched → Sched → Prop
  | refl (s : Sched) : Requeued q s s
  | step {s s' : Sched} {t : Nat} : t ∈ s.tqList q →
      Requeued q ((s.unlink q q t).put ktRunq t .run) s' → Requeued q s s'

theorem QInv.requeued (h : QInv none s) (hr : Requeued q s s') : QInv none s' := by
  induction hr with
  | refl => exact h
  | step ht _ ih => exact ih (h.requeue ht)

/-- **`sched_broadcast_on`** wakes up every thread of a queue, the one that came first first. -/
theorem broadcastLoop_spec (hq : q ≠ ktRunq) : ∀ (fuel : Nat) {s : Sched}, QInv none s →
    (s.tqList q).length ≤ fuel → ∃ s', broadcastLoop q fuel s = .ok s' ∧ QInv none s' ∧
      s'.tqList q = [] ∧ s'.tqList ktRunq = s.tqList q ++ s.tqList ktRunq ∧ Requeued q s s' := by
  intro fuel
  induction fuel with
  | zero =>
    intro s h hlen
    have hl : s.tqList q = [] := length_eq_zero_iff.mp (Nat.le_zero.mp hlen)
    refine ⟨s, ?_, h, hl, by rw [hl]; rfl, .refl s⟩
    rw [broadcastLoop, ktqueueDequeue_nil hl]
  | succ fuel ih =>
    intro s h hlen
    obtain hl | ⟨l, t, hl⟩ := eq_nil_or_concat' (s.tqList q)
    · refine ⟨s, ?_, h, hl, by rw [hl]; rfl, .refl s⟩
      rw [broadcastLoop, ktqueueDequeue_nil hl]
    · have ht : t ∈ s.tqList q := by
        rw [hl]
        simp
      have hlist := h.requeue_tqList hq hl
      have hrun : ((s.unlink q q t).put ktRunq t .run).tqList ktRunq = t :: s.tqList ktRunq := by
        rw [put_tqList_self, unlink_tqList_ne hq.symm]
      obtain ⟨s', heq, h', hnil, hrq, hreq⟩ := ih (h.requeue ht) (by
        rw [hlist]
        rw [hl, length_append] at hlen
        simpa using hlen)
      refine ⟨s', ?_, h', hnil, ?_, .step ht hreq⟩
      · rw [broadcastLoop, ktqueueDequeue_concat hl]
        simp only [schedMakeRunnable_eq (s := s.unlink q q t) (t := t) (by simp) (by simp), ok_bind]
        exact heq
      · rw [hrq, hlist, hrun, hl]
        simp

/-- **`sched_cancel`** sets the flag, and wakes the thread up if its sleep is cancellable. -/
theorem schedCancel_spec (h : QInv none s) (t : Nat) : (s.kthread t).ktState ≠ .sleepCancellable ∧
      schedCancel s t = .ok (s.flagged t) ∨
    ∃ q, (s.kthread t).ktState = .sleepCancellable ∧ t ∈ s.tqList q ∧ q ≠ ktRunq ∧
      schedCancel s t = .ok (((s.flagged t).unlink q q t).put ktRunq t .run) := by
  have hself : (s.flagged t).kthread t = { s.kthread t with ktCancelled := true } := by
    simp [setThread]
  by_cases hst : (s.kthread t).ktState = .sleepCancellable
  · right
    cases hw : (s.kthread t).ktWchan with
    | none => exact absurd hst (h.awake t (by simp) hw).2
    | some q =>
      have hmem := (h.placed.mem t q).mp hw
      refine ⟨q, hst, hmem, ?_, ?_⟩
      · rintro rfl
        rw [h.runq t hmem] at hst
        cases hst
      · have hrem : ktqueueRemove (s.flagged t) q t = .ok ((s.flagged t).unlink q q t) := by
          simp [ktqueueRemove, hself, h.qlink, hw, pure_eq_ok]
        simp only [schedCancel, hself, if_pos hst, hw, hrem, ok_bind]
        exact schedMakeRunnable_eq (by simp) (by simp)
  · left
    refine ⟨hst, ?_⟩
    simp only [schedCancel, hself, if_neg hst]

theorem QInv.makeRunnable_loose (h : QInv none s) (hc : SchedUse s (.makeRunnable t)) :
    (s.kthread t).ktWchan = none := by
  obtain ⟨⟨-, hcur⟩, ht⟩ := hc
  obtain hn | rfl := ht
  · exact (h.fresh t hn).1
  · exact hcur

theorem schedStep_makeRunnable (h : QInv none s) (hc : SchedUse s (.makeRunnable t)) :
    schedStep s (.makeRunnable t) = .ok (s.put ktRunq t .run) :=
  schedMakeRunnable_eq (h.makeRunnable_loose hc) ((h.qlink t).trans (h.makeRunnable_loose hc))

theorem schedStep_clone (hc : SchedUse s (.clone t)) : schedStep s (.clone t) =
    .ok (s.setThread t fun _ => ⟨.run, none, none, (s.kthread s.curthr).ktCancelled, true, 0⟩) := by
  simp only [schedStep, kthreadClone, hc.2.2, decide_true, kassert_true, ok_bind, pure_eq_ok]

theorem schedStep_exit (h : QInv none s) (hc : SchedUse s .exit) :
    schedStep s .exit = .ok (s.setThread s.curthr fun k => { k with ktState := .exited }) := by
  have hw : (s.kthread s.curthr).ktWchan = none := hc.2
  have hq := (h.qlink s.curthr).trans hw
  simp [schedStep, kthreadExit, setThread, hw, hq, pure_eq_ok]

/-- The loop around `intr_wait` ends with a thread. -/
theorem schedStep_intrDone (hc : SchedUse s .intrDone) :
    ∃ l t, s.tqList ktRunq = l ++ [t] ∧ schedStep s .intrDone
      = .ok (s.dispatch t) := by
  obtain ⟨-, hne⟩ := hc
  obtain hl | ⟨l, t, hl⟩ := eq_nil_or_concat' (s.tqList ktRunq)
  · exact absurd hl hne
  · exact ⟨l, t, hl, runNext_eq hl⟩

end

/-! ## 4. What a call does -/

def SchedCall.queue : SchedCall → Option Nat
  | .sleepOn q | .cancellableSleepOn q | .wakeupOn q | .broadcastOn q | .intrWakeupOn q
  | .intrBroadcastOn q => some q
  | _ => none

/-- The effects of the calls. -/
inductive SchedMoved (s : Sched) : SchedCall → Sched → Prop
  | stays {c : SchedCall} : SchedMoved s c s
  | sleeps {c : SchedCall} {q : Nat} {st : KtState} {s' : Sched} (queue : c.queue = some q)
      (hq : q ≠ ktRunq) (hst : st = .sleep ∨ st = .sleepCancellable)
      (loose : (s.kthread s.curthr).ktWchan = none)
      (away : switchAway (s.put q s.curthr st) = .ok s') : SchedMoved s c s'
  | wakes {c : SchedCall} {q : Nat} {s' : Sched} (queue : c.queue = some q) (hq : q ≠ ktRunq)
      (requeued : Requeued q s s') : SchedMoved s c s'
  | cancels {t : Nat} :
      SchedMoved s (.cancel t) (s.setThread t fun k => { k with ktCancelled := true })
  | cancelsSleep {t q : Nat} (hst : (s.kthread t).ktState = .sleepCancellable)
      (mem : t ∈ s.tqList q) (hq : q ≠ ktRunq) : SchedMoved s (.cancel t)
        (((s.setThread t fun k => { k with ktCancelled := true }).unlink q q t).put ktRunq t .run)
  | switches {s' : Sched} (away : switchAway s = .ok s') : SchedMoved s .switch s'
  | readies {t : Nat} (loose : (s.kthread t).ktWchan = none) :
      SchedMoved s (.makeRunnable t) (s.put ktRunq t .run)
  | makes {c : SchedCall} {t : Nat} {st : KtState} {cancelled : Bool} (running : s.running)
      (unused : s.unused t) (hst : st = .noState ∨ st = .run) :
      SchedMoved s c (s.setThread t fun _ => ⟨st, none, none, cancelled, true, 0⟩)
  | exits (running : s.running) :
      SchedMoved s .exit (s.setThread s.curthr fun k => { k with ktState := .exited })
  | runs {l : List Nat} {t : Nat} (hl : s.tqList ktRunq = l ++ [t]) :
      SchedMoved s .intrDone { s.unlink ktRunq ktRunq t with curthr := t, intrWait := false }

theorem QInv.boot (idle : Nat) : QInv none (bootSched idle) where
  qlink _ := rfl
  placed := ⟨fun t q => by simp [bootSched], fun q => by simp [bootSched]⟩
  size _ := rfl
  order q := by simp [bootSched]
  clock q t ht := by simp [bootSched] at ht
  runq t ht := by simp [bootSched] at ht
  asleep q _ t ht := by simp [bootSched] at ht
  awake t _ _ := by simp [bootSched]
  fresh t ht := ⟨rfl, bne_iff_ne.mp ht⟩

section
variable (h : QInv none s)
include h

/-- **Every call its contract allows returns**, with one of these effects. -/
theorem schedStep_moved (hc : SchedUse s c) : ∃ s', schedStep s c = .ok s' ∧ SchedMoved s c s' := by
  cases c with
  | sleepOn q =>
    obtain ⟨⟨-, hw⟩, hq⟩ := hc
    obtain ⟨s', heq, -⟩ := switchAway_ok (h.sleepOn hw hq (.inl rfl))
    exact ⟨s', (schedSleepOn_eq h hw).trans heq, .sleeps rfl hq (.inl rfl) hw heq⟩
  | cancellableSleepOn q =>
    obtain ⟨⟨-, hw⟩, hq⟩ := hc
    obtain ⟨s', heq, -⟩ := switchAway_ok (h.sleepOn hw hq (.inr rfl))
    rw [schedStep, schedCancellableSleepOn_eq h hw]
    split
    · exact ⟨s, rfl, .stays⟩
    · rw [heq]
      exact ⟨s', rfl, .sleeps rfl hq (.inr rfl) hw heq⟩
  | wakeupOn q | intrWakeupOn q =>
    rw [schedStep]
    obtain ⟨-, heq⟩ | ⟨l, t, hl, heq, -⟩ := schedWakeupOn_spec h hc.2
    · rw [heq]
      exact ⟨s, rfl, .stays⟩
    · rw [heq]
      exact ⟨_, rfl, .wakes rfl hc.2 (.step (by rw [hl]; simp) (.refl _))⟩
  | broadcastOn q | intrBroadcastOn q =>
    obtain ⟨s', heq, -, -, -, hreq⟩ := broadcastLoop_spec hc.2 _ h le_rfl
    exact ⟨s', heq, .wakes rfl hc.2 hreq⟩
  | cancel t =>
    obtain ⟨-, heq⟩ | ⟨q, hst, hmem, hq, heq⟩ := schedCancel_spec h t
    · exact ⟨_, heq, .cancels⟩
    · exact ⟨_, heq, .cancelsSleep hst hmem hq⟩
  | switch =>
    obtain ⟨s', heq, -⟩ := switchAway_ok h
    exact ⟨s', heq, .switches heq⟩
  | makeRunnable t => exact ⟨_, schedStep_makeRunnable h hc, .readies (h.makeRunnable_loose hc)⟩
  | create t => exact ⟨_, rfl, .makes hc.1 hc.2 (.inl rfl)⟩
  | clone t => exact ⟨_, schedStep_clone hc, .makes hc.1 hc.2.1 (.inr rfl)⟩
  | exit => exact ⟨_, schedStep_exit h hc, .exits hc⟩
  | intrDone =>
    obtain ⟨l, t, hl, heq⟩ := schedStep_intrDone hc
    exact ⟨_, heq, .runs hl⟩

theorem schedStep_inv (hc : SchedUse s c) (hs : schedStep s c = .ok s') : SchedMoved s c s' := by
  obtain ⟨s1, heq, hm⟩ := schedStep_moved h hc
  rw [heq] at hs
  cases hs
  exact hm

/-! ## 5. Every call keeps the invariant -/

theorem QInv.unused_loose (hu : s.unused t) : (s.kthread t).ktWchan = none := by
  obtain hn | he := hu.2
  · exact (h.fresh t hn).1
  · exact h.exited_loose he

theorem QInv.newThread (hu : s.unused t) (hst : st = .noState ∨ st = .run) (c : Bool) :
    QInv none (s.setThread t fun _ => ⟨st, none, none, c, true, 0⟩) := by
  refine h.setLoose (h.unused_loose hu) rfl rfl ?_ fun _ => hu.1
  obtain rfl | rfl := hst <;> simp

theorem QInv.moved (hm : SchedMoved s c s') : QInv none s' := by
  cases hm with
  | stays => exact h
  | sleeps queue hq hst loose away => exact (h.sleepOn loose hq hst).switchAway away
  | wakes queue hq requeued => exact h.requeued requeued
  | cancels => exact h.setCancelled _
  | cancelsSleep hst mem hq => exact (h.setCancelled _).requeue mem
  | switches away => exact h.switchAway away
  | readies loose =>
    exact h.put loose (fun u hu => by cases hu) (fun _ => rfl) fun hn => absurd rfl hn
  | makes running unused hst => exact h.newThread unused hst _
  | exits running =>
    have hq := (h.qlink s.curthr).trans running.2
    exact h.setLoose running.2 running.2 hq (by simp) fun hn => (h.fresh _ hn).2
  | runs hl => exact h.switchTo (by rw [hl]; simp)

/-- **Every legal call returns and keeps the invariant.** -/
theorem schedStep_spec (hc : SchedUse s c) : ∃ s', schedStep s c = .ok s' ∧ QInv none s' := by
  obtain ⟨s', heq, hm⟩ := schedStep_moved h hc
  exact ⟨s', heq, h.moved hm⟩

theorem QInv.dequeue_first {q : Nat} (hd : ktqueueDequeue s q = (s', some t)) :
    ∀ u ∈ s.tqList q, u ≠ t → (s.kthread t).ktArrived < (s.kthread u).ktArrived := by
  obtain hl | ⟨l, t', hl⟩ := eq_nil_or_concat' (s.tqList q)
  · rw [ktqueueDequeue_nil hl] at hd
    cases hd
  · rw [ktqueueDequeue_concat hl] at hd
    obtain ⟨-, ht⟩ := Prod.mk.inj hd
    cases ht
    intro u hu hut
    have hord := h.order q
    rw [hl] at hu hord
    have hul : u ∈ l := by simpa [hut] using hu
    exact (pairwise_append.mp hord).2.2 u hul t (by simp)

end

/-! ## 6. What a call leaves alone -/

/-- The thread is between its first run and its exit. -/
def Sched.alive (s : Sched) (t : Nat) : Prop :=
  (s.kthread t).ktNew = false ∧ (s.kthread t).ktState ≠ .exited

/-- The queue `w` and its threads are as they were, and no thread has gone. -/
structure Frame (w : Nat) (s s' : Sched) : Prop where
  tqList : s'.tqList w = s.tqList w
  state : ∀ t ∈ s.tqList w, (s'.kthread t).ktState = (s.kthread t).ktState
  arrived : ∀ t ∈ s.tqList w, (s'.kthread t).ktArrived = (s.kthread t).ktArrived
  alive : ∀ t, s.alive t → s'.alive t

section
variable {s s' s'' : Sched} {w q t : Nat} {st : KtState}

theorem Frame.refl (w : Nat) (s : Sched) : Frame w s s :=
  ⟨rfl, fun _ _ => rfl, fun _ _ => rfl, fun _ h => h⟩

theorem Frame.trans (h : Frame w s s') (h' : Frame w s' s'') : Frame w s s'' := by
  refine ⟨h'.tqList.trans h.tqList, fun t ht => ?_, fun t ht => ?_,
    fun t ht => h'.alive t (h.alive t ht)⟩
  · exact (h'.state t (h.tqList ▸ ht)).trans (h.state t ht)
  · exact (h'.arrived t (h.tqList ▸ ht)).trans (h.arrived t ht)

theorem frame_put (hq : w ≠ q) (ht : t ∉ s.tqList w) (hst : st ≠ .exited) :
    Frame w s (s.put q t st) := by
  have hne : ∀ u ∈ s.tqList w, u ≠ t := fun u hu he => ht (he ▸ hu)
  refine ⟨put_tqList_ne hq, fun u hu => ?_, fun u hu => ?_, fun u hu => ?_⟩
  · rw [put_kthread_ne (hne u hu)]
  · rw [put_kthread_ne (hne u hu)]
  · by_cases hut : u = t
    · subst hut
      simp [alive, hst]
    · rw [alive, put_kthread_ne hut]
      exact hu

theorem frame_unlink (hq : w ≠ q) : Frame w s (s.unlink q q t) := by
  refine ⟨unlink_tqList_ne hq, fun _ _ => unlink_ktState, fun _ _ => unlink_ktArrived,
    fun u hu => ?_⟩
  rw [alive, unlink_ktNew, unlink_ktState]
  exact hu

theorem frame_requeue (hq : w ≠ q) (hw : w ≠ ktRunq) (ht : t ∉ s.tqList w) :
    Frame w s ((s.unlink q q t).put ktRunq t .run) := by
  refine (frame_unlink hq).trans (frame_put hw ?_ (by simp))
  rw [unlink_tqList_ne hq]
  exact ht

theorem frame_requeued (hq : w ≠ q) (hw : w ≠ ktRunq) (h : QInv none s) (hr : Requeued q s s') :
    Frame w s s' := by
  induction hr with
  | refl s => exact .refl w s
  | step ht _ ih =>
    exact (frame_requeue hq hw fun hm => hq (h.placed.unique hm ht)).trans (ih (h.requeue ht))

theorem frame_setCancelled (w : Nat) (s : Sched) (t : Nat) : Frame w s (s.flagged t) := by
  refine ⟨rfl, fun u _ => ?_, fun u _ => ?_, fun u hu => ?_⟩
  · obtain ⟨c, hc⟩ := setCancelled_eq s t u
    rw [hc]
  · obtain ⟨c, hc⟩ := setCancelled_eq s t u
    rw [hc]
  · obtain ⟨c, hc⟩ := setCancelled_eq s t u
    rw [alive, hc]
    exact hu

theorem frame_setThread (ht : t ∉ s.tqList w) (hdead : ¬ s.alive t) :
    Frame w s (s.setThread t f) := by
  have hne : ∀ u, u ≠ t → (s.setThread t f).kthread u = s.kthread u := by
    intro u hu
    simp [setThread, hu]
  refine ⟨rfl, fun u hu => ?_, fun u hu => ?_, fun u hu => ?_⟩
  · rw [hne u fun he => ht (he ▸ hu)]
  · rw [hne u fun he => ht (he ▸ hu)]
  · rw [alive, hne u fun he => hdead (he ▸ hu)]
    exact hu

theorem frame_newThread (h : QInv none s) (hu : s.unused t) : Frame w s (s.setThread t f) := by
  refine frame_setThread (h.placed.none_iff.mp (h.unused_loose hu) w) ?_
  rintro ⟨hnew, hex⟩
  obtain hn | he := hu.2
  · rw [hn] at hnew
    cases hnew
  · exact hex he

theorem frame_runNext {l : List Nat} (hw : w ≠ ktRunq) (hl : s.tqList ktRunq = l ++ [t])
    (hs : runNext s = .ok s') : Frame w s s' := by
  rw [runNext_eq hl] at hs
  cases hs
  have h := @frame_unlink s w ktRunq t hw
  exact { h with }

theorem frame_switchAway (hw : w ≠ ktRunq) (hs : switchAway s = .ok s') : Frame w s s' := by
  obtain hl | ⟨l, t, hl⟩ := eq_nil_or_concat' (s.tqList ktRunq)
  · rw [switchAway, if_pos (by simp [hl])] at hs
    cases hs
    exact ⟨rfl, fun _ _ => rfl, fun _ _ => rfl, fun _ h => h⟩
  · rw [switchAway, if_neg (by simp [hl])] at hs
    exact frame_runNext hw hl hs

theorem frame_sleep (h : QInv none s) (hc : (s.kthread s.curthr).ktWchan = none) (hw : w ≠ ktRunq)
    (hq : w ≠ q) (hst : st ≠ .exited) (hs : switchAway (s.put q s.curthr st) = .ok s') :
    Frame w s s' :=
  (frame_put hq (h.placed.none_iff.mp hc w) hst).trans (frame_switchAway hw hs)

/-- **A call that is not about `w`**, and does not cancel a sleep on it, leaves `w` alone.  Only
the thread that exits goes. -/
theorem schedStep_frame (h : QInv none s) (hc : SchedUse s c) (hw : w ≠ ktRunq)
    (hq : c.queue ≠ some w) (hx : c ≠ .exit)
    (hcancel : ∀ t, c = .cancel t → t ∈ s.tqList w → (s.kthread t).ktState ≠ .sleepCancellable)
    (hs : schedStep s c = .ok s') : Frame w s s' := by
  have hne : ∀ {q}, c.queue = some q → w ≠ q := fun hcq he => hq (he ▸ hcq)
  cases schedStep_inv h hc hs with
  | stays => exact .refl w s
  | sleeps queue _ hst loose away =>
    refine frame_sleep h loose hw (hne queue) ?_ away
    obtain rfl | rfl := hst <;> simp
  | wakes queue _ requeued => exact frame_requeued (hne queue) hw h requeued
  | cancels => exact frame_setCancelled w s _
  | @cancelsSleep t q hst mem _ =>
    have hno : t ∉ s.tqList w := fun hm => hcancel t rfl hm hst
    have hwq : w ≠ q := by
      rintro rfl
      exact hno mem
    exact (frame_setCancelled w s t).trans (frame_requeue hwq hw hno)
  | switches away => exact frame_switchAway hw away
  | readies loose => exact frame_put hw (h.placed.none_iff.mp loose w) (by simp)
  | makes _ unused _ => exact frame_newThread h unused
  | exits _ => exact absurd rfl hx
  | runs hl => exact frame_runNext hw hl (runNext_eq hl)

end

/-! ## 7. Threads on the run queue get to run -/

/-- What is on the run queue is still there, or runs. -/
def RunqKept (s s' : Sched) : Prop :=
  ∀ t ∈ s.tqList ktRunq, t ∈ s'.tqList ktRunq ∨ t = s'.curthr ∧ s'.running

section
variable {s s' : Sched} {q t : Nat} {st : KtState}

theorem runq_put : s.tqList ktRunq ⊆ (s.put q t st).tqList ktRunq := by
  intro u hu
  by_cases hq : ktRunq = q
  · subst hq
    rw [put_tqList_self]
    exact mem_cons_of_mem t hu
  · rwa [put_tqList_ne hq]

theorem runq_requeue (hq : q ≠ ktRunq) :
    s.tqList ktRunq ⊆ ((s.unlink q q t).put ktRunq t .run).tqList ktRunq := by
  intro u hu
  refine runq_put ?_
  rwa [unlink_tqList_ne hq.symm]

theorem runq_switchTo : RunqKept s (s.dispatch t) := by
  intro u hu
  by_cases hut : u = t
  · refine .inr ⟨hut, rfl, ?_⟩
    change ((s.unlink ktRunq ktRunq t).kthread t).ktWchan = none
    rw [unlink_kthread_self]
  · refine .inl ?_
    change u ∈ (s.unlink ktRunq ktRunq t).tqList ktRunq
    rw [unlink_tqList_self]
    exact (mem_erase_of_ne hut).mpr hu

theorem runq_switchAway (hs : switchAway s = .ok s') : RunqKept s s' := by
  obtain hl | ⟨l, t, hl⟩ := eq_nil_or_concat' (s.tqList ktRunq)
  · intro u hu
    rw [hl] at hu
    cases hu
  · rw [switchAway, if_neg (by simp [hl]), runNext_eq hl] at hs
    cases hs
    exact runq_switchTo

theorem runq_sleep (hs : switchAway (s.put q s.curthr st) = .ok s') : RunqKept s s' :=
  fun u hu => runq_switchAway hs u (runq_put hu)

theorem runq_requeued (hq : q ≠ ktRunq) (hr : Requeued q s s') :
    s.tqList ktRunq ⊆ s'.tqList ktRunq := by
  induction hr with
  | refl => exact List.Subset.refl _
  | step _ _ ih => exact fun u hu => ih (runq_requeue hq hu)

/-- **No call takes a thread off the run queue** except to run it. -/
theorem schedStep_runq (h : QInv none s) (hc : SchedUse s c) (hs : schedStep s c = .ok s') :
    RunqKept s s' := by
  cases schedStep_inv h hc hs with
  | sleeps _ _ _ _ away => exact runq_sleep away
  | wakes _ hq requeued => exact fun u hu => .inl (runq_requeued hq requeued hu)
  | cancelsSleep _ _ hq => exact fun u hu => .inl (runq_requeue hq hu)
  | switches away => exact runq_switchAway away
  | readies _ => exact fun u hu => .inl (runq_put hu)
  | runs _ => exact runq_switchTo
  | stays | cancels | makes | exits => exact fun _ => .inl

end

end Weenix.Proc
