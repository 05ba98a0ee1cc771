/-
# The threads that wait for a vnode

A `vget` that finds a vnode busy sleeps on its `vn_waitq` and starts again when it is woken.  The
end of `vput` wakes all sleepers, after which the vnode is gone.  The end of `vget` clears `VN_BUSY`
and does not: a thread that came while the vnode was loaded stays asleep, on a vnode that is not
busy (`waiter_forgotten`).

That is the only way.  A sleeping thread is on the queue of a vnode in use (`QueueOk`); most steps
leave the queues and the busy flags alone (`Keeps`), and of the others only the end of loading
clears a flag (`vnodeStep_waiters`).
-/
import Weenix.Lib.Yields
import Weenix.Fs.VnodeInv

namespace Weenix.VnodeTable

open List

/-! ## 1. Sleeping threads -/

/-- Threads sleep on vnodes that are in use and busy. -/
def WaitersOk (s : VnodeSys) : Prop :=
  ∀ t vn id, s.thread t = .waiting vn id → vn ∈ s.vnodeInuseList ∧ (s.vnode vn).busy = true

/-- No thread waits for the vnode whose loading ends. -/
def NoWaiters (s : VnodeSys) : VnodeCall → Prop
  | .loaded _ vn => s.vnWaitq vn = []
  | _ => True

instance (s : VnodeSys) (c : VnodeCall) : Decidable (NoWaiters s c) := by
  obtain _ | _ := c <;> unfold NoWaiters <;> infer_instance

/-- The queues hold the threads that sleep, and are queues of vnodes in use. -/
structure QueueOk (s : VnodeSys) : Prop where
  inuse : ∀ t vn id, s.thread t = .waiting vn id → vn ∈ s.vnodeInuseList
  mem : ∀ t vn, t ∈ s.vnWaitq vn ↔ ∃ id, s.thread t = .waiting vn id

/-- What a step does that neither puts a thread to sleep nor ends one's sleep, nor clears a
busy flag. -/
structure Keeps (s u : VnodeSys) : Prop where
  waitq : u.vnWaitq = s.vnWaitq
  inuse : u.vnodeInuseList = s.vnodeInuseList
  thread : ∀ t vn id, u.thread t = .waiting vn id ↔ s.thread t = .waiting vn id
  busy : ∀ vn, (s.vnode vn).busy = true → (u.vnode vn).busy = true

/-! ## 2. Steps that leave the sleeping threads alone -/

section
variable {s u : VnodeSys} {t vn : Nat}

theorem Keeps.queueOk (h : Keeps s u) (hq : QueueOk s) : QueueOk u where
  inuse t vn id ht := by
    rw [h.inuse]
    exact hq.inuse t vn id ((h.thread t vn id).mp ht)
  mem t vn := by
    rw [h.waitq, hq.mem]
    exact exists_congr fun id => (h.thread t vn id).symm

theorem Keeps.waitersOk (h : Keeps s u) (hw : WaitersOk s) : WaitersOk u := fun t vn id ht => by
  obtain ⟨hin, hbusy⟩ := hw t vn id ((h.thread t vn id).mp ht)
  rw [h.inuse]
  exact ⟨hin, h.busy vn hbusy⟩

/-- One vnode changes, and does not become less busy. -/
theorem update_busy {v : Vnode} (hv : (s.vnode vn).busy = true → v.busy = true) (b : Nat)
    (hb : (s.vnode b).busy = true) : (update s.vnode vn v b).busy = true := by
  obtain rfl | hne := eq_or_ne b vn
  · rw [update_self]
    exact hv hb
  · rw [update_of_ne hne]
    exact hb

theorem vref_keeps (s : VnodeSys) (vn : Nat) : Yields (vref s vn) (Keeps s) :=
  .seq fun _ => .pure ⟨rfl, rfl, fun _ _ _ => Iff.rfl, update_busy fun h => h⟩

section
variable (hold : ∀ vn id, s.thread t ≠ .waiting vn id)
include hold

/-- A thread that does not sleep goes to a place where it does not. -/
theorem update_waiting (th : Thread) (hnew : ∀ vn id, th ≠ .waiting vn id) (t' vn : Nat)
    (id : Ident) :
    update s.thread t th t' = .waiting vn id ↔ s.thread t' = .waiting vn id := by
  obtain rfl | hne := eq_or_ne t' t
  · rw [update_self]
    exact ⟨fun h => absurd h (hnew vn id), fun h => absurd h (hold vn id)⟩
  · rw [update_of_ne hne]

theorem vputDrop_keeps : Yields (vputDrop s t vn) (Keeps s) := by
  unfold vputDrop
  dsimp only [VnodeSys.setVnode]
  simp only [update_self, update_idem]
  refine .ite (fun _ => .pure ?_) fun _ => .seq fun _ => .seq fun _ => .pure ?_
  · exact ⟨rfl, rfl, update_waiting hold .idle nofun, update_busy fun h => h⟩
  · exact ⟨rfl, rfl, update_waiting hold (.deleting vn) nofun, update_busy fun _ => rfl⟩

theorem vput_keeps (query : Bool) : Yields (vput s t vn query) (Keeps s) := by
  refine .seq fun _ => .ite (fun _ => .pure ?_) fun _ => vputDrop_keeps hold
  exact ⟨rfl, rfl, update_waiting hold (.uncaching vn) nofun, fun _ hb => hb⟩

end

theorem vputUncache_keeps (s : VnodeSys) (vn : Nat) : Yields (vputUncache s vn) (Keeps s) := by
  unfold vputUncache
  dsimp only [VnodeSys.setVnode]
  simp only [update_self, update_idem]
  refine .seq fun _ => .ite (fun _ => .seq fun _ => ?_) fun _ => ?_
  all_goals
    refine .ite (fun _ => .pure ?_) fun _ => .error _
    exact ⟨rfl, rfl, fun _ _ _ => Iff.rfl, update_busy fun h => h⟩

theorem vnodeStep_keeps {c : VnodeCall} (hl : vnodeLegal s c)
    (hc : (∀ t id slab, c ≠ .find t id slab) ∧ (∀ t vn, c ≠ .loaded t vn) ∧ ∀ t vn,
      c ≠ .deleted t vn) :
    Yields (vnodeStep s c) (Keeps s) := by
  cases c with
  | find t id slab => exact absurd rfl (hc.1 t id slab)
  | loaded t vn => exact absurd rfl (hc.2.1 t vn)
  | deleted t vn => exact absurd rfl (hc.2.2 t vn)
  | vget t id =>
    have hold : ∀ vn id, s.thread t ≠ .waiting vn id :=
      fun vn id => by rw [show s.thread t = .idle from hl]; nofun
    exact .ok ⟨rfl, rfl, update_waiting hold (.finding id) nofun, fun _ hb => hb⟩
  | vput t vn query =>
    have hold : ∀ vn id, s.thread t ≠ .waiting vn id := fun vn id => by rw [hl.1]; nofun
    have hput : Yields (vput { s with refs := (some t, vn) :: s.refs.erase (none, vn) } t vn query)
      _ :=
      vput_keeps (by exact hold) query
    exact hput.imp fun u hu => { hu with }
  | freePage t vn query =>
    have hold : ∀ vn id, s.thread t ≠ .waiting vn id := fun vn id => by rw [hl.1]; nofun
    have hput : Yields (vnodeStep s (.freePage t vn query)) (Keeps { s.setVnode vn
        { s.vnode vn with vnNrespages := (s.vnode vn).vnNrespages - 1 } with refs :=
          (some t, vn) :: s.refs }) :=
      vput_keeps (by exact hold) query
    refine hput.imp fun u hu => { hu with busy b hb := hu.busy b ?_ }
    exact update_busy (by exact fun h => h) b hb
  | uncache t vn => exact vputUncache_keeps s vn
  | uncached t vn =>
    have hold : ∀ vn id, s.thread t ≠ .waiting vn id := fun _ _ => by
      rw [show s.thread t = .uncaching vn from hl]; nofun
    exact .seq fun _ => .seq fun _ => vputDrop_keeps hold
  | vref vn => exact (vref_keeps s vn).bind fun u hu => .pure { hu with }
  | addPage vn =>
    refine (vref_keeps s vn).bind fun u hu => .pure { hu with busy b hb := ?_ }
    exact update_busy (by exact fun h => h) b (hu.busy b hb)

end

/-! ## 3. The other steps, and runs -/

section
variable {s u : VnodeSys} {t vn : Nat}

theorem queueOk_init : QueueOk vnodeInit := by
  refine ⟨fun t vn id h => ?_, fun t vn => ⟨fun h => ?_, ?_⟩⟩
  · cases h
  · cases h
  · rintro ⟨id, h⟩
    cases h

theorem QueueOk.sleep (hq : QueueOk s) (hin : vn ∈ s.vnodeInuseList)
    (hold : ∀ vn id, s.thread t ≠ .waiting vn id)
    (id : Ident) :
    QueueOk { s.setThread t (.waiting vn id) with
      vnWaitq := update s.vnWaitq vn (s.vnWaitq vn ++ [t]), ret := none } := by
  refine ⟨fun t' b id' ht => ?_, fun t' b => ?_⟩
  · obtain ⟨-, ht⟩ | ⟨-, ht⟩ := of_update ht
    · cases ht
      exact hin
    · exact hq.inuse t' b id' ht
  · have hmem := hq.mem t' b
    dsimp only [VnodeSys.setThread]
    obtain rfl | hne := eq_or_ne t' t
    · simp only [hold, exists_false, iff_false] at hmem
      obtain rfl | hb := eq_or_ne b vn
      · simp
      · simp [hb, hb.symm, hmem]
    · obtain rfl | hb := eq_or_ne b vn
      · simp [hne, hmem]
      · simp [hne, hb, hmem]

theorem vgetFind_waiters
    (hq : QueueOk s) {id : Ident} {slab : Option Nat} (hl : vnodeLegal s (.find t id slab)) :
    Yields (vgetFind s t id slab) fun u => QueueOk u ∧ (WaitersOk s → WaitersOk u) := by
  obtain ⟨hth, hslab⟩ := hl
  have hold : ∀ vn id, s.thread t ≠ .waiting vn id := fun vn id => by rw [hth]; nofun
  unfold vgetFind
  split
  · rename_i vn hfind
    have hin := mem_of_find?_eq_some hfind
    refine .ite (fun hbusy => .ok ⟨hq.sleep hin hold id, fun hw t' b id' ht => ?_⟩) fun _ => ?_
    · obtain ⟨-, ht⟩ | ⟨-, ht⟩ := of_update ht
      · cases ht
        exact ⟨hin, hbusy⟩
      · exact hw t' b id' ht
    · refine (vref_keeps s vn).bind fun u hu => .pure ?_
      have hk : Keeps s { u.setThread t .idle with refs := (none, vn) :: u.refs, ret := some (id,
          vn) } := by
        refine { hu with thread t' b id' := ?_ }
        rw [← hu.thread]
        exact update_waiting (fun b id => by rw [ne_eq, hu.thread]; exact hold b id) .idle
          nofun t' b id'
      exact ⟨hk.queueOk hq, hk.waitersOk⟩
  · split
    · exact .ok ⟨{ hq with }, fun hw => hw⟩
    · rename_i vn
      have hnew := hslab vn rfl
      have hth' := fun t' b id' => update_waiting hold (.reading vn) nofun t' b id'
      -- no thread sleeps on the queue that is initialised
      have hempty : s.vnWaitq vn = [] := eq_nil_iff_forall_not_mem.mpr fun t' ht => by
        obtain ⟨id', ht⟩ := (hq.mem t' vn).mp ht
        exact hnew (hq.inuse t' vn id' ht)
      have hwaitq : update s.vnWaitq vn [] = s.vnWaitq := by rw [← hempty, update_eq_self]
      refine .ok ⟨⟨fun t' b id' ht => ?_, fun t' b => ?_⟩, fun hw t' b id' ht => ?_⟩
      · exact mem_cons_of_mem vn (hq.inuse t' b id' ((hth' t' b id').mp ht))
      · show t' ∈ update s.vnWaitq vn [] b ↔ _
        rw [hwaitq, hq.mem]
        exact exists_congr fun id' => (hth' t' b id').symm
      · obtain ⟨hin, hbusy⟩ := hw t' b id' ((hth' t' b id').mp ht)
        refine ⟨mem_cons_of_mem vn hin, ?_⟩
        show (update s.vnode vn _ b).busy = true
        rw [update_of_ne (by rintro rfl; exact hnew hin)]
        exact hbusy

theorem vgetLoaded_waiters (hq : QueueOk s) (hth : s.thread t = .reading vn) :
    QueueOk (vgetLoaded s t vn) ∧
      (WaitersOk s → (WaitersOk (vgetLoaded s t vn) ↔ s.vnWaitq vn = [])) := by
  have hold : ∀ vn id, s.thread t ≠ .waiting vn id := fun b id => by rw [hth]; nofun
  have hth' := fun t' b id' => update_waiting hold .idle nofun t' b id'
  refine ⟨⟨fun t' b id' ht => hq.inuse t' b id' ((hth' t' b id').mp ht), fun t' b => ?_⟩,
    fun hw => ⟨fun hw' => ?_, ?_⟩⟩
  · rw [show (vgetLoaded s t vn).vnWaitq = s.vnWaitq from rfl, hq.mem]
    exact exists_congr fun id' => (hth' t' b id').symm
  · -- a thread that sleeps on `vn` now sleeps on a vnode that is not busy
    refine eq_nil_iff_forall_not_mem.mpr fun t' ht => ?_
    obtain ⟨id', ht⟩ := (hq.mem t' vn).mp ht
    have hbusy := (hw' t' vn id' ((hth' t' vn id').mpr ht)).2
    simp [vgetLoaded, VnodeSys.setVnode, VnodeSys.setThread] at hbusy
  · intro hempty t' b id' ht
    have ht' := (hth' t' b id').mp ht
    obtain ⟨hin, hbusy⟩ := hw t' b id' ht'
    have hne : b ≠ vn := by
      rintro rfl
      have hmem := (hq.mem t' b).mpr ⟨id', ht'⟩
      rw [hempty] at hmem
      cases hmem
    refine ⟨hin, ?_⟩
    show (update s.vnode vn _ b).busy = true
    rw [update_of_ne hne]
    exact hbusy

theorem wake_ne_waiting (th : Thread) (vn : Nat) (id : Ident) : wake th ≠ .waiting vn id := by
  cases th <;> nofun

theorem vputDeleted_waiters (h : VnodeInv s) (hq : QueueOk s) (hth : s.thread t = .deleting vn) :
    QueueOk (vputDeleted s t vn) ∧ (WaitersOk s → WaitersOk (vputDeleted s t vn)) := by
  -- the threads that slept on `vn` do not sleep now, the others where they did
  have hth' : ∀ t' b id', (vputDeleted s t vn).thread t' = .waiting b id' ↔
      b ≠ vn ∧ s.thread t' = .waiting b id' := by
    intro t' b id'
    dsimp only [vputDeleted, VnodeSys.setThread]
    obtain rfl | hne := eq_or_ne t' t
    · simp [hth]
    · rw [update_of_ne hne]
      split
      · rename_i hmem
        obtain ⟨id, ht⟩ := (hq.mem t' vn).mp hmem
        simp only [wake_ne_waiting, false_iff, not_and, ht]
        rintro hb ⟨⟩
        exact hb rfl
      · rename_i hmem
        refine ⟨fun ht => ⟨?_, ht⟩, fun ht => ht.2⟩
        rintro rfl
        exact hmem ((hq.mem t' b).mpr ⟨id', ht⟩)
  have hin' : ∀ b ∈ s.vnodeInuseList, b ≠ vn → b ∈ (vputDeleted s t vn).vnodeInuseList :=
    fun b hb hne =>
    h.nodup.mem_erase_iff.mpr ⟨hne, hb⟩
  refine ⟨⟨fun t' b id' ht => ?_, fun t' b => ?_⟩, fun hw t' b id' ht => ?_⟩
  · obtain ⟨hne, ht⟩ := (hth' t' b id').mp ht
    exact hin' b (hq.inuse t' b id' ht) hne
  · simp only [hth']
    show t' ∈ update s.vnWaitq vn [] b ↔ _
    obtain rfl | hne := eq_or_ne b vn
    · simp
    · simp [hne, hq.mem]
  · obtain ⟨hne, ht⟩ := (hth' t' b id').mp ht
    obtain ⟨hin, hbusy⟩ := hw t' b id' ht
    exact ⟨hin' b hin hne, hbusy⟩

/-- Of all steps only the end of loading can leave a thread asleep on a vnode that is not busy. -/
theorem vnodeStep_waiters (h : VnodeInv s) (hq : QueueOk s) {c : VnodeCall} (hl : vnodeLegal s c)
    (hs : vnodeStep s c = .ok u) : QueueOk u ∧ (WaitersOk s → (WaitersOk u ↔ NoWaiters s c)) := by
  have htriv : NoWaiters s c = True → (WaitersOk s → WaitersOk u) → WaitersOk s →
    (WaitersOk u ↔ NoWaiters s c) :=
    fun hc hu hw => by rw [hc]; exact iff_true_intro (hu hw)
  cases c with
  | find t id slab =>
    obtain ⟨hq', hw⟩ := vgetFind_waiters hq hl u hs
    exact ⟨hq', htriv rfl hw⟩
  | loaded t vn =>
    cases hs
    exact vgetLoaded_waiters hq hl
  | deleted t vn =>
    cases hs
    obtain ⟨hq', hw⟩ := vputDeleted_waiters h hq hl
    exact ⟨hq', htriv rfl hw⟩
  | _ =>
    have hk := vnodeStep_keeps hl ⟨nofun, nofun, nofun⟩ u hs
    exact ⟨hk.queueOk hq, htriv rfl hk.waitersOk⟩

/-- As long as no loading ends with a thread waiting for it, threads only sleep on vnodes that are
in use and busy; and a step after which that is so is one at which no loading ended so. -/
theorem waiters_on_busy_vnodes (s : VnodeSys)
    (hrun : Lts.Run (fun s c => vnodeLegal s c ∧ NoWaiters s c) vnodeStep vnodeInit s) :
    WaitersOk s ∧ ∀ c u, vnodeLegal s c → vnodeStep s c = .ok u →
      (WaitersOk u ↔ NoWaiters s c) := by
  have hinv : VnodeInv s ∧ QueueOk s ∧ WaitersOk s := by
    have h0 : WaitersOk vnodeInit := fun t vn id ht => by cases ht
    refine hrun.invariant (I := fun s => VnodeInv s ∧ QueueOk s ∧ WaitersOk s) ⟨vnodeInv_init,
      queueOk_init, h0⟩ ?_
    rintro s c u ⟨hi, hq, hw⟩ ⟨hl, hc⟩ hs
    obtain ⟨u', hu', hi'⟩ := vnodeStep_spec hi hl (vnodeStep_asserts hs)
    cases hs.symm.trans hu'
    obtain ⟨hq', hw'⟩ := vnodeStep_waiters hi hq hl hs
    exact ⟨hi', hq', (hw' hw).mpr hc⟩
  obtain ⟨hi, hq, hw⟩ := hinv
  exact ⟨hw, fun c u hl hs => (vnodeStep_waiters hi hq hl hs).2 hw⟩

/-- A thread waits for a vnode that is torn down. -/
def tornDownCalls : List VnodeCall :=
  [.vget 1 (0, 5), .find 1 (0, 5) (some 100), .loaded 1 100, .vput 1 100 true, .vget 2 (0, 5),
    .find 2 (0, 5) none]

theorem waiters_on_busy_vnodes_torn_down :
    ∃ s, Lts.Run (fun s c => vnodeLegal s c ∧ NoWaiters s c) vnodeStep vnodeInit s ∧
      s.thread 2 = .waiting 100 (0, 5) ∧ WaitersOk s := by
  obtain ⟨s, hrun, hs⟩ :
    ∃ s, Lts.Run (fun s c => vnodeLegal s c ∧ NoWaiters s c) vnodeStep vnodeInit s ∧
      s.thread 2 = .waiting 100 (0, 5) := Lts.exists_run tornDownCalls (by decide +kernel)
  exact ⟨s, hrun, hs, (waiters_on_busy_vnodes s hrun).1⟩

/-- Thread 2 waits for a vnode that thread 1 loads, and still does when thread 1 has returned it. -/
def forgottenCalls : List VnodeCall :=
  [.vget 1 (0, 5), .find 1 (0, 5) (some 100), .vget 2 (0, 5), .find 2 (0, 5) none, .loaded 1 100]

theorem waiter_forgotten : ∃ s, Lts.Run vnodeLegal vnodeStep vnodeInit s ∧ ¬ WaitersOk s := by
  obtain ⟨s, hrun, hthread, hbusy⟩ : ∃ s, Lts.Run vnodeLegal vnodeStep vnodeInit s ∧
      s.thread 2 = .waiting 100 (0, 5) ∧ (s.vnode 100).busy = false :=
    Lts.exists_run forgottenCalls (by decide +kernel)
  refine ⟨s, hrun, fun hw => ?_⟩
  rw [(hw 2 100 (0, 5) hthread).2] at hbusy
  cases hbusy

end

end Weenix.VnodeTable
