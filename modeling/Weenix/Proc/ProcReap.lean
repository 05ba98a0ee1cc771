/-
# Waiting for children

`WaitSpec` says what a round of `do_waitpid(pid, ..)` is to come to: `-ECHILD` exactly when there is
no child to wait for, or an exited child, that with the given pid if one is given, its status, and
its removal from the table; and otherwise it sleeps.

Once in its loop `do_waitpid` looks for the first dead child and has forgotten about `pid`, and it
asserts that the thread of that child is `KT_EXITED`, which it is not if it slept in `proc_cleanup`.
`WaitFine` says that neither matters in a step, and that no exit is missed.  `waitpid_runs` is the
result about runs: with all steps fine, every round meets `WaitSpec`, a process that waits is not
asleep when there is something to report, and every exit is reported once.
-/
import Weenix.Lib.Ledger
import Weenix.Proc.ProcWait

namespace Weenix.Proc

open List ProcTable

/-! ## 1. What a round comes to -/

/-- There is no child that `do_waitpid(pid, ..)` could wait for. -/
def NoSuchChild (t : ProcTable) (cur : Nat) (pid : Int) : Prop :=
  (t.proc cur).pChildren = [] ∨ 0 < pid ∧ ∀ d ∈ (t.proc cur).pChildren, (t.proc d).pPid ≠ pid

/-- The process `d` is gone from the table and from the children of `cur`, and nothing else is. -/
structure Removed (cur d : Nat) (t t' : ProcTable) : Prop where
  procList : ∀ q, q ∈ t'.procList ↔ q ≠ d ∧ q ∈ t.procList
  children : ∀ q, q ∈ (t'.proc cur).pChildren ↔ q ≠ d ∧ q ∈ (t.proc cur).pChildren
  others : ∀ q, q ≠ cur → t'.proc q = t.proc q
  self : ∃ l, t'.proc cur = { t.proc cur with pChildren := l }

/-- What a round of `do_waitpid(pid, 0, &status)` is to come to. -/
structure WaitSpec (t : ProcTable) (cur : Nat) (pid : Int) (r : ProcTable × WaitOut) : Prop where
  noChild : (∃ status, r.2 = .returned (-echild) status) ↔ NoSuchChild t cur pid
  failed : ∀ v, r.2 = .returned v none → v = -echild ∧ r.1 = t
  reaped : ∀ v status, r.2 = .returned v (some status) → ∃ d ∈ (t.proc cur).pChildren,
    (t.proc d).pState = .dead ∧ v = (t.proc d).pPid ∧ status = (t.proc d).pStatus ∧
    (0 < pid → v = pid) ∧ Removed cur d t r.1
  sleeps : r.2 = .sleeps → r.1 = t ∧ ∀ d ∈ (t.proc cur).pChildren, (t.proc d).pState = .running

/-- The first dead child, if there is one, is the one with the given pid, and its thread has
exited. -/
def FirstDead (t : ProcTable) (cur : Nat) (ktExited : Nat → Bool) (pid : Int) : Prop :=
  ∀ d ∈ deadChild t cur, ktExited d = true ∧ (0 < pid → (t.proc d).pPid = pid)
deriving Decidable

section
variable {t : ProcTable} {idle init cur d : Nat} {pid : Int} {k : Nat → Bool}

theorem procLookup_of_mem (hp : t.pids.Nodup) (hd : d ∈ t.procList) :
    procLookup t (t.proc d).pPid = some d := by
  cases hl : procLookup t (t.proc d).pPid with
  | none =>
    have := find?_eq_none.mp hl d hd
    simp at this
  | some q =>
    have hq : (t.proc q).pPid = (t.proc d).pPid := by simpa using find?_some hl
    rw [inj_on_of_nodup_map hp (mem_of_find?_eq_some hl) hd hq]

/-- **A round that finds no child.** -/
theorem WaitSpec.refused (hno : NoSuchChild t cur pid) :
    WaitSpec t cur pid (t, .returned (-echild) none) where
  noChild := ⟨fun _ => hno, fun _ => ⟨none, rfl⟩⟩
  failed := by
    rintro v ⟨⟩
    exact ⟨rfl, rfl⟩
  reaped := by rintro v status ⟨⟩
  sleeps := by rintro ⟨⟩

variable (h : TreeInv idle init t)
include h

theorem Accepts.child (ha : Accepts t cur pid) (hpos : 0 < pid) :
    ∃ d ∈ (t.proc cur).pChildren, (t.proc d).pPid = pid := by
  obtain ⟨-, rfl | ⟨-, p, hp, hpar⟩⟩ := ha
  · cases hpos
  · exact ⟨p, h.mem_children (mem_of_find?_eq_some hp) hpar, by simpa using find?_some hp⟩

theorem noSuchChild_iff (hp : t.pids.Nodup) (hpid : pid = -1 ∨ 0 < pid) :
    NoSuchChild t cur pid ↔ ¬ Accepts t cur pid := by
  constructor
  · rintro (hnil | ⟨hpos, hno⟩) ha
    · exact ha.1 hnil
    · obtain ⟨d, hd, hdp⟩ := ha.child h hpos
      exact hno d hd hdp
  · intro ha
    by_cases hnil : (t.proc cur).pChildren = []
    · exact .inl hnil
    obtain rfl | hpos := hpid
    · exact absurd ⟨hnil, .inl rfl⟩ ha
    · refine .inr ⟨hpos, fun d hd hdp => ha ⟨hnil, .inr ⟨hpos, d, ?_, (h.child hd).2⟩⟩⟩
      rw [← hdp]
      exact procLookup_of_mem hp (h.child hd).1

theorem TreeInv.removed : Removed cur d t (t.reap cur d) where
  procList _ := mem_reap h.nodup
  children q := by
    rw [reap_cur]
    exact (h.placed.nodup cur).mem_erase_iff
  others _ hq := reap_ne hq
  self := reap_cases cur

/-- **A round in the loop.** -/
theorem waitpidScan_spec (hpos : ∀ p ∈ t.procList, 0 ≤ (t.proc p).pPid)
    (hfirst : FirstDead t cur k pid)
    (hchild : ¬ NoSuchChild t cur pid) :
    ∃ r, waitpidScan t cur k = .ok r ∧ WaitSpec t cur pid r := by
  cases hd : deadChild t cur with
  | none =>
    refine ⟨(t, .sleeps), by simp [waitpidScan, hd], ⟨?_, ?_, ?_, ?_⟩⟩
    · exact ⟨by rintro ⟨_, ⟨⟩⟩, fun hno => absurd hno hchild⟩
    · rintro v ⟨⟩
    · rintro v status ⟨⟩
    · exact fun _ => ⟨rfl, deadChild_none hd⟩
  | some d =>
    obtain ⟨hk, hpid⟩ := hfirst d hd
    obtain ⟨hmem, hdead⟩ := deadChild_spec hd
    have hnn := hpos d (h.child hmem).1
    refine ⟨(t.reap cur d, .returned (t.proc d).pPid (some (t.proc d).pStatus)),
      by simp [waitpidScan, hd, hk], ⟨?_, ?_, ?_, ?_⟩⟩
    · refine ⟨?_, fun hno => absurd hno hchild⟩
      rintro ⟨status, he⟩
      -- no pid is `-ECHILD`
      injection he with he
      rw [he] at hnn
      cases hnn
    · rintro v ⟨⟩
    · rintro v status ⟨⟩
      exact ⟨d, hmem, hdead, rfl, rfl, hpid, h.removed⟩
    · rintro ⟨⟩

/-- **The first round.** -/
theorem doWaitpid_spec (hp : t.pids.Nodup) (hpos : ∀ p ∈ t.procList, 0 ≤ (t.proc p).pPid)
    (hpid : pid = -1 ∨ 0 < pid) (hfirst : Accepts t cur pid → FirstDead t cur k pid) :
    ∃ r, doWaitpid t cur pid k = .ok r ∧ WaitSpec t cur pid r := by
  have hiff := @noSuchChild_iff t idle init cur pid h hp hpid
  by_cases ha : Accepts t cur pid
  · rw [doWaitpid_accepts ha]
    exact waitpidScan_spec h hpos (hfirst ha) fun hno => hiff.mp hno ha
  · have hno := hiff.mpr ha
    have hv : refusal t cur pid = -echild := if_pos (hno.imp_right And.left)
    refine ⟨_, doWaitpid_refuses ha, ?_⟩
    rw [hv]
    exact .refused hno

end

/-! ## 2. Steps -/

/-- There is a pid for a new process, a round of `do_waitpid` finds what it should, and exits are
heard. -/
def WaitFine (init : Nat) (s : ProcSys) : ProcCall → Prop
  | .create _ => s.tbl.procList.length < procMaxCount
  | .waitpid pid => Accepts s.tbl s.cur pid → FirstDead s.tbl s.cur s.ktExited pid
  | .rescan =>
    match s.pc s.cur with
    | .inWait pid => FirstDead s.tbl s.cur s.ktExited pid
    | _ => True
  | c => ExitHeard init s c

instance (init : Nat) (s : ProcSys) (c : ProcCall) : Decidable (WaitFine init s c) := by
  obtain _ | _ := c <;> unfold WaitFine <;> try infer_instance
  obtain _ | _ := s.pc s.cur <;> infer_instance

/-- What is known of the processes that wait. -/
structure WaitInv (s : ProcSys) : Prop where
  pids : s.tbl.pids.Nodup
  nonneg : ∀ p ∈ s.tbl.procList, 0 ≤ (s.tbl.proc p).pPid
  child : ∀ p pid, s.pc p = .inWait pid → ¬ NoSuchChild s.tbl p pid
  accounted : ∀ p, (s.pc p).isInWait = true → s.sched.accounted p

theorem NoSuchChild.mono {t t' : ProcTable} {p : Nat} {pid : Int} (hno : NoSuchChild t' p pid)
    (hsub : ∀ d ∈ (t.proc p).pChildren, d ∈ (t'.proc p).pChildren)
    (hpid : ∀ d ∈ (t.proc p).pChildren, (t'.proc d).pPid = (t.proc d).pPid) :
    NoSuchChild t p pid := by
  obtain hnil | ⟨hpos, hno⟩ := hno
  · rw [hnil] at hsub
    exact .inl (eq_nil_iff_forall_not_mem.mpr fun d hd => (nomatch hsub d hd))
  · exact .inr ⟨hpos, fun d hd => hpid d hd ▸ hno d (hsub d hd)⟩

section
variable {s s' : ProcSys} {idle init : Nat} {c : ProcCall} {pc : Nat → ProcPc}
  {pid : Int} {k : Sched}

theorem WaitInv.scans_child (h : SysInv idle init s) (hw : WaitInv s)
    (hscan : s.scans c pid) : ¬ NoSuchChild s.tbl s.cur pid := by
  obtain ⟨-, ha⟩ | ⟨-, hpc⟩ := hscan
  · rintro (hnil | ⟨hpos, hno⟩)
    · exact ha.1 hnil
    · obtain ⟨d, hd, hdp⟩ := ha.child h.tree hpos
      exact hno d hd hdp
  · exact hw.child s.cur pid hpc

/-- Who is in `do_waitpid` after another process has gone somewhere else was there before. -/
theorem update_inWait {a p : Nat} {x : ProcPc} (hx : x.isInWait = false)
    (hp : (update pc a x p).isInWait = true) : p ≠ a ∧ (pc p).isInWait = true := by
  have hne : p ≠ a := by
    rintro rfl
    rw [update_self, hx] at hp
    cases hp
  exact ⟨hne, update_of_ne hne x pc ▸ hp⟩

theorem update_eq_inWait {a p : Nat} {x : ProcPc} (hx : x.isInWait = false)
    (hp : update pc a x p = .inWait pid) :
    p ≠ a ∧ pc p = .inWait pid := by
  have hne := (@update_inWait pc a p x hx (by rw [hp]; rfl)).1
  exact ⟨hne, (update_of_ne hne x pc).symm.trans hp⟩

/-- What interrupt handlers do is done while the scheduler waits. -/
theorem SchedUse.intrWait_of_ofInterrupt {c : SchedCall} (hc : SchedUse k c)
    (hh : c.ofInterrupt = true) : k.intrWait = true := by
  cases c with
  | intrWakeupOn q | intrBroadcastOn q | intrDone => exact hc.1
  | _ => cases hh

/-- A process that does not run and is in `do_waitpid` is not lost. -/
theorem WaitInv.still_accounted (hw : WaitInv s) (hlost : NotLost s.sched k) {p : Nat}
    (hp : (s.pc p).isInWait = true) (hne : p ≠ s.cur ∨ ¬ s.sched.running) : k.accounted p := by
  obtain hm | hm | ⟨rfl, hr⟩ := hw.accounted p hp
  · exact hlost p (.inl hm)
  · exact hlost p (.inr hm)
  · exact absurd hr (hne.resolve_left fun hn => hn rfl)

/-- **A new process** has a pid of its own, and nobody waits for it yet. -/
theorem WaitInv.created (h : SysInv idle init s) (hw : WaitInv s) {a n k : Nat}
    (hc : ProcLegal idle init s (.create a)) (hfree : s.tbl.usesPid k = false) : WaitInv { s with
      tbl := ({ s.tbl with nextPid := n }).created s.cur a k
      sched := kthreadCreate s.sched a
      pc := update s.pc a .user
      serial := update s.serial a s.nserial
      nserial := s.nserial + 1 } := by
  have hne := h.create_ne_cur hc
  obtain ⟨hr, hpc, hu, ha⟩ := hc
  have hold := fun {p} => @created_old { s.tbl with nextPid := n } s.cur a p k
  have hcurwait : ∀ {p}, (s.pc p).isInWait = true → p ≠ s.cur := by
    rintro p hp rfl
    rw [hpc] at hp
    cases hp
  refine ⟨nodup_pids_created hw.pids ha hne hfree, fun p hp => ?_, fun p pid hp hno => ?_,
    fun p hp => ?_⟩
  · by_cases hpa : p = a
    · rw [hpa, created_self hne]
      exact Int.natCast_nonneg k
    · obtain ⟨l, hl⟩ := hold hpa hne
      rw [hl]
      exact hw.nonneg p ((mem_created.mp hp).resolve_right hpa)
  · obtain ⟨hpa, hp⟩ := update_eq_inWait rfl hp
    have hpcur := hcurwait (p := p) (by rw [hp]; rfl)
    have heq := @created_ne { s.tbl with nextPid := n } s.cur a p k hpa hpcur
    refine hw.child p pid hp (hno.mono (fun d hd => heq ▸ hd) fun d hd => ?_)
    obtain ⟨l, hl⟩ := hold (p := d) (fun he => ha (he ▸ (h.tree.child hd).1)) hne
    rw [hl]
  · have hp := (update_inWait rfl hp).2
    have hlost : NotLost s.sched (kthreadCreate s.sched a) := fun q hq => hq.imp_right .inl
    exact hw.still_accounted hlost hp (.inl (hcurwait hp))

/-- **A fine step keeps what is known of the processes that wait.** -/
theorem WaitInv.moved (h : SysInv idle init s) (hw : WaitInv s) (hc : ProcLegal idle init s c)
    (hf : WaitFine init s c) (hm : Moved idle init s c s') : WaitInv s' := by
  cases hm with
  | @create a n pid tree hpid =>
    obtain ⟨k, rfl, hfree⟩ := free_pid_of_room hf hpid
    exact hw.created h hc hfree
  | exit queues fewer notLost =>
    refine ⟨hw.pids, hw.nonneg, fun p pid hp => hw.child p pid (update_eq_inWait rfl hp).2,
      fun p hp => ?_⟩
    obtain ⟨hne, hp⟩ := update_inWait rfl hp
    exact hw.still_accounted notLost hp (.inl hne)
  | finish exiting tree exited queues frame notLost =>
    refine ⟨exited.pids_eq.symm ▸ hw.pids, fun p hp => ?_, fun p pid hp hno => ?_, fun p hp => ?_⟩
    · rw [exited.pid p]
      exact hw.nonneg p (exited.procList ▸ hp)
    · obtain ⟨hne, hp⟩ := update_eq_inWait rfl hp
      refine hw.child p pid hp (hno.mono (fun d hd => ?_) fun d _ => exited.pid d)
      by_cases hpi : p = init
      · subst hpi
        exact exited.kept d hd
      · exact (exited.children p hne hpi).symm ▸ hd
    · obtain ⟨hne, hp⟩ := update_inWait rfl hp
      exact hw.still_accounted notLost hp (.inl hne)
  | refused no =>
    refine ⟨hw.pids, hw.nonneg, fun p pid hp => hw.child p pid (update_eq_inWait rfl hp).2,
      fun p hp => ?_⟩
    exact hw.accounted p (update_inWait rfl hp).2
  | @reaped _ _ d scan found =>
    refine ⟨hw.pids.sublist pids_reap, fun p hp => ?_, fun p pid hp hno => ?_, fun p hp => ?_⟩
    · obtain ⟨l, hl⟩ := @reap_cases s.tbl d s.cur p
      rw [hl]
      exact hw.nonneg p ((mem_reap h.tree.nodup).mp hp).2
    · obtain ⟨hne, hp⟩ := update_eq_inWait rfl hp
      refine hw.child p pid hp (hno.mono (fun e he => (reap_ne hne).symm ▸ he) fun e _ => ?_)
      obtain ⟨l, hl⟩ := @reap_cases s.tbl d s.cur e
      rw [hl]
    · exact hw.accounted p (update_inWait rfl hp).2
  | @slept _ pid k scan found queues self asleep frame notLost =>
    refine ⟨hw.pids, hw.nonneg, fun p pid' hp => ?_, fun p hp => ?_⟩
    · by_cases hpc : p = s.cur
      · subst hpc
        change update s.pc s.cur (.inWait pid) s.cur = _ at hp
        rw [update_self] at hp
        cases hp
        exact hw.scans_child h scan
      · change update s.pc s.cur _ p = _ at hp
        rw [update_of_ne hpc] at hp
        exact hw.child p pid' hp
    · by_cases hpc : p = s.cur
      · subst hpc
        exact .inl (self.symm ▸ mem_singleton_self _)
      · change (update s.pc s.cur _ p).isInWait = true at hp
        rw [update_of_ne hpc] at hp
        exact hw.still_accounted notLost hp (.inl hpc)
  | @other c k queues frame notLost =>
    refine { hw with accounted p hp := ?_ }
    obtain ⟨huse, -, -, hawake⟩ := hc
    refine hw.still_accounted notLost hp ?_
    -- the process that runs is not in `do_waitpid`, unless the call is an interrupt's
    cases hh : c.ofInterrupt with
    | true =>
      refine .inr fun hr => ?_
      have hi := huse.intrWait_of_ofInterrupt hh
      rw [hr.1] at hi
      cases hi
    | false =>
      refine .inl ?_
      rintro rfl
      have ha := hawake hh
      revert ha hp
      change (s.pc s.cur).isInWait = true → _ → False
      cases s.pc s.cur <;> simp [ProcPc.isInWait, ProcPc.awake]

end

/-! ## 3. Exits and reports -/

/-- Processes of the table have different serial numbers, below the next one. -/
structure Serials (t : ProcTable) (serial : Nat → Nat) (next : Nat) : Prop where
  lt : ∀ p ∈ t.procList, serial p < next
  inj : ∀ p ∈ t.procList, ∀ q ∈ t.procList, serial p = serial q → p = q

/-- The process `p` as `do_waitpid` reports it. -/
def ProcTable.record (t : ProcTable) (serial : Nat → Nat) (p : Nat) : ExitRecord :=
  ⟨serial p, (t.proc p).pPid, (t.proc p).pStatus⟩

/-- The serial number of a process that has not exited. -/
def ProcTable.running (t : ProcTable) (serial : Nat → Nat) (k : Nat) : Prop :=
  ∃ p, t.live p ∧ serial p = k

/-- The record of a process that has exited and is still in the table. -/
def ProcTable.zombie (t : ProcTable) (serial : Nat → Nat) (r : ExitRecord) : Prop :=
  ∃ p ∈ t.procList, (t.proc p).pState = .dead ∧ t.record serial p = r

section
variable {t t' : ProcTable} {serial : Nat → Nat} {next cur a d p : Nat} {pid status : Int}
  {idle init : Nat}

theorem Serials.created (h : Serials t serial next) (ha : a ∉ t.procList) :
    Serials (t.created cur a pid) (update serial a next) (next + 1) := by
  have hold : ∀ {p}, p ∈ t.procList → update serial a next p = serial p := by
    intro p hp
    have hpa : p ≠ a := fun he => ha (he ▸ hp)
    exact update_of_ne hpa _ _
  have hself : update serial a next a = next := update_self ..
  constructor
  · intro p hp
    obtain hp | rfl := mem_created.mp hp
    · rw [hold hp]
      exact Nat.lt_succ_of_lt (h.lt p hp)
    · rw [hself]
      exact Nat.lt_succ_self _
  · intro p hp q hq he
    obtain hp | hp := mem_created.mp hp <;> rcases mem_created.mp hq with hq | hq
    · rw [hold hp, hold hq] at he
      exact h.inj p hp q hq he
    · rw [hold hp, hq, hself] at he
      exact absurd he (h.lt p hp).ne
    · rw [hp, hold hq, hself] at he
      exact absurd he.symm (h.lt q hq).ne
    · rw [hp, hq]

theorem running_created (ha : a ∉ t.procList) (hne : a ≠ cur) (k : Nat) :
    (t.created cur a pid).running (update serial a next) k ↔ t.running serial k ∨ k = next := by
  constructor
  · rintro ⟨p, hp, rfl⟩
    by_cases hpa : p = a
    · rw [hpa]
      exact .inr (update_self ..)
    · rw [update_of_ne hpa]
      exact .inl ⟨p, (live_created hne hpa).mp hp, rfl⟩
  · rintro (⟨p, hp, rfl⟩ | rfl)
    · have hpa : p ≠ a := fun he => ha (he ▸ hp.1)
      exact ⟨p, (live_created hne hpa).mpr hp, update_of_ne hpa _ _⟩
    · exact ⟨a, ⟨mem_created.mpr (.inr rfl), by rw [created_self hne]⟩, update_self ..⟩

theorem zombie_created (ha : a ∉ t.procList) (hne : a ≠ cur) (r : ExitRecord) :
    (t.created cur a pid).zombie (update serial a next) r ↔ t.zombie serial r := by
  -- the old processes have kept their records, and the new one is not dead
  have hkeep : ∀ {p}, p ≠ a → (t.created cur a pid).record (update serial a next) p =
      t.record serial p ∧ ((t.created cur a pid).proc p).pState = (t.proc p).pState := by
    intro p hp
    obtain ⟨l, hl⟩ := @created_old t cur a p pid hp hne
    unfold record
    rw [hl, update_of_ne hp]
    exact ⟨rfl, rfl⟩
  constructor
  · rintro ⟨p, hp, hdead, rfl⟩
    obtain hp | rfl := mem_created.mp hp
    · obtain ⟨hrec, hst⟩ := hkeep (p := p) fun he => ha (he ▸ hp)
      exact ⟨p, hp, hst ▸ hdead, hrec.symm⟩
    · rw [created_self hne] at hdead
      cases hdead
  · rintro ⟨p, hp, hdead, rfl⟩
    obtain ⟨hrec, hst⟩ := hkeep (p := p) fun he => ha (he ▸ hp)
    exact ⟨p, mem_created.mpr (.inl hp), hst.trans hdead, hrec⟩

theorem ExitedTo.running_iff (hx : ExitedTo p init status t t') (h : Serials t serial next)
    (hp : p ∈ t.procList) (k : Nat) : t'.running serial k ↔ t.running serial k ∧ k ≠ serial p := by
  constructor
  · rintro ⟨q, hq, rfl⟩
    obtain ⟨hq, hne⟩ := hx.live_iff.mp hq
    exact ⟨⟨q, hq, rfl⟩, fun he => hne (h.inj q hq.1 p hp he)⟩
  · rintro ⟨⟨q, hq, rfl⟩, hne⟩
    exact ⟨q, hx.live_iff.mpr ⟨hq, fun he => hne (he ▸ rfl)⟩, rfl⟩

theorem ExitedTo.zombie_iff (hx : ExitedTo p init status t t') (hp : t.live p) (r : ExitRecord) :
    t'.zombie serial r ↔ t.zombie serial r ∨ r = ⟨serial p, (t.proc p).pPid, status⟩ := by
  have hself : t'.record serial p = ⟨serial p, (t.proc p).pPid, status⟩ := by
    rw [record, hx.pid, hx.self.2]
  have hkeep : ∀ {q}, q ≠ p → t'.record serial q = t.record serial q := by
    intro q hq
    rw [record, hx.pid, hx.status q hq]
    rfl
  constructor
  · rintro ⟨q, hq, hdead, rfl⟩
    by_cases hqp : q = p
    · rw [hqp]
      exact .inr hself
    · exact .inl ⟨q, hx.procList ▸ hq, hx.state q hqp ▸ hdead, (hkeep hqp).symm⟩
  · rintro (⟨q, hq, hdead, rfl⟩ | rfl)
    · have hqp : q ≠ p := by
        rintro rfl
        rw [hp.2] at hdead
        cases hdead
      exact ⟨q, hx.procList.symm ▸ hq, (hx.state q hqp).trans hdead, hkeep hqp⟩
    · exact ⟨p, hx.procList.symm ▸ hp.1, hx.self.1, hself⟩

theorem zombie_reap (h : Serials t serial next) (hnd : t.procList.Nodup) (hd : d ∈ t.procList)
    (r : ExitRecord) :
    (t.reap cur d).zombie serial r ↔ t.zombie serial r ∧ r ≠ t.record serial d := by
  have hkeep : ∀ q, (t.reap cur d).record serial q = t.record serial q ∧
      ((t.reap cur d).proc q).pState = (t.proc q).pState := by
    intro q
    obtain ⟨l, hl⟩ := @reap_cases t d cur q
    unfold record
    rw [hl]
    exact ⟨rfl, rfl⟩
  constructor
  · rintro ⟨q, hq, hdead, rfl⟩
    obtain ⟨hrec, hst⟩ := hkeep q
    obtain ⟨hqd, hq⟩ := (mem_reap hnd).mp hq
    rw [hrec]
    exact ⟨⟨q, hq, hst ▸ hdead, rfl⟩, fun he =>
      hqd (h.inj q hq d hd (congrArg ExitRecord.serial he))⟩
  · rintro ⟨⟨q, hq, hdead, rfl⟩, hne⟩
    obtain ⟨hrec, hst⟩ := hkeep q
    exact ⟨q, (mem_reap hnd).mpr ⟨fun he => hne (he ▸ rfl), hq⟩, hst.trans hdead, hrec⟩

end

/-- Serial numbers are in order, and every process that has exited is a zombie or was reported. -/
structure Booked (s : ProcSys) : Prop where
  serials : Serials s.tbl s.serial s.nserial
  exact : Ledger.Exact ExitRecord.serial s.nserial (s.tbl.running s.serial)
    (s.tbl.zombie s.serial) s.exits s.reports

/-- **A step keeps the books.** -/
theorem Booked.moved {s s' : ProcSys} {idle init : Nat} {c : ProcCall} (h : SysInv idle init s)
    (hb : Booked s) (hc : ProcLegal idle init s c) (hm : Moved idle init s c s') : Booked s' := by
  cases hm with
  | @create a n pid tree hpid =>
    have hne := h.create_ne_cur hc
    obtain ⟨hr, hpc, hu, ha⟩ := hc
    have hser : Serials { s.tbl with nextPid := n } s.serial s.nserial :=
      ⟨hb.serials.lt, hb.serials.inj⟩
    exact ⟨hser.created ha,
      hb.exact.opened (running_created (t := { s.tbl with nextPid := n }) ha hne)
      (zombie_created (t := { s.tbl with nextPid := n }) ha hne)⟩
  | exit queues fewer notLost => exact { hb with }
  | finish exiting tree exited queues frame notLost =>
    have hcur := h.live (p := s.cur) (by simp [exiting])
    refine ⟨⟨fun p hp => hb.serials.lt p (exited.procList ▸ hp), fun p hp q hq =>
      hb.serials.inj p (exited.procList ▸ hp) q (exited.procList ▸ hq)⟩, ?_⟩
    exact hb.exact.close ⟨s.cur, hcur, rfl⟩ (exited.running_iff hb.serials hcur.1)
      (exited.zombie_iff hcur)
  | refused no => exact { hb with }
  | @reaped _ _ d scan found =>
    obtain ⟨hmem, hdead⟩ := deadChild_spec found
    have hd := (h.tree.child hmem).1
    have hsub : ∀ {p}, p ∈ (s.tbl.reap s.cur d).procList → p ∈ s.tbl.procList := fun hp =>
      ((mem_reap h.tree.nodup).mp hp).2
    refine ⟨⟨fun p hp => hb.serials.lt p (hsub hp), fun p hp q hq =>
      hb.serials.inj p (hsub hp) q (hsub hq)⟩, ?_⟩
    refine hb.exact.settle ⟨d, hd, hdead, rfl⟩ (fun k => exists_congr fun p => ?_)
      (zombie_reap hb.serials h.tree.nodup hd)
    exact and_congr_left fun _ => live_reap h.tree.nodup hdead p
  | slept scan found queues self asleep frame notLost => exact { hb with }
  | other queues frame notLost => exact { hb with }

/-! ## 4. Runs -/

/-- What holds of waiting in a state. -/
structure WaitsOk (idle init : Nat) (s : ProcSys) : Prop where
  /-- no assertion fails -/
  returns : ∀ c, ProcLegal idle init s c → WaitFine init s c → ∃ s', procStep s c = .ok s'
  /-- the first round of `do_waitpid(pid, ..)` -/
  first : ∀ pid, WaitFine init s (.waitpid pid) → (pid = -1 ∨ 0 < pid) →
    ∃ r, doWaitpid s.tbl s.cur pid s.ktExited = .ok r ∧ WaitSpec s.tbl s.cur pid r
  /-- a later round, after a wakeup -/
  later : ∀ pid, s.pc s.cur = .inWait pid → WaitFine init s .rescan →
    ∃ r, waitpidScan s.tbl s.cur s.ktExited = .ok r ∧ WaitSpec s.tbl s.cur pid r
  /-- a process that waits is about to run, or runs, when it has a dead child -/
  awake : ∀ p, (s.pc p).isInWait = true → ∀ d ∈ (s.tbl.proc p).pChildren,
    (s.tbl.proc d).pState = .dead → p ∈ s.sched.tqList ktRunq ∨ p = s.cur ∧ s.sched.running
  exitsOnce : (s.exits.map ExitRecord.serial).Nodup
  reports : ∀ r ∈ s.reports, r ∈ s.exits
  /-- an exit is reported by exactly one `do_waitpid`, and until then the process is in the table -/
  once : ∀ r ∈ s.exits, s.tbl.zombie s.serial r ∧ s.reports.count r = 0 ∨
    ¬ s.tbl.zombie s.serial r ∧ s.reports.count r = 1

section
variable {s : ProcSys} {idle init : Nat}

section
variable (h : SysInv idle init s) (hw : WaitInv s)
include h hw

theorem WaitInv.one_le_pid {p : Nat} (hp : p ∈ s.tbl.procList) (hidle : p ≠ idle) :
    1 ≤ (s.tbl.proc p).pPid := by
  have hnn := hw.nonneg p hp
  have hne : (s.tbl.proc p).pPid ≠ 0 := fun he =>
    hidle (inj_on_of_nodup_map hw.pids hp h.tree.idleMem (he.trans h.tree.idlePid.symm))
  omega

theorem WaitInv.returns {c : ProcCall} (hc : ProcLegal idle init s c) (hf : WaitFine init s c) :
    ∃ s', procStep s c = .ok s' := by
  obtain ⟨s', hs, -⟩ | ⟨-, ⟨⟨status, rfl⟩, hpid⟩ | ⟨⟨pid, hscan⟩, d, hd, hk⟩⟩ := procStep_cases h hc
  · exact ⟨s', hs⟩
  · obtain ⟨-, hpc, hidle, -⟩ := hc
    have := hw.one_le_pid h (h.live (p := s.cur) (by simp [hpc])).1 hidle
    omega
  · have hfirst : FirstDead s.tbl s.cur s.ktExited pid := by
      obtain ⟨rfl, ha⟩ | ⟨rfl, hpc⟩ := hscan
      · exact hf ha
      · unfold WaitFine at hf
        simpa only [hpc] using hf
    rw [(hfirst d hd).1] at hk
    cases hk

theorem WaitInv.waitsOk (hno : s.NoMissedExit) (hb : Booked s) : WaitsOk idle init s where
  returns _ hc hf := hw.returns h hc hf
  first _ hf hpid := doWaitpid_spec h.tree hw.pids hw.nonneg hpid hf
  later pid hpc hf := by
    unfold WaitFine at hf
    simp only [hpc] at hf
    exact waitpidScan_spec h.tree hw.nonneg hf (hw.child s.cur pid hpc)
  awake p hp d hd hdead :=
    (hw.accounted p hp).resolve_left fun hwait => hno p hwait d hd hdead
  exitsOnce := hb.exact.closedOnce
  reports r hr := (hb.exact.account r).mpr (.inr hr)
  once _ hr := hb.exact.settled_once hr

end

theorem WaitInv.boot (hne : idle ≠ init) : WaitInv (bootState idle init) where
  pids := by simp [bootState, ProcTable.pids, bootProc, hne.symm]
  nonneg p hp := by
    change 0 ≤ (bootProc idle init p).pPid
    unfold bootProc
    split
    · exact Int.le_refl 0
    · split <;> simp
  child p pid hp := by
    change (if p = idle ∨ p = init then ProcPc.user else .gone) = .inWait pid at hp
    split at hp <;> cases hp
  accounted p hp := by
    change (if p = idle ∨ p = init then ProcPc.user else .gone).isInWait = true at hp
    split at hp <;> cases hp

theorem Booked.boot (hne : idle ≠ init) : Booked (bootState idle init) := by
  have hmem : ∀ {p}, p ∈ (bootState idle init).tbl.procList ↔ p = idle ∨ p = init := by
    simp [bootState]
  have hrun := bootProc_running idle init
  refine ⟨⟨fun p _ => ?_, fun p hp q hq he => ?_⟩, Ledger.Exact.nil.congr (fun k => ?_) fun r => ?_⟩
  · change (if p = idle then 0 else 1) < 2
    split <;> decide
  · change (if p = idle then 0 else 1) = if q = idle then 0 else 1 at he
    obtain rfl | rfl := hmem.mp hp <;> rcases hmem.mp hq with rfl | rfl <;> simp_all
  · change (∃ p, _ ∧ (if p = idle then 0 else 1) = k) ↔ k < 2
    constructor
    · rintro ⟨p, -, rfl⟩
      split <;> decide
    · intro hk
      obtain rfl | rfl : k = 0 ∨ k = 1 := by omega
      · exact ⟨idle, ⟨hmem.mpr (.inl rfl), hrun idle⟩, if_pos rfl⟩
      · exact ⟨init, ⟨hmem.mpr (.inr rfl), hrun init⟩, if_neg hne.symm⟩
  · refine ⟨fun ⟨p, _, hdead, _⟩ => ?_, fun hf => hf.elim⟩
    change (bootProc idle init p).pState = .dead at hdead
    rw [hrun p] at hdead
    cases hdead

end

theorem WaitFine.exitHeard {init : Nat} {s : ProcSys} {c : ProcCall} (hf : WaitFine init s c) :
    ExitHeard init s c := by
  cases c with
  | finish => exact hf
  | _ => trivial

/-- **Waiting for children.**  In every state of every run from boot whose steps are fine, every
round of `do_waitpid` comes to what it should, nobody sleeps through the exit of a child, and every
exit is reported exactly once. -/
theorem waitpid_runs {idle init : Nat} {s₀ s : ProcSys} (hne : idle ≠ init)
    (hboot : bootSys idle init = .ok s₀)
    (hr : Lts.Run (fun s c => ProcLegal idle init s c ∧ WaitFine init s c) procStep s₀ s) :
    WaitsOk idle init s := by
  have hinv := SysInv.boot hne hboot
  rw [bootSys_eq hne] at hboot
  cases hboot
  obtain ⟨h, hno, hw, hb⟩ :=
    hr.invariant (I := fun s => SysInv idle init s ∧ s.NoMissedExit ∧ WaitInv s ∧ Booked s)
    ⟨hinv, fun p hp => (nomatch hp), .boot hne, .boot hne⟩ fun s c s' hs hc hstep => by
      obtain ⟨h, hno, hw, hb⟩ := hs
      have hm := procStep_moved h hc.1 hstep
      exact ⟨h.moved hc.1 hm, h.noMissedExit hno hc.1 hc.2.exitHeard hm, hw.moved h hc.1 hc.2 hm,
        hb.moved h hc.1 hm⟩
  exact hw.waitsOk h hno hb

/-- Init has waited for the process with pid 2 and waits for that with pid 3, which has exited. -/
theorem waitpid_runs_two_children : ∃ s₀ s, bootSys 10 20 = .ok s₀ ∧
    Lts.Run (fun s c => ProcLegal 10 20 s c ∧ WaitFine 20 s c) procStep s₀ s ∧
    s.cur = 20 ∧ s.pc 20 = .inWait 3 ∧ s.reports = [⟨2, 2, 5⟩] ∧
    s.exits = [⟨2, 2, 5⟩, ⟨3, 3, 6⟩] ∧ WaitsOk 10 20 s := by
  have hboot := @bootSys_eq 10 20 (by decide)
  obtain ⟨s, hs, hcur, hpc, hrep, hex⟩ :
    ∃ s, Lts.Run (fun s c => ProcLegal 10 20 s c ∧ WaitFine 20 s c)
      procStep (bootState 10 20) s ∧
      s.cur = 20 ∧ s.pc 20 = .inWait 3 ∧ s.reports = [⟨2, 2, 5⟩] ∧
        s.exits = [⟨2, 2, 5⟩, ⟨3, 3, 6⟩] :=
    Lts.exists_run [.sched (.makeRunnable 20), .waitpid (-1), .create 30, .create 40,
      .sched (.makeRunnable 30), .waitpid 2, .exit 5, .finish, .rescan, .sched (.makeRunnable 40),
      .waitpid 3, .exit 6, .finish] (by decide +kernel)
  exact ⟨_, s, hboot, hs, hcur, hpc, hrep, hex, waitpid_runs (by decide) hboot hs⟩

/-- Init waits for the process with pid 3, which runs, and gets that with pid 2.  And it waits for
any child, and finds one whose thread slept in `proc_cleanup`. -/
theorem waitpid_other_child : (∃ s₀ s r, bootSys 10 20 = .ok s₀ ∧
      Lts.Run (ProcLegal 10 20) procStep s₀ s ∧ ProcLegal 10 20 s (.waitpid 3) ∧ s.cur = 20 ∧
      40 ∈ (s.tbl.proc 20).pChildren ∧ (s.tbl.proc 40).pPid = 3 ∧
      (s.tbl.proc 40).pState = .running ∧ doWaitpid s.tbl 20 3 s.ktExited = .ok r ∧
      r.2 = .returned 2 (some 5)) ∧
    ∃ s₀ s, bootSys 10 20 = .ok s₀ ∧
      Lts.Run (ProcLegal 10 20) procStep s₀ s ∧ ProcLegal 10 20 s (.waitpid (-1)) ∧ s.cur = 20 ∧
      (∃ d ∈ (s.tbl.proc 20).pChildren, (s.tbl.proc d).pState = .dead) ∧
      procStep s (.waitpid (-1)) = .error (.kassert "KT_EXITED == pThread->kt_state") := by
  have hboot := @bootSys_eq 10 20 (by decide)
  constructor
  · obtain ⟨s, hs, hlegal, hcur, hmem, hpid, hst, hret⟩ :
      ∃ s, Lts.Run (ProcLegal 10 20) procStep (bootState 10 20) s ∧
        ProcLegal 10 20 s (.waitpid 3) ∧ s.cur = 20 ∧ 40 ∈ (s.tbl.proc 20).pChildren ∧
          (s.tbl.proc 40).pPid = 3 ∧ (s.tbl.proc 40).pState = .running ∧
          (doWaitpid s.tbl 20 3 s.ktExited).toOption.any (·.2 = .returned 2 (some 5)) = true :=
      Lts.exists_run [.sched (.makeRunnable 20), .waitpid (-1), .create 30, .create 40,
        .sched (.makeRunnable 30), .sched (.makeRunnable 20), .sched .switch, .exit 5,
        .finish] (by decide +kernel)
    obtain ⟨r, hr, hret⟩ := ok_of_any hret
    exact ⟨_, s, r, hboot, hs, hlegal, hcur, hmem, hpid, hst, hr, of_decide_eq_true hret⟩
  · obtain ⟨s, hs, hlegal, hcur, hdead, hret⟩ :
      ∃ s, Lts.Run (ProcLegal 10 20) procStep (bootState 10 20) s ∧
        ProcLegal 10 20 s (.waitpid (-1)) ∧ s.cur = 20 ∧
          (∃ d ∈ (s.tbl.proc 20).pChildren, (s.tbl.proc d).pState = .dead) ∧
          (procStep s (.waitpid (-1))).map (fun _ => ()) =
            .error (.kassert "KT_EXITED == pThread->kt_state") :=
      Lts.exists_run [.sched (.makeRunnable 20), .waitpid (-1), .create 30,
        .sched (.makeRunnable 30), .sched (.makeRunnable 20), .sched .switch, .exit 5,
        .sched (.sleepOn 4), .sched (.wakeupOn 4), .sched (.makeRunnable 20), .sched .switch,
        .finish] (by decide +kernel)
    exact ⟨_, s, hboot, hs, hlegal, hcur, hdead, error_of_map hret⟩

end Weenix.Proc
