/-
# The invariant of running processes

`SysInv` says how the scheduler, the process table and the program counters fit together: a process
that is asleep on a `p_wait` is in `do_waitpid`, and sleeps on its own.

`Moved` lists what a legal step can do, and `procStep_cases` says that there is nothing else, other
than a failed assertion.  Results about runs are proved from `Moved`, not from `procStep`.
-/
import Weenix.Proc.ProcSys
import Weenix.Proc.ProcTableRun

namespace Weenix.Proc

open List

variable {pid : Int} {idle init p : Nat} {x : ProcPc} {k k' : Sched}

/-! ## 1. The invariant -/

/-- The scheduler, the table and the program counters fit together. -/
structure SysInv (idle init : Nat) (s : ProcSys) : Prop where
  queues : QInv none s.sched
  tree : TreeInv idle init s.tbl
  pcs : ∀ p, s.pc p ≠ .gone ↔ s.tbl.live p
  exiting : ∀ p, (s.pc p).isExiting = true → p ≠ idle ∧ p ≠ init
  onWait : ∀ p, ∀ t ∈ s.sched.tqList (pWait p), t = p ∧ (s.pc p).isInWait = true ∧
    (s.sched.kthread t).ktState = .sleep

/-- Nobody went to sleep on a `p_wait`. -/
def Fewer (s s' : Sched) : Prop := ∀ p, ∀ t ∈ s'.tqList (pWait p),
  t ∈ s.tqList (pWait p) ∧ (s'.kthread t).ktState = (s.kthread t).ktState

/-- A process in `do_waitpid` sleeps, is on the run queue, or runs. -/
def Sched.accounted (s : Sched) (p : Nat) : Prop :=
  p ∈ s.tqList (pWait p) ∨ p ∈ s.tqList ktRunq ∨ p = s.curthr ∧ s.running

/-- No process that is on its `p_wait` or on the run queue is lost. -/
def NotLost (s s' : Sched) : Prop :=
  ∀ p, p ∈ s.tqList (pWait p) ∨ p ∈ s.tqList ktRunq → s'.accounted p

theorem pWait_ne_runq (p : Nat) : pWait p ≠ ktRunq := by
  unfold pWait ktRunq
  omega

theorem pWait_inj {q : Nat} (h : pWait p = pWait q) : p = q := by
  unfold pWait at h
  omega

section
variable {s s' : ProcSys} {idle init : Nat}

theorem Frame.mem_iff {w t : Nat} (h : Frame w k k') : t ∈ k'.tqList w ↔ t ∈ k.tqList w := by
  rw [h.tqList]

theorem Frame.fewer (h : ∀ p, Frame (pWait p) k k') : Fewer k k' := by
  intro p t ht
  have hm := (h p).mem_iff.mp ht
  exact ⟨hm, (h p).state t hm⟩

theorem RunqKept.notLost (hr : RunqKept k k') (h : ∀ p, p ∈ k.tqList (pWait p) → k'.accounted p) :
    NotLost k k' := by
  rintro p (hp | hp)
  · exact h p hp
  · exact .inr (hr p hp)

section
variable (h : SysInv idle init s)
include h

theorem SysInv.cur_not_waiting (hr : s.sched.running) (q : Nat) : s.cur ∉ s.sched.tqList q :=
  h.queues.placed.none_iff.mp hr.2 q

theorem SysInv.live (hp : s.pc p ≠ .gone) : s.tbl.live p :=
  (h.pcs p).mp hp

/-- `p_wait` holds no thread but that of its process. -/
theorem SysInv.pWait_cases (p : Nat) :
    s.sched.tqList (pWait p) = [] ∨ s.sched.tqList (pWait p) = [p] := by
  have hall : ∀ t ∈ s.sched.tqList (pWait p), t = p := fun t ht => (h.onWait p t ht).1
  have hnd := h.queues.placed.nodup (pWait p)
  match hl : s.sched.tqList (pWait p) with
  | [] => exact .inl rfl
  | [t] =>
    rw [hl] at hall
    rw [hall t (by simp)]
    exact .inr rfl
  | t :: u :: l =>
    rw [hl] at hall hnd
    have htu : t = u := (hall t (by simp)).trans (hall u (by simp)).symm
    simp [htu] at hnd

/-- Nobody went to sleep, and those who sleep are where they were. -/
theorem SysInv.onWait_of_fewer {sched' : Sched} {pc' : Nat → ProcPc} (hf : Fewer s.sched sched')
    (hpc : ∀ p, s.waiting p → pc' p = s.pc p) (p : Nat) :
    ∀ t ∈ sched'.tqList (pWait p), t = p ∧ (pc' p).isInWait = true ∧
      (sched'.kthread t).ktState = .sleep := by
  intro t ht
  obtain ⟨hm, hst⟩ := hf p t ht
  obtain ⟨rfl, hin, hsleep⟩ := h.onWait p t hm
  exact ⟨rfl, hpc t hm ▸ hin, hst.trans hsleep⟩

/-! ## 2. What the scheduler does in each step -/

/-- **A new process gets a new thread.** -/
theorem SysInv.createThread {a : Nat} (hu : s.sched.unused a) :
    QInv none (kthreadCreate s.sched a) ∧ ∀ w, Frame w s.sched (kthreadCreate s.sched a) :=
  ⟨h.queues.newThread hu (.inl rfl) false, fun _ => frame_newThread h.queues hu⟩

theorem SysInv.exitSelf (hr : s.sched.running) :
    ∃ k, kthreadExit s.sched = .ok k ∧ QInv none k ∧ k.tqList = s.sched.tqList ∧
      Fewer s.sched k := by
  obtain ⟨k, hk, hq⟩ := schedStep_spec h.queues (c := .exit) hr
  refine ⟨k, hk, hq, ?_⟩
  rw [schedStep_exit h.queues hr] at hk
  cases hk
  refine ⟨rfl, fun p t ht => ⟨ht, ?_⟩⟩
  have hne : t ≠ s.sched.curthr := fun he => h.cur_not_waiting hr _ (he ▸ ht)
  simp [Sched.setThread, hne]

/-- **The exit of a thread, and the wakeup of the parent.** -/
theorem SysInv.exitThread (hr : s.sched.running) (par : Nat) :
    ∃ k r, kthreadExit s.sched = .ok k ∧ schedWakeupOn k (pWait par) = .ok r ∧ QInv none r.1 ∧
      Fewer s.sched r.1 ∧ NotLost s.sched r.1 := by
  obtain ⟨k, hk, hq, hlists, hself⟩ := h.exitSelf hr
  obtain ⟨-, hw⟩ | ⟨l, t, hl, hw, hq'⟩ := schedWakeupOn_spec hq (pWait_ne_runq par)
  · refine ⟨k, _, hk, hw, hq, hself, fun p hp => ?_⟩
    rw [← hlists] at hp
    exact hp.imp_right .inl
  have ht : t ∈ k.tqList (pWait par) := hl ▸ mem_append_right l (mem_singleton_self t)
  have hframe : ∀ p, p ≠ par →
    Frame (pWait p) k ((k.unlink (pWait par) (pWait par) t).put ktRunq t .run) :=
    fun p hp => frame_requeue (fun he => hp (pWait_inj he)) (pWait_ne_runq p)
      fun hm => hp (pWait_inj (hq.placed.unique hm ht))
  have hpar := hq.requeue_tqList (pWait_ne_runq par) hl
  refine ⟨k, _, hk, hw, hq', fun p u hu => ?_, RunqKept.notLost (k := s.sched) ?_ fun p hp => ?_⟩
  · by_cases hp : p = par
    · -- the thread that was woken up was the only one
      subst hp
      rw [hpar] at hu
      have hu' : u ∈ k.tqList (pWait p) := hl ▸ mem_append_left [t] hu
      have hut : u = t :=
        (h.onWait p u (hself p u hu').1).1.trans (h.onWait p t (hself p t ht).1).1.symm
      have hnd := hq.placed.nodup (pWait p)
      rw [hl] at hnd
      exact absurd hut ((nodup_append.mp hnd).2.2 u hu t (mem_singleton_self t))
    · have hm := (hframe p hp).mem_iff.mp hu
      exact ⟨(hself p u hm).1, ((hframe p hp).state u hm).trans (hself p u hm).2⟩
  · intro u hu
    exact .inl (runq_requeue (pWait_ne_runq par) (hlists ▸ hu))
  · rw [← hlists] at hp
    by_cases he : p = par
    · subst he
      rw [hl] at hp
      obtain hm | hm := mem_append.mp hp
      · exact .inl (hpar.symm ▸ hm)
      · rw [mem_singleton.mp hm]
        exact .inr (.inl (by simp))
    · exact .inl ((hframe p he).mem_iff.mpr hp)

/-- **Going to sleep in `do_waitpid`.** -/
theorem SysInv.sleepThread (hr : s.sched.running) :
    ∃ k, schedSleepOn s.sched (pWait s.cur) = .ok k ∧ QInv none k ∧
      k.tqList (pWait s.cur) = [s.cur] ∧ (k.kthread s.cur).ktState = .sleep ∧
      (∀ p, p ≠ s.cur → Frame (pWait p) s.sched k) ∧ NotLost s.sched k := by
  have hq := h.queues.sleepOn hr.2 (pWait_ne_runq s.cur) (.inl rfl)
  obtain ⟨k, hk, hqk⟩ := switchAway_ok hq
  have hnil : s.sched.tqList (pWait s.cur) = [] := by
    obtain he | he := h.pWait_cases s.cur
    · exact he
    · exact absurd (he ▸ mem_singleton_self s.cur) (h.cur_not_waiting hr _)
  have hput : (s.sched.put (pWait s.cur) s.sched.curthr .sleep).tqList (pWait s.cur) = [s.cur] := by
    rw [put_tqList_self, hnil]
    rfl
  have hself := frame_switchAway (pWait_ne_runq s.cur) hk
  have hframe : ∀ p, p ≠ s.cur → Frame (pWait p) s.sched k := fun p hp =>
    frame_sleep h.queues hr.2 (pWait_ne_runq p) (fun he => hp (pWait_inj he)) (by decide) hk
  refine ⟨k, (schedSleepOn_eq h.queues hr.2).trans hk, hqk, hself.tqList.trans hput, ?_, hframe,
    (runq_sleep hk).notLost fun p hp => ?_⟩
  · rw [hself.state s.cur (hput ▸ mem_singleton_self s.cur)]
    simp [ProcSys.cur]
  · exact .inl ((hframe p fun he => h.cur_not_waiting hr _ (he ▸ hp)).mem_iff.mpr hp)

/-- **Other calls** leave the `p_wait` queues alone. -/
theorem SysInv.otherCall {c : SchedCall} (hc : ProcLegal idle init s (.sched c)) :
    ∃ k, schedStep s.sched c = .ok k ∧ QInv none k ∧ (∀ p, Frame (pWait p) s.sched k) ∧
      NotLost s.sched k := by
  obtain ⟨huse, hother, hqueue, -⟩ := hc
  obtain ⟨k, hk, hq⟩ := schedStep_spec h.queues huse
  have hframe : ∀ p, Frame (pWait p) s.sched k := by
    intro p
    refine schedStep_frame h.queues huse (pWait_ne_runq p) ?_ ?_ ?_ hk
    · intro he
      have := hqueue _ he
      unfold pWait at this
      omega
    · rintro rfl
      cases hother
    · intro t _ ht hst
      rw [(h.onWait p t ht).2.2] at hst
      cases hst
  exact ⟨k, hk, hq, hframe, (schedStep_runq h.queues huse hk).notLost fun p hp =>
    .inl ((hframe p).mem_iff.mpr hp)⟩

end

end

/-! ## 3. What a step does -/

/-- `do_waitpid(pid, ..)` gets to its loop. -/
def Accepts (t : ProcTable) (cur : Nat) (pid : Int) : Prop :=
  (t.proc cur).pChildren ≠ [] ∧
    (pid = -1 ∨ 0 < pid ∧ ∃ p ∈ procLookup t pid, (t.proc p).pPproc = some cur)
deriving Decidable

/-- What `do_waitpid(pid, ..)` returns if it does not. -/
def refusal (t : ProcTable) (cur : Nat) (pid : Int) : Int :=
  if (t.proc cur).pChildren = [] ∨ 0 < pid then -echild else pid

section
variable {t : ProcTable} {cur : Nat} {pid : Int} {k : Nat → Bool}

theorem doWaitpid_accepts (h : Accepts t cur pid) :
    doWaitpid t cur pid k = waitpidScan t cur k := by
  obtain ⟨hc, hpid⟩ := h
  rw [doWaitpid, if_neg (by simpa using hc)]
  obtain rfl | ⟨hpos, p, hp, hpar⟩ := hpid
  · rfl
  · have hpp : (t.proc p).pPid = pid := by simpa using find?_some hp
    rw [if_neg (by omega), if_pos hpos]
    simp [Option.mem_def.mp hp, hpar, hpp]

theorem doWaitpid_refuses (h : ¬ Accepts t cur pid) :
    doWaitpid t cur pid k = .ok (t, .returned (refusal t cur pid) none) := by
  unfold doWaitpid refusal
  by_cases hc : (t.proc cur).pChildren = []
  · rw [if_pos (by simpa using hc), if_pos (.inl hc)]
  rw [if_neg (by simpa using hc)]
  have hne : pid ≠ -1 := fun he => h ⟨hc, .inl he⟩
  rw [if_neg hne]
  by_cases hpos : 0 < pid
  · rw [if_pos hpos, if_pos (.inr hpos)]
    match hp : procLookup t pid with
    | none => rfl
    | some p =>
      have hpar : (t.proc p).pPproc ≠ some cur := fun he => h ⟨hc, .inr ⟨hpos, p, hp, he⟩⟩
      exact if_pos hpar
  · rw [if_neg hpos, if_neg (by tauto)]

end

/-- The call is a round of `do_waitpid(pid, ..)`. -/
def ProcSys.scans (s : ProcSys) (c : ProcCall) (pid : Int) : Prop :=
  c = .waitpid pid ∧ Accepts s.tbl s.cur pid ∨ c = .rescan ∧ s.pc s.cur = .inWait pid

/-- The effect of a legal step. -/
inductive Moved (idle init : Nat) (s : ProcSys) : ProcCall → ProcSys → Prop
  | create {a n : Nat} {pid : Int}
      (tree : TreeInv idle init (({ s.tbl with nextPid := n }).created s.cur a pid))
      (hpid : (∃ k : Nat, pid = (k : Int) ∧ k < procMaxCount ∧ s.tbl.usesPid k = false) ∨
        pid = -1 ∧ ∀ k < procMaxCount, s.tbl.usesPid k = true) :
      Moved idle init s (.create a) { s with
        tbl := ({ s.tbl with nextPid := n }).created s.cur a pid
        sched := kthreadCreate s.sched a
        pc := update s.pc a .user
        serial := update s.serial a s.nserial
        nserial := s.nserial + 1 }
  | exit {status : Int} {k : Sched} (queues : QInv none k) (fewer : Fewer s.sched k)
      (notLost : NotLost s.sched k) :
      Moved idle init s (.exit status)
        { s with sched := k, pc := update s.pc s.cur (.exiting status) }
  | finish {status : Int} {t : ProcTable} {k : Sched} (exiting : s.pc s.cur = .exiting status)
      (tree : TreeInv idle init t) (exited : ExitedTo s.cur init status s.tbl t)
      (queues : QInv none k) (frame : ∀ p, Frame (pWait p) s.sched k)
      (notLost : NotLost s.sched k) :
      Moved idle init s .finish { s with
        tbl := t
        sched := k
        pc := update s.pc s.cur .gone
        exits := s.exits ++ [⟨s.serial s.cur, (s.tbl.proc s.cur).pPid, status⟩] }
  | refused {pid : Int} (no : ¬ Accepts s.tbl s.cur pid) :
      Moved idle init s (.waitpid pid) { s with pc := update s.pc s.cur .user }
  | reaped {call : ProcCall} {pid : Int} {c : Nat} (scan : s.scans call pid)
      (found : deadChild s.tbl s.cur = some c) :
      Moved idle init s call { s with
        tbl := s.tbl.reap s.cur c
        pc := update s.pc s.cur .user
        reports := s.reports ++ [⟨s.serial c, (s.tbl.proc c).pPid, (s.tbl.proc c).pStatus⟩] }
  | slept {call : ProcCall} {pid : Int} {k : Sched} (scan : s.scans call pid)
      (found : deadChild s.tbl s.cur = none) (queues : QInv none k)
      (self : k.tqList (pWait s.cur) = [s.cur]) (asleep : (k.kthread s.cur).ktState = .sleep)
      (frame : ∀ p, p ≠ s.cur → Frame (pWait p) s.sched k) (notLost : NotLost s.sched k) :
      Moved idle init s call
        { s with sched := k, pc := update s.pc s.cur (.inWait pid) }
  | other {c : SchedCall} {k : Sched} (queues : QInv none k)
      (frame : ∀ p, Frame (pWait p) s.sched k) (notLost : NotLost s.sched k) :
      Moved idle init s (.sched c) { s with sched := k }

/-- An assertion fails: `proc_cleanup` by a process that got no pid, or `do_waitpid` on a dead child
whose thread is not `KT_EXITED`. -/
def ProcSys.trips (s : ProcSys) (c : ProcCall) : Prop :=
  (∃ status, c = .exit status) ∧ (s.tbl.proc s.cur).pPid < 1 ∨
  (∃ pid, s.scans c pid) ∧ ∃ d, deadChild s.tbl s.cur = some d ∧ s.ktExited d = false

section
variable {s s' : ProcSys} {idle init : Nat} {c : ProcCall}

section
variable (h : SysInv idle init s)
include h

/-- **A round of `do_waitpid`** frees a dead child, sleeps, or finds a dead child whose thread has
not exited. -/
theorem SysInv.scan (hr : s.sched.running) (hscan : s.scans c pid) :
    (∃ s', waitpidScan s.tbl s.cur s.ktExited >>= s.settle pid = .ok s' ∧ Moved idle init s c s') ∨
    (∃ e, waitpidScan s.tbl s.cur s.ktExited >>= s.settle pid = .error e) ∧ s.trips c := by
  match hd : deadChild s.tbl s.cur with
  | none =>
    obtain ⟨k, hk, hq, hself, hasleep, hframe, hlost⟩ := h.sleepThread hr
    refine .inl ⟨_, ?_, .slept hscan hd hq hself hasleep hframe hlost⟩
    simp [waitpidScan, hd, ProcSys.settle, hk]
  | some d =>
    match hk : s.ktExited d with
    | false =>
      refine .inr ⟨⟨.kassert "KT_EXITED == pThread->kt_state", ?_⟩, .inr ⟨⟨pid, hscan⟩, d, hd, hk⟩⟩
      simp [waitpidScan, hd, kassert, hk]
    | true =>
      refine .inl ⟨_, ?_, .reaped hscan hd⟩
      simp [waitpidScan, hd, ProcSys.settle, ProcSys.reported, hk]

/-- **A legal step** has one of these effects, or an assertion fails. -/
theorem procStep_cases (hc : ProcLegal idle init s c) :
    (∃ s', procStep s c = .ok s' ∧ Moved idle init s c s') ∨
    (∃ e, procStep s c = .error e) ∧ s.trips c := by
  cases c with
  | create a =>
    obtain ⟨hr, hpc, hu, ha⟩ := hc
    obtain ⟨hcur, hrun⟩ := h.live (p := s.cur) (by simp [hpc])
    obtain ⟨n, pid, heq, htree, hpid⟩ := procCreate_spec h.tree hcur hrun ha
    refine .inl ⟨_, ?_, .create htree hpid⟩
    simp [procStep, heq]
  | exit status =>
    obtain ⟨hr, hpc, hidle, hinit⟩ := hc
    obtain ⟨hcur, hrun⟩ := h.live (p := s.cur) (by simp [hpc])
    obtain ⟨par, -, hpar⟩ := h.tree.parent s.cur hcur hidle
    obtain ⟨k, r, hk, hw, hq, hf, hlost⟩ := h.exitThread hr par
    by_cases hpid : 1 ≤ (s.tbl.proc s.cur).pPid
    · refine .inl ⟨_, ?_, .exit hq hf hlost⟩
      simp [procStep, hk, cleanupStart, h.tree.initproc, hpid, hpar, hw]
    · refine .inr ⟨⟨.kassert "1 <= curproc->p_pid", ?_⟩, .inl ⟨⟨status, rfl⟩, Int.not_le.mp hpid⟩⟩
      simp [procStep, hk, cleanupStart, h.tree.initproc, kassert, hpid]
  | finish =>
    obtain ⟨hr, hpc⟩ := hc
    match hst : s.pc s.cur, hpc with
    | .exiting status, _ =>
      obtain ⟨hcur, hrun⟩ := h.live (p := s.cur) (by simp [hst])
      obtain ⟨hidle, hinit⟩ := h.exiting s.cur (by simp [hst, ProcPc.isExiting])
      obtain ⟨t, heq, htree, hex⟩ := cleanupFinish_spec h.tree hcur hinit hidle status
      obtain ⟨k, hk, hq⟩ := switchAway_ok h.queues
      have hframe : ∀ p, Frame (pWait p) s.sched k := fun p =>
        frame_switchAway (pWait_ne_runq p) hk
      refine .inl ⟨_, ?_, .finish hst htree hex hq hframe
        ((runq_switchAway hk).notLost fun p hp => .inl ((hframe p).mem_iff.mpr hp))⟩
      simp [procStep, hst, heq, schedSwitch, hk]
  | waitpid pid =>
    obtain ⟨hr, hpc⟩ := hc
    by_cases ha : Accepts s.tbl s.cur pid
    · rw [procStep, doWaitpid_accepts ha]
      exact h.scan hr (.inl ⟨rfl, ha⟩)
    · refine .inl ⟨_, ?_, .refused ha⟩
      simp [procStep, doWaitpid_refuses ha, ProcSys.settle, ProcSys.reported]
  | rescan =>
    obtain ⟨hr, hpc⟩ := hc
    match hst : s.pc s.cur, hpc with
    | .inWait pid, _ =>
      have hscan := h.scan hr (.inr ⟨rfl, hst⟩)
      simp only [procStep, hst]
      exact hscan
  | sched c =>
    obtain ⟨k, hk, hq, hf, hlost⟩ := h.otherCall hc
    refine .inl ⟨_, ?_, .other hq hf hlost⟩
    simp [procStep, hk]

theorem procStep_moved (hc : ProcLegal idle init s c) (hs : procStep s c = .ok s') :
    Moved idle init s c s' := by
  obtain ⟨u, hu, hm⟩ | ⟨⟨e, he⟩, -⟩ := procStep_cases h hc
  · rw [hs] at hu
    cases hu
    exact hm
  · rw [hs] at he
    cases he

/-! ## 4. Steps keep the invariant -/

/-- The program counter of the current process, which is in the table, is set to another point of
its code. -/
theorem SysInv.setPc (hcur : s.pc s.cur ≠ .gone) (hx : x ≠ .gone) (p : Nat) :
    update s.pc s.cur x p ≠ .gone ↔ s.tbl.live p := by
  by_cases hp : p = s.cur
  · rw [hp, update_self]
    exact ⟨fun _ => h.live hcur, fun _ => hx⟩
  · rw [update_of_ne hp]
    exact h.pcs p

/-- A process that sleeps on its `p_wait` does not run, so its program counter stays. -/
theorem SysInv.setPc_waiting (hr : s.sched.running) (hp : s.waiting p) :
    update s.pc s.cur x p = s.pc p :=
  update_of_ne (fun he => h.cur_not_waiting hr _ (he ▸ hp)) _ _

end

/-- What is set at `cur` holds there, and what held elsewhere holds still. -/
theorem setPc_exiting (hcur : x.isExiting = true → s.cur ≠ idle ∧ s.cur ≠ init)
    (h : SysInv idle init s) (p : Nat) (hp : (update s.pc s.cur x p).isExiting = true) :
    p ≠ idle ∧ p ≠ init := by
  by_cases he : p = s.cur
  · rw [he, update_self] at hp
    exact he ▸ hcur hp
  · rw [update_of_ne he] at hp
    exact h.exiting p hp

theorem SysInv.scans_legal (hc : ProcLegal idle init s c) (hscan : s.scans c pid) :
    s.sched.running ∧ s.pc s.cur ≠ .gone := by
  obtain ⟨rfl, -⟩ | ⟨rfl, hpc⟩ := hscan
  · exact ⟨hc.1, by simp [hc.2]⟩
  · exact ⟨hc.1, by simp [hpc]⟩

theorem SysInv.create_ne_cur {a : Nat} (h : SysInv idle init s)
    (hc : ProcLegal idle init s (.create a)) :
    a ≠ s.cur := by
  rintro rfl
  exact hc.2.2.2 (h.live (by simp [hc.2.1])).1

/-- **A step keeps the invariant.** -/
theorem SysInv.moved (h : SysInv idle init s) (hc : ProcLegal idle init s c)
    (hm : Moved idle init s c s') : SysInv idle init s' := by
  cases hm with
  | @create a n pid tree hpid =>
    have hne := h.create_ne_cur hc
    obtain ⟨hr, hpc, hu, ha⟩ := hc
    obtain ⟨hq, hframe⟩ := h.createThread hu
    refine ⟨hq, tree, fun p => ?_, fun p hp => ?_,
      h.onWait_of_fewer (Frame.fewer fun p => hframe _) fun p hp => ?_⟩
    · by_cases hpa : p = a
      · subst hpa
        refine ⟨fun _ => ⟨mem_created.mpr (.inr rfl), ?_⟩, fun _ => by simp⟩
        rw [created_self hne]
      · rw [live_created hne hpa]
        change update s.pc a .user p ≠ .gone ↔ _
        rw [update_of_ne hpa]
        exact h.pcs p
    · by_cases hpa : p = a
      · rw [hpa] at hp
        simp [ProcPc.isExiting] at hp
      · change (update s.pc a .user p).isExiting = true at hp
        rw [update_of_ne hpa] at hp
        exact h.exiting p hp
    · refine update_of_ne ?_ _ _
      rintro rfl
      exact h.queues.placed.none_iff.mp (h.queues.unused_loose hu) _ hp
  | exit queues fewer notLost =>
    obtain ⟨hr, hpc, hidle, hinit⟩ := hc
    exact ⟨queues, h.tree, h.setPc (by simp [hpc]) (by simp),
      setPc_exiting (fun _ => ⟨hidle, hinit⟩) h,
      h.onWait_of_fewer fewer fun p hp => h.setPc_waiting hr hp⟩
  | finish exiting tree exited queues frame notLost =>
    refine ⟨queues, tree, fun p => ?_, setPc_exiting (fun hf => (nomatch hf)) h,
      h.onWait_of_fewer (Frame.fewer frame) fun p hp => h.setPc_waiting hc.1 hp⟩
    rw [exited.live_iff]
    by_cases hp : p = s.cur
    · simp [hp]
    · change update s.pc s.cur .gone p ≠ .gone ↔ _
      rw [update_of_ne hp, h.pcs p]
      exact (and_iff_left hp).symm
  | refused no =>
    obtain ⟨hr, hpc⟩ := hc
    exact ⟨h.queues, h.tree, h.setPc (by simp [hpc]) (by simp),
      setPc_exiting (fun hf => (nomatch hf)) h,
      h.onWait_of_fewer (fun _ _ ht => ⟨ht, rfl⟩) fun p hp => h.setPc_waiting hr hp⟩
  | reaped scan found =>
    obtain ⟨hr, hpc⟩ := SysInv.scans_legal hc scan
    obtain ⟨hmem, hdead⟩ := deadChild_spec found
    exact ⟨h.queues, h.tree.reap hmem hdead,
      fun p => (h.setPc hpc (by simp) p).trans (live_reap h.tree.nodup hdead p).symm,
      setPc_exiting (fun hf => (nomatch hf)) h,
      h.onWait_of_fewer (fun _ _ ht => ⟨ht, rfl⟩) fun p hp => h.setPc_waiting hr hp⟩
  | slept scan found queues self asleep frame notLost =>
    obtain ⟨hr, hpc⟩ := SysInv.scans_legal hc scan
    refine ⟨queues, h.tree, h.setPc hpc (by simp), setPc_exiting (fun hf => (nomatch hf)) h,
      fun p t ht => ?_⟩
    by_cases hp : p = s.cur
    · subst hp
      change t ∈ _ at ht
      rw [self] at ht
      obtain rfl := mem_singleton.mp ht
      exact ⟨rfl, by simp [ProcPc.isInWait], asleep⟩
    · have hm := (frame p hp).mem_iff.mp ht
      obtain ⟨rfl, hin, hst⟩ := h.onWait p t hm
      change t = t ∧ (update s.pc s.cur _ t).isInWait = true ∧ _
      rw [update_of_ne hp]
      exact ⟨rfl, hin, ((frame t hp).state t hm).trans hst⟩
  | other queues frame notLost =>
    exact ⟨queues, h.tree, h.pcs, h.exiting, h.onWait_of_fewer (Frame.fewer frame) fun _ _ => rfl⟩

end

/-! ## 5. Boot -/

/-- What `bootSys` comes to. -/
def bootState (idle init : Nat) : ProcSys where
  tbl := ⟨bootProc idle init, [idle, init], some init, 2⟩
  sched := bootSched idle
  pc := fun p => if p = idle ∨ p = init then .user else .gone
  serial := fun p => if p = idle then 0 else 1
  nserial := 2
  exits := []
  reports := []

theorem bootSys_eq (hne : idle ≠ init) : bootSys idle init = .ok (bootState idle init) := by
  rw [bootSys, bootTable_eq hne]
  rfl

theorem SysInv.boot {s : ProcSys} (hne : idle ≠ init) (hboot : bootSys idle init = .ok s) :
    SysInv idle init s := by
  rw [bootSys_eq hne] at hboot
  cases hboot
  refine ⟨.boot idle, .boot hne, fun p => ?_, fun p hp => ?_, fun p t ht => by cases ht⟩
  · change (if p = idle ∨ p = init then ProcPc.user else .gone) ≠ .gone ↔
      p ∈ [idle, init] ∧ (bootProc idle init p).pState = .running
    rw [bootProc_running]
    split <;> simp_all
  · change (if p = idle ∨ p = init then ProcPc.user else .gone).isExiting = true at hp
    split at hp <;> cases hp

end Weenix.Proc
