/-
# Missed exits

`do_waitpid` sleeps on `p_wait` only after it has found no dead child, and nothing can come in
between.  So a process that is asleep there has missed an exit only if a child became dead, or was
handed over dead, while it slept, and nobody woke it up.

`proc_cleanup` wakes the parent first and sets `PROC_DEAD` last.  What it does in between may sleep,
and the parent may then look at its children, find none dead and go back to sleep.  The children of
the process go to init without a wakeup, whether they are dead or not.  `ExitHeard` says that at the
end of `proc_cleanup` neither is the case, and `no_missed_exit` that this is all there is to it.
-/
import Weenix.Proc.ProcSysInv

namespace Weenix.Proc

variable {status : Int} {d p : Nat} {t t' : ProcTable}

section
variable {s s' : ProcSys} {idle init : Nat} {c : ProcCall}

/-! ## 1. Steps -/

/-- No process is asleep on its `p_wait` while one of its children is dead. -/
def ProcSys.NoMissedExit (s : ProcSys) : Prop :=
  ∀ p, s.waiting p → ∀ d ∈ (s.tbl.proc p).pChildren, (s.tbl.proc d).pState ≠ .dead

/-- At the end of `proc_cleanup` the parent is not asleep on its `p_wait`, and init is not either
or gets no dead child. -/
def ExitHeard (init : Nat) (s : ProcSys) : ProcCall → Prop
  | .finish => (∀ par ∈ (s.tbl.proc s.cur).pPproc, ¬ s.waiting par) ∧
    (s.waiting init → deadChild s.tbl s.cur = none)
  | _ => True

instance (init : Nat) (s : ProcSys) (c : ProcCall) : Decidable (ExitHeard init s c) := by
  obtain _ | _ := c <;> unfold ExitHeard <;> infer_instance

section
variable (h : TreeInv idle init t) (hx : ExitedTo p init status t t')
include h hx

/-- A child that was not dead before and is dead after the end of `proc_cleanup` is the process
that exits, or comes from it. -/
theorem ExitedTo.dead_child {q : Nat} (hq : q ≠ p) (hd : d ∈ (t'.proc q).pChildren)
    (hdead : (t'.proc d).pState = .dead) :
    d = p ∧ d ∈ (t.proc q).pChildren ∨
    (t.proc d).pState = .dead ∧
      (d ∈ (t.proc q).pChildren ∨ q = init ∧ d ∈ (t.proc p).pChildren) := by
  have hfrom : d ∈ (t.proc q).pChildren ∨ q = init ∧ d ∈ (t.proc p).pChildren := by
    by_cases hqi : q = init
    · subst hqi
      obtain hm | hm := hx.initChildren d hd
      · exact .inl hm
      · exact .inr ⟨rfl, hm⟩
    · rw [hx.children q hq hqi] at hd
      exact .inl hd
  by_cases hdp : d = p
  · obtain hm | ⟨-, hm⟩ := hfrom
    · exact .inl ⟨hdp, hm⟩
    · exact absurd (hdp ▸ hm) h.not_own_child
  · rw [hx.state d hdp] at hdead
    exact .inr ⟨hdead, hfrom⟩

theorem ExitedTo.handed_over (h' : TreeInv idle init t') (hd : d ∈ (t.proc p).pChildren) :
    d ∈ (t'.proc init).pChildren := by
  obtain ⟨hmem, -⟩ := h.child hd
  have hidle : d ≠ idle := fun he => h.idle_not_child (he ▸ hd)
  obtain ⟨q, -, hq⟩ := h'.parent d (hx.procList ▸ hmem) hidle
  have hdq := h'.mem_children (hx.procList ▸ hmem) hq
  by_cases hqi : q = init
  · exact hqi ▸ hdq
  by_cases hqp : q = p
  · rw [hqp, hx.noChildren] at hdq
    cases hdq
  · rw [hx.children q hqp hqi] at hdq
    exact absurd (h.placed.unique hdq hd) hqp

theorem ExitedTo.still_child {par : Nat} (h' : TreeInv idle init t') (hp : p ∈ t.procList)
    (hpar : (t.proc p).pPproc = some par) : p ∈ (t'.proc par).pChildren := by
  refine h'.mem_children (hx.procList ▸ hp) ?_
  rw [hx.pproc p h.not_own_child, hpar]

end

/-- **A step misses no exit** if `ExitHeard` holds. -/
theorem SysInv.noMissedExit (h : SysInv idle init s) (hno : s.NoMissedExit)
    (hc : ProcLegal idle init s c) (hx : ExitHeard init s c) (hm : Moved idle init s c s') :
    s'.NoMissedExit := by
  intro p hp d hd
  cases hm with
  | @create a n pid tree hpid =>
    have hne := h.create_ne_cur hc
    obtain ⟨hr, hpc, hu, ha⟩ := hc
    have hw : s.waiting p := (Frame.fewer (fun p => (h.createThread hu).2 _) p p hp).1
    have hpa : p ≠ a := by
      rintro rfl
      exact h.queues.placed.none_iff.mp (h.queues.unused_loose hu) _ hw
    have hpcur : p ≠ s.cur := fun he => h.cur_not_waiting hr _ (he ▸ hw)
    rw [created_ne hpa hpcur] at hd
    have hda : d ≠ a := fun he => ha (he ▸ (h.tree.child hd).1)
    obtain ⟨l, hl⟩ := @created_old { s.tbl with nextPid := n } s.cur a d pid hda hne
    rw [hl]
    exact hno p hw d hd
  | exit queues fewer notLost => exact hno p (fewer p p hp).1 d hd
  | finish exiting tree exited queues frame notLost =>
    have hw : s.waiting p := (Frame.fewer frame p p hp).1
    have hpcur : p ≠ s.cur := fun he => h.cur_not_waiting hc.1 _ (he ▸ hw)
    intro hdead
    obtain ⟨rfl, hm⟩ | ⟨hold, hm | ⟨rfl, hm⟩⟩ := exited.dead_child h.tree hpcur hd hdead
    · exact hx.1 p (h.tree.child hm).2 hw
    · exact hno p hw d hm hold
    · have := deadChild_none (hx.2 hw) d hm
      rw [hold] at this
      cases this
  | refused no => exact hno p hp d hd
  | @reaped _ _ e scan found =>
    obtain ⟨hr, -⟩ := SysInv.scans_legal hc scan
    have hpcur : p ≠ s.cur := fun he => h.cur_not_waiting hr _ (he ▸ hp)
    rw [reap_ne hpcur] at hd
    obtain ⟨l, hl⟩ := @reap_cases s.tbl e s.cur d
    rw [hl]
    exact hno p hp d hd
  | slept scan found queues self asleep frame notLost =>
    by_cases hpcur : p = s.cur
    · have := deadChild_none found d (hpcur ▸ hd)
      change (s.tbl.proc d).pState ≠ _
      rw [this]
      decide
    · exact hno p ((frame p hpcur).mem_iff.mp hp) d hd
  | other queues frame notLost => exact hno p (Frame.fewer frame p p hp).1 d hd

/-- **Nothing less will do**: an exit that is not heard is missed. -/
theorem SysInv.missedExit (h : SysInv idle init s)
    (hx : ¬ ExitHeard init s .finish) (hm : Moved idle init s .finish s') : ¬ s'.NoMissedExit := by
  intro hno
  cases hm with
  | reaped scan _ => rcases scan with ⟨he, -⟩ | ⟨he, -⟩ <;> cases he
  | slept scan _ _ _ _ _ _ => rcases scan with ⟨he, -⟩ | ⟨he, -⟩ <;> cases he
  | finish exiting tree exited queues frame notLost =>
    obtain ⟨hcur, hrun⟩ := h.live (p := s.cur) (by simp [exiting])
    refine hx ⟨fun par hpar hw => ?_, fun hw => ?_⟩
    · exact hno par ((frame par).mem_iff.mpr hw) s.cur
        (exited.still_child h.tree tree hcur hpar) exited.self.1
    · match hd : deadChild s.tbl s.cur with
      | none => rfl
      | some d =>
        obtain ⟨hmem, hdead⟩ := deadChild_spec hd
        have hne : d ≠ s.cur := fun he => h.tree.not_own_child (he ▸ hmem)
        refine absurd ?_
          (hno init ((frame init).mem_iff.mpr hw) d (exited.handed_over h.tree tree hmem))
        rw [exited.state d hne, hdead]

end

/-! ## 2. Runs -/

/-- **No missed exit.**  In every run from boot in which every exit is heard, no process is asleep
on its `p_wait` while one of its children is dead; and the end of a `proc_cleanup` that is not
heard leads to a state where one is. -/
theorem no_missed_exit {idle init : Nat} {s₀ s : ProcSys} (hne : idle ≠ init)
    (hboot : bootSys idle init = .ok s₀)
    (hr : Lts.Run (fun s c => ProcLegal idle init s c ∧ ExitHeard init s c) procStep s₀ s) :
    (∀ p, s.waiting p → ∀ d ∈ (s.tbl.proc p).pChildren, (s.tbl.proc d).pState ≠ .dead) ∧
    ∀ s', ProcLegal idle init s .finish → ¬ ExitHeard init s .finish → procStep s .finish = .ok s' →
      ∃ p, s'.waiting p ∧ ∃ d ∈ (s'.tbl.proc p).pChildren, (s'.tbl.proc d).pState = .dead := by
  have hstart : s₀.NoMissedExit := by
    rw [bootSys_eq hne] at hboot
    cases hboot
    intro p hp
    cases hp
  obtain ⟨h, hno⟩ := hr.invariant (I := fun s => SysInv idle init s ∧ s.NoMissedExit)
    ⟨.boot hne hboot, hstart⟩ fun s c s' hs hc hstep =>
      have hm := procStep_moved hs.1 hc.1 hstep
      ⟨hs.1.moved hc.1 hm, hs.1.noMissedExit hs.2 hc.1 hc.2 hm⟩
  refine ⟨hno, fun s' hc hx hstep => ?_⟩
  have hmiss := h.missedExit hx (procStep_moved h hc hstep)
  unfold ProcSys.NoMissedExit at hmiss
  push Not at hmiss
  exact hmiss

/-- Init waits, is woken up by the exit of a child, frees it and waits for the other one. -/
theorem no_missed_exit_two_children : ∃ s₀ s, bootSys 10 20 = .ok s₀ ∧
    Lts.Run (fun s c => ProcLegal 10 20 s c ∧ ExitHeard 20 s c) procStep s₀ s ∧
    s.waiting 20 ∧ (s.tbl.proc 20).pChildren = [40] ∧ s.reports = [⟨2, 2, 5⟩] ∧
    ∀ p, s.waiting p → ∀ d ∈ (s.tbl.proc p).pChildren, (s.tbl.proc d).pState ≠ .dead := by
  have hboot := @bootSys_eq 10 20 (by decide)
  obtain ⟨s, hs, hw, hc, hrep⟩ : ∃ s, Lts.Run (fun s c => ProcLegal 10 20 s c ∧ ExitHeard 20 s c)
      procStep (bootState 10 20) s ∧
      s.waiting 20 ∧ (s.tbl.proc 20).pChildren = [40] ∧ s.reports = [⟨2, 2, 5⟩] :=
    Lts.exists_run [.sched (.makeRunnable 20), .waitpid (-1), .create 30, .create 40,
      .sched (.makeRunnable 30), .sched (.makeRunnable 40), .waitpid (-1), .exit 5, .finish,
      .sched (.makeRunnable 40), .sched .switch, .rescan, .waitpid (-1)] (by decide +kernel)
  exact ⟨_, s, hboot, hs, hw, hc, hrep, (no_missed_exit (by decide) hboot hs).1⟩

/-- Two ways to miss an exit.  A child of init wakes it up, sleeps in `proc_cleanup` and becomes
`PROC_DEAD` when init sleeps again.  And a process with a dead child exits: it wakes up its parent,
but the child goes to init, which sleeps on. -/
theorem missed_exits :
    (∃ s₀ s, bootSys 10 20 = .ok s₀ ∧ Lts.Run (ProcLegal 10 20) procStep s₀ s ∧ s.waiting 20 ∧
      30 ∈ (s.tbl.proc 20).pChildren ∧ (s.tbl.proc 30).pState = .dead) ∧
    ∃ s₀ s, bootSys 10 20 = .ok s₀ ∧ Lts.Run (ProcLegal 10 20) procStep s₀ s ∧ s.waiting 20 ∧
      50 ∈ (s.tbl.proc 20).pChildren ∧ (s.tbl.proc 50).pState = .dead := by
  have hboot := @bootSys_eq 10 20 (by decide)
  constructor
  · obtain ⟨s, hs, htest⟩ : ∃ s, Lts.Run (ProcLegal 10 20) procStep (bootState 10 20) s ∧
        s.waiting 20 ∧ 30 ∈ (s.tbl.proc 20).pChildren ∧ (s.tbl.proc 30).pState = .dead :=
      Lts.exists_run [.sched (.makeRunnable 20), .waitpid (-1), .create 30,
        .sched (.makeRunnable 30), .waitpid (-1), .exit 5, .sched (.sleepOn 4), .rescan,
        .sched (.intrWakeupOn 4), .sched .intrDone, .finish] (by decide +kernel)
    exact ⟨_, s, hboot, hs, htest⟩
  · obtain ⟨s, hs, htest⟩ : ∃ s, Lts.Run (ProcLegal 10 20) procStep (bootState 10 20) s ∧
        s.waiting 20 ∧ 50 ∈ (s.tbl.proc 20).pChildren ∧ (s.tbl.proc 50).pState = .dead :=
      Lts.exists_run [.sched (.makeRunnable 20), .waitpid (-1), .create 30,
        .sched (.makeRunnable 30), .waitpid (-1), .create 40, .sched (.makeRunnable 40),
        .sched (.makeRunnable 30), .sched .switch, .create 50, .sched (.makeRunnable 50),
        .sched (.makeRunnable 40), .sched .switch, .sched (.makeRunnable 30), .sched .switch,
        .exit 7, .finish, .exit 8, .finish] (by decide +kernel)
    exact ⟨_, s, hboot, hs, htest⟩

end Weenix.Proc
