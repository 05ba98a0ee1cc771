/-
# The exit status of a process: runs

`exit_status` is the result: from every state that can be reached, the status that a process ends
with is the one that `p_status` holds and `do_waitpid` reports, and the pointer is not read through,
exactly when the process ends in `do_exit`.  The three other ways read an `int` through the pointer.

Any process but idle may end here, also init, after which the process tree is not the one of
`TreeInv`: what is left is `Kin`.  `Effect` lists what a step does to the table, the program
counters and the reports; `Tracked` follows one process that has exited through it.
-/
import Weenix.Proc.ExitStatus
import Weenix.Proc.ProcReap

namespace Weenix.Proc

open List Option ProcTable

variable {v : Int} {mem : KernMem} {k p : Nat} {x : ProcPc} {retval : BitVec 32}

/-! ## 1. Memory -/

theorem bytes_append (v : BitVec 32) :
    v.extractLsb' 24 8 ++ v.extractLsb' 16 8 ++ v.extractLsb' 8 8 ++ v.extractLsb' 0 8 = v := by
  ext i hi
  simp only [BitVec.getElem_append, BitVec.getElem_extractLsb']
  grind

theorem loadInt_storeInt (m : KernMem) (a v : BitVec 32) : loadInt (storeInt m a v) a = .ok v := by
  have h0 : storeInt m a v a = some (v.extractLsb' 0 8) := by simp [storeInt]
  have h1 : storeInt m a v (a + 1) = some (v.extractLsb' 8 8) := by simp [storeInt]
  have h2 : storeInt m a v (a + 2) = some (v.extractLsb' 16 8) := by simp [storeInt]
  have h3 : storeInt m a v (a + 3) = some (v.extractLsb' 24 8) := by simp [storeInt]
  simp only [loadInt, h0, h1, h2, h3]
  rw [bytes_append]

/-! ## 2. Parents and children -/

/-- The lists of children fit the parents, and every process but idle has a parent. -/
structure Kin (idle : Nat) (t : ProcTable) : Prop where
  nodup : t.procList.Nodup
  children : Placement.Noted (fun p => (t.proc p).pChildren) t.parentOf
  initproc : t.procInitproc.isSome = true
  parent : ∀ p ∈ t.procList, p ≠ idle → (t.proc p).pPproc.isSome = true

/-- The process `p` has died with this status, and nothing else has happened to any. -/
structure Died (p : Nat) (status : Int) (t t' : ProcTable) : Prop where
  procList : t'.procList = t.procList
  self : (t'.proc p).pState = .dead ∧ (t'.proc p).pStatus = status
  others : ∀ q, q ≠ p → (t'.proc q).pState = (t.proc q).pState ∧
    (t'.proc q).pStatus = (t.proc q).pStatus

section
variable {t t' : ProcTable} {idle p i child cur a d q : Nat} {rest : List Nat} {pid status : Int}

theorem Kin.of_child (h : Kin idle t) (hd : d ∈ (t.proc p).pChildren) :
    d ∈ t.procList ∧ (t.proc d).pPproc = some p :=
  parentOf_eq_some.mp (h.children.mem p d hd)

/-- A child has one parent. -/
theorem Kin.parent_unique (h : Kin idle t) (hp : d ∈ (t.proc p).pChildren)
    (hq : d ∈ (t.proc q).pChildren) : p = q :=
  some.inj ((h.of_child hp).2.symm.trans (h.of_child hq).2)

theorem Kin.created (h : Kin idle t) (hcur : cur ∈ t.procList) (ha : a ∉ t.procList) :
    Kin idle (t.created cur a pid) := by
  have hne : a ≠ cur := fun he => ha (he ▸ hcur)
  have hno : ∀ q, a ∉ (t.proc q).pChildren := fun q hm => ha (h.of_child hm).1
  refine ⟨?_, ?_, h.initproc, fun q hq hidle => ?_⟩
  · exact nodup_append.mpr ⟨h.nodup, nodup_singleton a,
      fun x hx y hy he => ha (mem_singleton.mp hy ▸ he ▸ hx)⟩
  · refine h.children.insert hno (fun r hr => ?_) ?_ (parentOf_created_self hne)
      fun u hu => parentOf_created hne hu
    · by_cases hra : r = a
      · rw [hra, created_self hne]
        exact nil_sublist _
      · rw [created_ne hra hr]
    · rw [created_cur hne]
      exact perm_append_singleton a _
  · by_cases hqa : q = a
    · rw [hqa, created_self hne]
      rfl
    · obtain ⟨l, hl⟩ := @created_old t cur a q pid hqa hne
      rw [hl]
      exact h.parent q ((mem_created.mp hq).resolve_right hqa) hidle

theorem moveChild_pChildren : ((t.moveChild p i child rest).proc q).pChildren =
      if q = i then (if p = i then rest else (t.proc i).pChildren) ++ [child]
      else if q = p then rest else (t.proc q).pChildren := by
  simp only [ProcTable.moveChild, ProcTable.modify, update_apply]
  grind

theorem moveChild_pPproc : ((t.moveChild p i child rest).proc q).pPproc =
    if q = child then some i else (t.proc q).pPproc := by
  simp only [ProcTable.moveChild, ProcTable.modify, update_apply]
  split_ifs <;> simp_all

theorem moveChild_state : ((t.moveChild p i child rest).proc q).pState = (t.proc q).pState ∧
    ((t.moveChild p i child rest).proc q).pStatus = (t.proc q).pStatus := by
  simp only [ProcTable.moveChild, ProcTable.modify, update_apply]
  split_ifs <;> simp_all

theorem Kin.moveChild (h : Kin idle t) (hl : (t.proc p).pChildren = child :: rest) :
    Kin idle (t.moveChild p i child rest) := by
  have hmem : child ∈ (t.proc p).pChildren := hl ▸ .head _
  -- in between the child is on no list; `p` may be `i`
  have hmid : Placement.Noted (fun q => if q = p then rest else (t.proc q).pChildren)
      t.parentOf := by
    refine h.children.shrink (fun r => ?_) fun _ _ _ => rfl
    split
    · next hr =>
      rw [hr, hl]
      exact sublist_cons_self ..
    · exact .refl _
  have hno : ∀ r, child ∉ if r = p then rest else (t.proc r).pChildren := by
    intro r hm
    split at hm
    · have hnodup : (t.proc p).pChildren.Nodup := h.children.nodup p
      rw [hl] at hnodup
      exact (nodup_cons.mp hnodup).1 hm
    · next hr => exact hr (h.parent_unique hm hmem)
  refine ⟨h.nodup, hmid.insert (q := i) hno (fun r hr => ?_) ?_ ?_ fun u hu => ?_, h.initproc,
    fun q hq hidle => ?_⟩
  · rw [moveChild_pChildren, if_neg hr]
  · rw [moveChild_pChildren, if_pos rfl]
    simp only [eq_comm (a := i)]
    exact perm_append_singleton child _
  · rw [parentOf_of_mem (t := t.moveChild p i child rest) (h.of_child hmem).1, moveChild_pPproc,
      if_pos rfl]
  · change (if u ∈ t.procList then _ else none) = if u ∈ t.procList then _ else none
    rw [moveChild_pPproc, if_neg hu]
  · rw [moveChild_pPproc]
    split
    · rfl
    · exact h.parent q hq hidle

/-- **The loop over the children**, if it ends. -/
theorem reparentLoop_kin : ∀ (fuel : Nat) {t : ProcTable}, Kin idle t →
    reparentLoop p i fuel t = .ok t' → Kin idle t' ∧ t'.procList = t.procList ∧
      ∀ q, (t'.proc q).pState = (t.proc q).pState ∧ (t'.proc q).pStatus = (t.proc q).pStatus := by
  intro fuel t h hs
  fun_induction reparentLoop p i fuel t with
  | case1 fuel t hl =>
    cases hs
    exact ⟨h, rfl, fun _ => ⟨rfl, rfl⟩⟩
  | case2 t child rest hl => cases hs
  | case3 t child rest hl fuel ih =>
    obtain ⟨hk, hlist, hst⟩ := ih (h.moveChild hl) hs
    refine ⟨hk, hlist, fun q => ?_⟩
    have hm := @moveChild_state t p i child q rest
    exact ⟨(hst q).1.trans hm.1, (hst q).2.trans hm.2⟩

theorem reparentLoop_ends (hpi : p ≠ i ∨ (t.proc p).pChildren = []) : ∀ (fuel : Nat),
    (t.proc p).pChildren.length ≤ fuel → ∃ t', reparentLoop p i fuel t = .ok t' := by
  intro fuel hle
  fun_induction reparentLoop p i fuel t with
  | case1 fuel t hl => exact ⟨t, rfl⟩
  | case2 t child rest hl =>
    rw [hl] at hle
    cases hle
  | case3 t child rest hl fuel ih =>
    have hne : p ≠ i := hpi.resolve_right fun he => by
      rw [he] at hl
      cases hl
    have hch : ((t.moveChild p i child rest).proc p).pChildren = rest := by
      rw [moveChild_pChildren, if_neg hne, if_pos rfl]
    rw [hl, length_cons] at hle
    exact ih (.inl hne) (by rw [hch]; omega)

theorem Kin.die (h : Kin idle t) (status : Int) :
    Kin idle (t.modify p fun r => { r with pState := .dead, pStatus := status }) := by
  have hrel := @dead_kin t p status
  refine ⟨h.nodup, h.children.shrink (fun q => ?_) fun _ u _ => parentOf_dead u, h.initproc,
    fun q hq hidle => ?_⟩
  · rw [(hrel q).2]
  · rw [(hrel q).1]
    exact h.parent q hq hidle

/-- **The rest of `proc_cleanup`**, if it ends. -/
theorem cleanupFinish_died (h : Kin idle t) (hs : cleanupFinish t p status = .ok t') :
    Kin idle t' ∧ Died p status t t' := by
  obtain ⟨i, hi⟩ := isSome_iff_exists.mp h.initproc
  rw [cleanupFinish, hi] at hs
  obtain ⟨t₁, ht₁, hs⟩ := bind_eq_ok hs
  obtain ⟨-, -, hs⟩ := bind_eq_ok hs
  cases hs
  obtain ⟨hk, hlist, hst⟩ := reparentLoop_kin _ h ht₁
  refine ⟨hk.die status, hlist, ?_, fun q hq => ?_⟩
  · simp [ProcTable.modify]
  · simp [ProcTable.modify, hq, hst q]

theorem cleanupFinish_ends (h : Kin idle t) (hp : p ∈ t.procList) (hidle : p ≠ idle)
    (hinit : t.procInitproc = some p → (t.proc p).pChildren = []) :
    ∃ t', cleanupFinish t p status = .ok t' := by
  obtain ⟨i, hi⟩ := isSome_iff_exists.mp h.initproc
  have hpi : p ≠ i ∨ (t.proc p).pChildren = [] := by
    by_cases he : p = i
    · exact .inr (hinit (he ▸ hi))
    · exact .inl he
  obtain ⟨t₁, ht₁⟩ := reparentLoop_ends hpi _ le_rfl
  obtain ⟨hk, hlist, -⟩ := reparentLoop_kin _ h ht₁
  have hpar := (hk.die (p := p) status).parent p (hlist ▸ hp) hidle
  refine ⟨t₁.modify p fun r => { r with pState := .dead, pStatus := status }, ?_⟩
  simp only [cleanupFinish, hi, ht₁, ok_bind, kassert_of hpar, pure_eq_ok]

theorem Kin.reap (h : Kin idle t) (hd : d ∈ (t.proc cur).pChildren) : Kin idle (t.reap cur d) := by
  have hno : ∀ q, d ∉ ((t.reap cur d).proc q).pChildren := by
    intro q hm
    by_cases hq : q = cur
    · subst hq
      rw [reap_cur] at hm
      exact (h.children.nodup q).not_mem_erase hm
    · rw [reap_ne hq] at hm
      exact hq (h.parent_unique hm hd)
  refine ⟨h.nodup.sublist erase_sublist, h.children.shrink (fun r => ?_) fun r u hu =>
    parentOf_reap h.nodup fun he => hno r (he ▸ hu), h.initproc, fun q hq hidle => ?_⟩
  · by_cases hr : r = cur
    · rw [hr, reap_cur]
      exact erase_sublist
    · rw [reap_ne hr]
  · obtain ⟨l, hl⟩ := @reap_cases t d cur q
    rw [hl]
    exact h.parent q ((mem_reap h.nodup).mp hq).2 hidle

theorem procCreate_created (hi : t.procInitproc.isSome = true)
    (hs : procCreate t (some cur) a = .ok t') :
    ∃ n j pid, j.isSome = true ∧
      t' = ({ t with nextPid := n, procInitproc := j }).created cur a pid := by
  obtain ⟨r, hr, hs⟩ := bind_eq_ok hs
  have hr1 : ∃ n, r.1 = { t with nextPid := n } := by
    obtain ⟨o, -, ho⟩ := bind_eq_ok hr
    cases o with
    | none =>
      cases ho
      exact ⟨t.nextPid, rfl⟩
    | some pid =>
      cases ho
      exact ⟨_, rfl⟩
  obtain ⟨n, hn⟩ := hr1
  rw [hn] at hs
  obtain ⟨-, -, hs⟩ := bind_eq_ok hs
  by_cases hpid : r.2 = pidInit
  · refine ⟨n, some a, r.2, rfl, ?_⟩
    simp only [hpid, if_true, isNone_some, Bool.false_eq_true, and_false, if_false] at hs
    obtain ⟨-, -, hs⟩ := bind_eq_ok hs
    cases hs
    rw [hpid]
    rfl
  · refine ⟨n, t.procInitproc, r.2, hi, ?_⟩
    simp only [hpid, if_false, false_and] at hs
    obtain ⟨-, -, hs⟩ := bind_eq_ok hs
    cases hs
    rfl

end

/-! ## 3. What a step does -/

/-- What the steps keep, init gone or not. -/
structure ExitInv (idle : Nat) (s : ProcSys) : Prop where
  queues : QInv none s.sched
  kin : Kin idle s.tbl
  pcs : ∀ p, s.pc p ≠ .gone → s.tbl.live p
  exiting : s.pc idle ≠ .gone ∧ (s.pc idle).isExiting = false
  serials : Serials s.tbl s.serial s.nserial
  reports : ∀ r ∈ s.reports, r.serial < s.nserial ∧ ∀ p ∈ s.tbl.procList, s.serial p ≠ r.serial

/-- The effect of a step on the table, the program counters and the reports. -/
inductive Effect (idle : Nat) (s : ProcSys) : ProcSys → Prop
  | create {a n : Nat} {j : Option Nat} {pid : Int} {k : Sched} (fresh : a ∉ s.tbl.procList)
      (cur : s.cur ∈ s.tbl.procList) (initproc : j.isSome = true) (queues : QInv none k) :
      Effect idle s { s with
        tbl := ({ s.tbl with nextPid := n, procInitproc := j }).created s.cur a pid
        sched := k
        pc := update s.pc a .user
        serial := update s.serial a s.nserial
        nserial := s.nserial + 1 }
  | exit {status : Int} {k : Sched} (user : s.pc s.cur = .user) (notIdle : s.cur ≠ idle)
      (queues : QInv none k) :
      Effect idle s { s with sched := k, pc := update s.pc s.cur (.exiting status) }
  | finish {status : Int} {t : ProcTable} {k : Sched} (exiting : s.pc s.cur = .exiting status)
      (kin : Kin idle t) (died : Died s.cur status s.tbl t) (queues : QInv none k) :
      Effect idle s { s with
        tbl := t
        sched := k
        pc := update s.pc s.cur .gone
        exits := s.exits ++ [⟨s.serial s.cur, (s.tbl.proc s.cur).pPid, status⟩] }
  | waits {x : ProcPc} {k : Sched} (here : s.pc s.cur ≠ .gone)
      (notExiting : (s.pc s.cur).isExiting = false) (there : x ≠ .gone)
        (stays : x.isExiting = false)
      (queues : QInv none k) :
      Effect idle s { s with sched := k, pc := update s.pc s.cur x }
  | reaped {d : Nat} (here : s.pc s.cur ≠ .gone) (notExiting : (s.pc s.cur).isExiting = false)
      (found : deadChild s.tbl s.cur = some d) :
      Effect idle s { s with
        tbl := s.tbl.reap s.cur d
        pc := update s.pc s.cur .user
        reports := s.reports ++ [⟨s.serial d, (s.tbl.proc d).pPid, (s.tbl.proc d).pStatus⟩] }
  | other {k : Sched} (queues : QInv none k) : Effect idle s { s with sched := k }

section
variable {s s' : ProcSys} {idle init : Nat} {c : ProcCall} {status : Int}

section
variable (h : ExitInv idle s)
include h

/-- **The first half of an exit.** -/
theorem procStep_exit_effect (hr : s.sched.running) (hu : s.pc s.cur = .user)
    (hi : s.cur ≠ idle) (hs : procStep s (.exit status) = .ok s') :
    Effect idle s s' ∧ 1 ≤ (s.tbl.proc s.cur).pPid ∧
      s' = { s with sched := s'.sched, pc := update s.pc s.cur (.exiting status) } := by
  obtain ⟨k, hk, hs⟩ := bind_eq_ok hs
  obtain ⟨par, hpar, hs⟩ := bind_eq_ok hs
  obtain ⟨r, hw, hs⟩ := bind_eq_ok hs
  cases hs
  obtain ⟨k', hk', hq⟩ := schedStep_spec h.queues (c := .exit) hr
  cases hk.symm.trans hk'
  obtain ⟨-, -, hpar⟩ := bind_eq_ok hpar
  obtain ⟨_, hpid, -⟩ := bind_eq_ok hpar
  have hq' : QInv none r.1 := by
    obtain ⟨-, he⟩ | ⟨l, t, -, he, hq'⟩ := schedWakeupOn_spec hq (pWait_ne_runq par)
    · rw [he] at hw
      cases hw
      exact hq
    · rw [he] at hw
      cases hw
      exact hq'
  exact ⟨.exit hu hi hq', by simpa using kassert_eq_ok hpid, rfl⟩

theorem procStep_exit_ends (hr : s.sched.running) (hu : s.pc s.cur = .user)
    (hi : s.cur ≠ idle) (hpid : 1 ≤ (s.tbl.proc s.cur).pPid) (status : Int) :
    ∃ s', procStep s (.exit status) = .ok s' := by
  obtain ⟨k, hk, hq⟩ := schedStep_spec h.queues (c := .exit) hr
  have hcur := (h.pcs s.cur (by simp [hu])).1
  obtain ⟨par, hpar⟩ := isSome_iff_exists.mp (h.kin.parent s.cur hcur hi)
  have hk' : kthreadExit s.sched = .ok k := hk
  have hw : ∃ r, schedWakeupOn k (pWait par) = .ok r := by
    obtain ⟨-, he⟩ | ⟨l, t, -, he, -⟩ := schedWakeupOn_spec hq (pWait_ne_runq par)
    · exact ⟨_, he⟩
    · exact ⟨_, he⟩
  obtain ⟨r, hr⟩ := hw
  refine ⟨{ s with sched := r.1, pc := update s.pc s.cur (.exiting status) }, ?_⟩
  simp [procStep, hk', cleanupStart, h.kin.initproc, hpid, hpar, hr]

theorem settle_effect (hr : s.sched.running) (here : s.pc s.cur ≠ .gone)
    (hne : (s.pc s.cur).isExiting = false) {pid : Int}
    (hs : waitpidScan s.tbl s.cur s.ktExited >>= s.settle pid = .ok s') : Effect idle s s' := by
  obtain ⟨r, hscan, hs⟩ := bind_eq_ok hs
  cases hd : deadChild s.tbl s.cur with
  | none =>
    rw [waitpidScan, hd] at hscan
    cases hscan
    obtain ⟨k, hk, hs⟩ := bind_eq_ok hs
    cases hs
    have hq := h.queues.sleepOn hr.2 (pWait_ne_runq s.cur) (.inl rfl)
    have hsw := (schedSleepOn_eq h.queues hr.2).symm.trans hk
    exact .waits here hne (by simp) rfl (hq.switchAway hsw)
  | some d =>
    rw [waitpidScan, hd] at hscan
    obtain ⟨-, -, hscan⟩ := bind_eq_ok hscan
    cases hscan
    simp only [ProcSys.settle, ProcSys.reported, hd, toList, map_cons, map_nil] at hs
    cases hs
    exact .reaped here hne hd

/-- **Every other call.** -/
theorem procStep_effect (hc : ProcLegal idle init s c) (hx : c.plain = true)
    (hs : procStep s c = .ok s') : Effect idle s s' := by
  cases c with
  | create a =>
    obtain ⟨hr, hpc, hu, ha⟩ := hc
    obtain ⟨t, ht, hs⟩ := bind_eq_ok hs
    cases hs
    obtain ⟨n, j, pid, hj, rfl⟩ := procCreate_created h.kin.initproc ht
    exact .create ha (h.pcs s.cur (by simp [hpc])).1 hj (h.queues.newThread hu (.inl rfl) false)
  | exit status => cases hx
  | finish =>
    obtain ⟨hr, hpc⟩ := hc
    cases hst : s.pc s.cur with
    | exiting status =>
      simp only [procStep, hst] at hs
      obtain ⟨t, ht, hs⟩ := bind_eq_ok hs
      obtain ⟨k, hk, hs⟩ := bind_eq_ok hs
      cases hs
      obtain ⟨hkin, hdied⟩ := cleanupFinish_died h.kin ht
      exact .finish hst hkin hdied (h.queues.switchAway hk)
    | _ => simp [hst, ProcPc.isExiting] at hpc
  | waitpid pid =>
    obtain ⟨hr, hpc⟩ := hc
    have here : s.pc s.cur ≠ .gone := by simp [hpc]
    have hne : (s.pc s.cur).isExiting = false := by simp [hpc, ProcPc.isExiting]
    by_cases ha : Accepts s.tbl s.cur pid
    · rw [procStep, doWaitpid_accepts ha] at hs
      exact settle_effect h hr here hne hs
    · simp only [procStep, doWaitpid_refuses ha, ok_bind, ProcSys.settle, ProcSys.reported,
        append_nil] at hs
      cases hs
      exact .waits here hne (by simp) rfl h.queues
  | rescan =>
    obtain ⟨hr, hpc⟩ := hc
    cases hst : s.pc s.cur with
    | inWait pid =>
      simp only [procStep, hst] at hs
      exact settle_effect h hr (by simp [hst]) (by simp [hst, ProcPc.isExiting]) hs
    | _ => simp [hst, ProcPc.isInWait] at hpc
  | sched c =>
    obtain ⟨k, hk, hs⟩ := bind_eq_ok hs
    cases hs
    obtain ⟨k', hk', hq⟩ := schedStep_spec h.queues hc.1
    cases hk.symm.trans hk'
    exact .other hq

theorem ExitInv.pcs_update (here : s.pc s.cur ≠ .gone) (p : Nat)
    (hp : update s.pc s.cur x p ≠ .gone) : s.tbl.live p := by
  by_cases hpc : p = s.cur
  · exact h.pcs p (hpc ▸ here)
  · rw [update_of_ne hpc] at hp
    exact h.pcs p hp

theorem ExitInv.idle_update {a : Nat} (hx : idle = a → x ≠ .gone ∧ x.isExiting = false) :
    update s.pc a x idle ≠ .gone ∧ (update s.pc a x idle).isExiting = false := by
  by_cases he : idle = a
  · subst he
    rw [update_self]
    exact hx rfl
  · rw [update_of_ne he]
    exact h.exiting

/-- **A step keeps the invariant.** -/
theorem ExitInv.effect (he : Effect idle s s') : ExitInv idle s' := by
  cases he with
  | @create a n j pid k fresh cur initproc queues =>
    have hne : a ≠ s.cur := fun he => fresh (he ▸ cur)
    have hkin : Kin idle { s.tbl with nextPid := n, procInitproc := j } :=
      ⟨h.kin.nodup, h.kin.children, initproc, h.kin.parent⟩
    have hser : Serials { s.tbl with nextPid := n, procInitproc := j } s.serial s.nserial :=
      ⟨h.serials.lt, h.serials.inj⟩
    refine ⟨queues, hkin.created cur fresh, fun p hp => ?_,
      h.idle_update fun _ => ⟨by simp, rfl⟩, hser.created fresh, fun r hr => ?_⟩
    · by_cases hpa : p = a
      · rw [hpa]
        exact ⟨mem_created.mpr (.inr rfl), by rw [created_self hne]⟩
      · change update s.pc a .user p ≠ .gone at hp
        rw [update_of_ne hpa] at hp
        exact (live_created hne hpa).mpr (h.pcs p hp)
    · obtain ⟨hlt, hno⟩ := h.reports r hr
      refine ⟨Nat.lt_succ_of_lt hlt, fun p hp => ?_⟩
      change update s.serial a s.nserial p ≠ _
      by_cases hpa : p = a
      · rw [hpa, update_self]
        exact hlt.ne'
      · rw [update_of_ne hpa]
        exact hno p ((mem_created.mp hp).resolve_right hpa)
  | exit user notIdle queues =>
    exact ⟨queues, h.kin, h.pcs_update (by simp [user]),
      h.idle_update fun he => absurd he.symm notIdle, h.serials, h.reports⟩
  | finish exiting kin died queues =>
    have hne : idle ≠ s.cur := by
      intro he
      have := h.exiting.2
      rw [he, exiting] at this
      cases this
    refine ⟨queues, kin, fun p hp => ?_, h.idle_update fun he => absurd he hne,
      ⟨fun p hp => h.serials.lt p (died.procList ▸ hp), fun p hp q hq =>
        h.serials.inj p (died.procList ▸ hp) q (died.procList ▸ hq)⟩,
      fun r hr => ⟨(h.reports r hr).1, fun p hp => (h.reports r hr).2 p (died.procList ▸ hp)⟩⟩
    have hpc : p ≠ s.cur := fun he => hp (by rw [he]; exact update_self ..)
    obtain ⟨hm, hrun⟩ := h.pcs_update (by simp [exiting]) p hp
    exact ⟨died.procList ▸ hm, (died.others p hpc).1.trans hrun⟩
  | waits here notExiting there stays queues =>
    exact ⟨queues, h.kin, h.pcs_update here, h.idle_update fun _ => ⟨there, stays⟩,
      h.serials, h.reports⟩
  | @reaped d here notExiting found =>
    obtain ⟨hmem, hdead⟩ := deadChild_spec found
    have hsub : ∀ {p}, p ∈ (s.tbl.reap s.cur d).procList → p ∈ s.tbl.procList := fun hp =>
      ((mem_reap h.kin.nodup).mp hp).2
    refine ⟨h.queues, h.kin.reap hmem, fun p hp =>
      (live_reap h.kin.nodup hdead p).mpr (h.pcs_update here p hp),
      h.idle_update fun _ => ⟨by simp, rfl⟩, ⟨fun p hp => h.serials.lt p (hsub hp),
      fun p hp q hq => h.serials.inj p (hsub hp) q (hsub hq)⟩, fun r hr => ?_⟩
    obtain hr | hr := mem_append.mp hr
    · exact ⟨(h.reports r hr).1, fun p hp => (h.reports r hr).2 p (hsub hp)⟩
    · have hd := (h.kin.of_child hmem).1
      rw [mem_singleton.mp hr]
      exact ⟨h.serials.lt d hd, fun p hp he =>
        ((mem_reap h.kin.nodup).mp hp).1 (h.serials.inj p (hsub hp) d hd he)⟩
  | other queues => exact { h with queues }

end

end

/-! ## 4. A process that has exited -/

/-- The process with serial number `k` has exited with the status `v`: it is still in
`proc_cleanup`, or `p_status` is `v`, and nothing else is reported of it. -/
structure Tracked (k : Nat) (v : Int) (s : ProcSys) : Prop where
  lt : k < s.nserial
  process : ∀ p ∈ s.tbl.procList, s.serial p = k →
    s.pc p = .exiting v ∨ s.pc p = .gone ∧ (s.tbl.proc p).pStatus = v
  reports : ∀ r ∈ s.reports, r.serial = k → r.status = v

section
variable {s s' : ProcSys} {idle k : Nat} {v : Int}

/-- A process on its own business or in `do_waitpid` is not it. -/
theorem Tracked.ne_serial (ht : Tracked k v s) (hp : p ∈ s.tbl.procList)
    (here : s.pc p ≠ .gone) (hne : (s.pc p).isExiting = false) : s.serial p ≠ k := by
  intro hk
  obtain he | ⟨he, -⟩ := ht.process p hp hk
  · rw [he] at hne
    cases hne
  · exact here he

theorem Tracked.pcs (ht : Tracked k v s) (hcur : s.serial s.cur ≠ k) (hp : p ∈ s.tbl.procList)
    (hk : s.serial p = k) :
    update s.pc s.cur x p = .exiting v ∨ update s.pc s.cur x p = .gone ∧
      (s.tbl.proc p).pStatus = v := by
  have hne : p ≠ s.cur := fun he => hcur (he ▸ hk)
  rw [update_of_ne hne]
  exact ht.process p hp hk

/-- **A step keeps track.** -/
theorem Tracked.effect (h : ExitInv idle s) (ht : Tracked k v s) (he : Effect idle s s') :
    Tracked k v s' := by
  cases he with
  | @create a n j pid q fresh cur initproc queues =>
    have hne : a ≠ s.cur := fun he => fresh (he ▸ cur)
    refine ⟨Nat.lt_succ_of_lt ht.lt, fun p hp hk => ?_, ht.reports⟩
    have hpa : p ≠ a := by
      rintro rfl
      change update s.serial p s.nserial p = k at hk
      rw [update_self] at hk
      exact absurd hk ht.lt.ne'
    change update s.serial a s.nserial p = k at hk
    rw [update_of_ne hpa] at hk
    obtain ⟨l, hl⟩ :=
      @created_old { s.tbl with nextPid := n, procInitproc := j } s.cur a p pid hpa hne
    change update s.pc a .user p = _ ∨ update s.pc a .user p = _ ∧ _
    rw [update_of_ne hpa, hl]
    exact ht.process p ((mem_created.mp hp).resolve_right hpa) hk
  | exit user notIdle queues =>
    have hcur := ht.ne_serial (h.pcs s.cur (by simp [user])).1 (by simp [user])
      (by simp [user, ProcPc.isExiting])
    exact ⟨ht.lt, fun p hp hk => ht.pcs hcur hp hk, ht.reports⟩
  | @finish status t q exiting kin died queues =>
    refine ⟨ht.lt, fun p hp hk => ?_, ht.reports⟩
    rw [died.procList] at hp
    by_cases hpc : p = s.cur
    · subst hpc
      refine .inr ⟨update_self .., died.self.2.trans ?_⟩
      obtain he | ⟨he, -⟩ := ht.process s.cur hp hk
      · rw [exiting] at he
        injection he
      · rw [exiting] at he
        cases he
    · change update s.pc s.cur .gone p = _ ∨ update s.pc s.cur .gone p = _ ∧ _
      rw [update_of_ne hpc, (died.others p hpc).2]
      exact ht.process p hp hk
  | waits here notExiting there stays queues =>
    have hcur := ht.ne_serial (h.pcs s.cur here).1 here notExiting
    exact ⟨ht.lt, fun p hp hk => ht.pcs hcur hp hk, ht.reports⟩
  | @reaped d here notExiting found =>
    have hcur := ht.ne_serial (h.pcs s.cur here).1 here notExiting
    obtain ⟨hmem, hdead⟩ := deadChild_spec found
    refine ⟨ht.lt, fun p hp hk => ?_, fun r hr hk => ?_⟩
    · obtain ⟨l, hl⟩ := @reap_cases s.tbl d s.cur p
      rw [hl]
      exact ht.pcs hcur ((mem_reap h.kin.nodup).mp hp).2 hk
    · obtain hr | hr := mem_append.mp hr
      · exact ht.reports r hr hk
      rw [mem_singleton.mp hr] at hk ⊢
      -- the child that was freed is dead, so it is through with `proc_cleanup`
      obtain he | ⟨-, he⟩ := ht.process d (h.kin.of_child hmem).1 hk
      · have := (h.pcs d (by simp [he])).2
        rw [hdead] at this
        cases this
      · exact he
  | other queues => exact { ht with }

end

/-! ## 5. Runs -/

section
variable {s s' : ExitSys} {idle init : Nat}

theorem kthreadExitWith_inv (hs : kthreadExitWith s retval = .ok s') :
    ∃ status, loadInt s.mem retval = .ok status ∧
      procStep s.sys (.exit status.toInt) = .ok s'.sys ∧ s'.derefs = s.derefs ++ [retval] := by
  obtain ⟨-, -, hs⟩ := bind_eq_ok hs
  obtain ⟨status, hload, hs⟩ := bind_eq_ok hs
  obtain ⟨sys, hsys, hs⟩ := bind_eq_ok hs
  cases hs
  exact ⟨status, hload, hsys, rfl⟩

theorem kthreadExitWith_effect (h : ExitInv idle s.sys) (hm : s.mayEnd idle)
    (hs : kthreadExitWith s retval = .ok s') : Effect idle s.sys s'.sys := by
  obtain ⟨status, -, hsys, -⟩ := kthreadExitWith_inv hs
  exact (procStep_exit_effect h hm.1 hm.2.1 hm.2.2 hsys).1

/-- **A step** has one of the effects, or none. -/
theorem exitStep_effect (h : ExitInv idle s.sys) {c : ExitCall} (hc : ExitLegal idle init s c)
    (hs : exitStep s c = .ok s') : s'.sys = s.sys ∨ Effect idle s.sys s'.sys := by
  cases c with
  | ends e =>
    refine .inr ?_
    cases e with
    | doExit status slot =>
      exact kthreadExitWith_effect (s := { s with mem := storeInt s.mem slot status }) h hc.1 hs
    | returns result => exact kthreadExitWith_effect h hc.1 hs
    | thrExit args => exact kthreadExitWith_effect h hc.1 hs
    | cancelled => exact kthreadExitWith_effect h hc.1 hs
  | cancel kthr retval =>
    refine .inr ?_
    obtain ⟨hr, hawake, hself⟩ := hc
    by_cases hk : s.sys.cur = kthr
    · rw [exitStep, kthreadCancel, if_pos hk] at hs
      exact kthreadExitWith_effect h (hself hk) hs
    · rw [exitStep, kthreadCancel, if_neg hk] at hs
      obtain ⟨sys, hsys, hs⟩ := bind_eq_ok hs
      cases hs
      obtain ⟨k, hk, hsys⟩ := bind_eq_ok hsys
      cases hsys
      obtain ⟨k', hk', hq⟩ := schedStep_spec h.queues (c := .cancel kthr) hr
      cases hk.symm.trans hk'
      exact .other hq
  | writes mem =>
    cases hs
    exact .inl rfl
  | other c =>
    refine .inr ?_
    obtain ⟨hl, hp⟩ := hc
    have hsys : procStep s.sys c = .ok s'.sys := by
      cases c <;>
      · obtain ⟨sys, hsys, hs⟩ := bind_eq_ok hs
        cases hs
        exact hsys
    exact procStep_effect h hl hp hsys

theorem ExitInv.boot (hne : idle ≠ init) (hboot : bootExit idle init mem = .ok s) :
    ExitInv idle s.sys := by
  obtain ⟨sys, hsys, hs⟩ := bind_eq_ok hboot
  cases hs
  have hinv := SysInv.boot hne hsys
  have hser := (Booked.boot hne).serials
  rw [bootSys_eq hne] at hsys
  cases hsys
  have htree := hinv.tree
  refine ⟨hinv.queues,
    ⟨htree.nodup, htree.placed.noted, ?_, fun p hp hidle => ?_⟩, fun p hp => hinv.live hp, ?_, hser, fun r hr => (nomatch hr)⟩
  · rw [htree.initproc]
    rfl
  · obtain ⟨par, -, hpar⟩ := htree.parent p hp hidle
    rw [hpar]
    rfl
  · simp [bootState, ProcPc.isExiting]

theorem ExitInv.run {s₀ : ExitSys} (hne : idle ≠ init)
    (hboot : bootExit idle init mem = .ok s₀) (hr : Lts.Run (ExitLegal idle init) exitStep s₀ s) :
    ExitInv idle s.sys := by
  refine hr.invariant (I := fun s => ExitInv idle s.sys) (.boot hne hboot) fun t c u ht hc hs => ?_
  obtain he | he := exitStep_effect ht hc hs
  · exact he ▸ ht
  · exact ht.effect he

theorem Tracked.run (h : ExitInv idle s.sys) (ht : Tracked k v s.sys)
    (hr : Lts.Run (ExitLegal idle init) exitStep s s') :
    ExitInv idle s'.sys ∧ Tracked k v s'.sys := by
  refine hr.invariant (I := fun s => ExitInv idle s.sys ∧ Tracked k v s.sys) ⟨h,
    ht⟩ fun t c u ht hc hs => ?_
  obtain he | he := exitStep_effect ht.1 hc hs
  · exact he ▸ ht
  · exact ⟨ht.1.effect he, ht.2.effect ht.1 he⟩

end

/-- What is asked of an exit: the pointer is not read through, the process gets to its end, and the
integer it ends with is what `p_status` holds and what `do_waitpid` reports, whatever happens
then.  Init gets to its end if it has no children. -/
structure StatusAgrees (idle init : Nat) (s : ExitSys) (e : Ending) (s' : ExitSys) : Prop where
  unread : ∀ r, e.pointer s = some r → r ∉ s'.derefs.drop s.derefs.length
  stored : ∀ t, Lts.Run (ExitLegal idle init) exitStep s' t → ∀ p ∈ t.sys.tbl.procList,
    t.sys.serial p = s.sys.serial s.sys.cur → (t.sys.tbl.proc p).pState = .dead →
    (t.sys.tbl.proc p).pStatus = e.value s
  reported : ∀ t, Lts.Run (ExitLegal idle init) exitStep s' t → ∀ r ∈ t.sys.reports,
    r.serial = s.sys.serial s.sys.cur → r.status = e.value s
  ends : ∀ t, Lts.Run (ExitLegal idle init) exitStep s' t →
    t.sys.serial t.sys.cur = s.sys.serial s.sys.cur → ExitLegal idle init t (.other .finish) →
    (t.sys.tbl.procInitproc = some t.sys.cur → (t.sys.tbl.proc t.sys.cur).pChildren = []) →
    ∃ t', exitStep t (.other .finish) = .ok t' ∧ (t'.sys.tbl.proc t.sys.cur).pState = .dead ∧
      (t'.sys.tbl.proc t.sys.cur).pStatus = e.value s

section
variable {s s' : ExitSys} {idle init : Nat}

theorem Tracked.exit (h : ExitInv idle s.sys) (hm : s.mayEnd idle) {status : Int}
    (hs : procStep s.sys (.exit status) = .ok s'.sys) :
    Tracked (s.sys.serial s.sys.cur) status s'.sys := by
  obtain ⟨-, -, heq⟩ := procStep_exit_effect h hm.1 hm.2.1 hm.2.2 hs
  have hcur := (h.pcs s.sys.cur (by simp [hm.2.1])).1
  rw [heq]
  refine ⟨h.serials.lt _ hcur, fun p hp hk => .inl ?_, fun r hr hk => ?_⟩
  · rw [h.serials.inj p hp _ hcur hk]
    exact update_self ..
  · exact absurd hk.symm ((h.reports r hr).2 _ hcur)

/-- What follows from tracking: the process gets to its end, with this status. -/
theorem Tracked.ends (h : ExitInv idle s.sys) (ht : Tracked k v s.sys)
    (hk : s.sys.serial s.sys.cur = k) (hc : ExitLegal idle init s (.other .finish))
    (hinit : s.sys.tbl.procInitproc = some s.sys.cur → (s.sys.tbl.proc s.sys.cur).pChildren = []) :
    ∃ s', exitStep s (.other .finish) = .ok s' ∧ (s'.sys.tbl.proc s.sys.cur).pState = .dead ∧
      (s'.sys.tbl.proc s.sys.cur).pStatus = v := by
  obtain ⟨⟨hr, hpc⟩, -⟩ := hc
  have hcur := (h.pcs s.sys.cur fun he => by rw [he] at hpc; cases hpc).1
  have hst : s.sys.pc s.sys.cur = .exiting v := (ht.process _ hcur hk).resolve_right fun he => by
    rw [he.1] at hpc
    cases hpc
  have hidle : s.sys.cur ≠ idle := by
    intro he
    have := h.exiting.2
    rw [← he, hst] at this
    cases this
  obtain ⟨t, htbl⟩ := @cleanupFinish_ends _ _ _ v h.kin hcur hidle hinit
  obtain ⟨sw, hsw, -⟩ := switchAway_ok h.queues
  obtain ⟨-, hdied⟩ := cleanupFinish_died h.kin htbl
  refine ⟨{ s with sys := { s.sys with
    tbl := t
    sched := sw
    pc := update s.sys.pc s.sys.cur .gone
    exits := s.sys.exits ++ [⟨s.sys.serial s.sys.cur, (s.sys.tbl.proc s.sys.cur).pPid, v⟩] } }, ?_,
    hdied.self⟩
  simp [exitStep, procStep, hst, htbl, schedSwitch, hsw]

theorem doExit_inv {status slot : BitVec 32} (hs : doExit s status slot = .ok s') :
    procStep s.sys (.exit status.toInt) = .ok s'.sys := by
  obtain ⟨v, hload, hsys, -⟩ := kthreadExitWith_inv hs
  rw [loadInt_storeInt] at hload
  cases hload
  exact hsys

theorem doExit_ends (h : ExitInv idle s.sys) (hm : s.mayEnd idle)
    (hpid : 1 ≤ (s.sys.tbl.proc s.sys.cur).pPid) (status slot : BitVec 32) :
    ∃ s', doExit s status slot = .ok s' := by
  obtain ⟨k, hk, -⟩ := schedStep_spec h.queues (c := .exit) hm.1
  have hk' : kthreadExit s.sys.sched = .ok k := hk
  obtain ⟨sys, hsys⟩ := procStep_exit_ends h hm.1 hm.2.1 hm.2.2 hpid status.toInt
  refine ⟨⟨sys, update s.ktRetval s.sys.cur slot, storeInt s.mem slot status, s.derefs ++ [slot]⟩,
    ?_⟩
  simp [doExit, kthreadExitWith, procThreadExited, hk', loadInt_storeInt, hsys]

/-- The other three ways read through the pointer. -/
theorem pointer_read {e : Ending} {r : BitVec 32} (hr : e.pointer s = some r)
    (hs : endThread s e = .ok s') : s'.derefs = s.derefs ++ [r] := by
  cases e with
  | doExit status slot => cases hr
  | returns result | thrExit result | cancelled =>
    cases hr
    obtain ⟨-, -, -, hd⟩ := kthreadExitWith_inv hs
    exact hd

end

/-- **Exit status.**  In every state of every run from boot, an ending of the current process agrees
with what is stored and reported, and reads no memory through the pointer, exactly when it is
`do_exit`, by a process that has a pid. -/
theorem exit_status {idle init : Nat} {mem : KernMem} {s₀ s : ExitSys} (hne : idle ≠ init)
    (hboot : bootExit idle init mem = .ok s₀) (hr : Lts.Run (ExitLegal idle init) exitStep s₀ s)
    {e : Ending} (hc : ExitLegal idle init s (.ends e)) :
    (∃ s', exitStep s (.ends e) = .ok s' ∧ StatusAgrees idle init s e s') ↔
      (∃ status slot, e = .doExit status slot) ∧ 1 ≤ (s.sys.tbl.proc s.sys.cur).pPid := by
  have h := ExitInv.run hne hboot hr
  constructor
  · rintro ⟨s', hs, ha⟩
    -- an ending with a pointer reads through it
    have hdo : ∃ status slot, e = .doExit status slot := by
      cases hp : e.pointer s with
      | some r =>
        refine absurd ?_ (ha.unread r hp)
        rw [pointer_read hp hs, drop_left]
        exact mem_singleton_self r
      | none =>
        cases e with
        | doExit status slot => exact ⟨status, slot, rfl⟩
        | _ => cases hp
    refine ⟨hdo, ?_⟩
    obtain ⟨status, slot, rfl⟩ := hdo
    exact (procStep_exit_effect h hc.1.1 hc.1.2.1 hc.1.2.2 (doExit_inv hs)).2.1
  · rintro ⟨⟨status, slot, rfl⟩, hpid⟩
    obtain ⟨s', hs⟩ := doExit_ends h hc.1 hpid status slot
    have hsys := doExit_inv hs
    have ht := Tracked.exit h hc.1 hsys
    have h' := h.effect (procStep_exit_effect h hc.1.1 hc.1.2.1 hc.1.2.2 hsys).1
    refine ⟨s', hs, fun r hr => (nomatch hr), fun t htr p hp hk hdead => ?_, fun t htr => ?_,
      fun t htr hk hl hi => ?_⟩
    · obtain ⟨hinv, htrack⟩ := ht.run h' htr
      obtain he | ⟨-, he⟩ := htrack.process p hp hk
      · have := (hinv.pcs p (by simp [he])).2
        rw [hdead] at this
        cases this
      · exact he
    · exact (ht.run h' htr).2.reports
    · obtain ⟨hinv, htrack⟩ := ht.run h' htr
      exact htrack.ends hinv hk hl hi

/-- One page is mapped, and it starts with the integer 7. -/
def onePage : KernMem := fun a =>
  if a = 0xc0001000 then some 7 else if a.toNat / 4096 = 0xc0001 then some 0 else none

/-- Init has created a process, which runs. -/
def startChild : List ExitCall :=
  [.other (.sched (.makeRunnable 20)), .other (.waitpid (-1)), .other (.create 30),
    .other (.sched (.makeRunnable 30)), .other (.sched (.makeRunnable 20)), .other (.sched .switch)]

/-- The state after boot, with that page. -/
def bootOnePage : ExitSys := ⟨bootState 10 20, fun _ => 0, onePage, []⟩

theorem bootExit_onePage : bootExit 10 20 onePage = .ok bootOnePage := by
  rw [bootExit, bootSys_eq (by decide)]
  rfl

/-- The process calls `do_exit(5)`. -/
theorem exit_status_doExit : ∃ s₀ s s', bootExit 10 20 onePage = .ok s₀ ∧
    Lts.Run (ExitLegal 10 20) exitStep s₀ s ∧ s.sys.cur = 30 ∧
    exitStep s (.ends (.doExit 5 0xc0001ffc)) = .ok s' ∧
    StatusAgrees 10 20 s (.doExit 5 0xc0001ffc) s' := by
  obtain ⟨s, hs, hcur, hlegal, hpid⟩ : ∃ s, Lts.Run (ExitLegal 10 20) exitStep bootOnePage s ∧
      s.sys.cur = 30 ∧ ExitLegal 10 20 s (.ends (.doExit 5 0xc0001ffc)) ∧
        1 ≤ (s.sys.tbl.proc s.sys.cur).pPid :=
    Lts.exists_run startChild (by decide +kernel)
  obtain ⟨s', hs', ha⟩ :=
    (exit_status (by decide) bootExit_onePage hs hlegal).mpr ⟨⟨5, _, rfl⟩, hpid⟩
  exact ⟨_, s, s', bootExit_onePage, hs, hcur, hs', ha⟩

/-- The thread function of the process returns `NULL`, and the kernel panics.  And it returns a
pointer to the integer 7, and `do_waitpid` reports 7. -/
theorem exit_status_through_pointer : (∃ s, Lts.Run (ExitLegal 10 20) exitStep bootOnePage s ∧
      ExitLegal 10 20 s (.ends (.returns 0)) ∧
      exitStep s (.ends (.returns 0)) = .error (.panic "\nPage faulted while accessing 0x%08x\n")) ∧
    ∃ s s' t, Lts.Run (ExitLegal 10 20) exitStep bootOnePage s ∧
      ExitLegal 10 20 s (.ends (.returns 0xc0001000)) ∧
      exitStep s (.ends (.returns 0xc0001000)) = .ok s' ∧
      s'.derefs = s.derefs ++ [0xc0001000] ∧
      Lts.Run (ExitLegal 10 20) exitStep s' t ∧
      t.sys.reports = [⟨s.sys.serial s.sys.cur, 2, 7⟩] ∧
      (Ending.returns 0xc0001000).value s ≠ 7 := by
  constructor
  · obtain ⟨s, hs, hlegal, hret⟩ : ∃ s, Lts.Run (ExitLegal 10 20) exitStep bootOnePage s ∧
        ExitLegal 10 20 s (.ends (.returns 0)) ∧
          (exitStep s (.ends (.returns 0))).map (fun _ => ()) =
            .error (.panic "\nPage faulted while accessing 0x%08x\n") :=
      Lts.exists_run startChild (by decide +kernel)
    exact ⟨s, hs, hlegal, error_of_map hret⟩
  · obtain ⟨s, hs, hlegal, htest⟩ : ∃ s, Lts.Run (ExitLegal 10 20) exitStep bootOnePage s ∧
        ExitLegal 10 20 s (.ends (.returns 0xc0001000)) ∧
          (exitStep s (.ends (.returns 0xc0001000))).toOption.any (fun s' =>
            s'.derefs = s.derefs ++ [0xc0001000] ∧
            (Lts.drive (ExitLegal 10 20) exitStep [.other .finish, .other (.waitpid (-1))] s').any
              (fun t => t.sys.reports = [⟨s.sys.serial s.sys.cur, 2, 7⟩]) = true) = true :=
      Lts.exists_run startChild (by decide +kernel)
    obtain ⟨s', hp, htest⟩ := ok_of_any htest
    obtain ⟨hd, htest⟩ := of_decide_eq_true htest
    obtain ⟨t, ht, htest⟩ := Lts.Run.of_drive_any htest
    have hval : (0xc0001000 : BitVec 32).toInt ≠ 7 := by decide
    exact ⟨s, s', t, hs, hlegal, hp, hd, ht, of_decide_eq_true htest, hval⟩

end Weenix.Proc
