/-
# Killing processes (`proc/proc.c`, `proc/kthread.c`, `vm/vmmap.c`)

`proc_kill(p, status)` cancels the threads of `p`, or exits if `p` is the current process.  Before
that, in either case, it goes over the open descriptors and the address space of the CURRENT
process: the loop calls `do_close(fd)` with an `fd` declared in the same statement, which has no
value yet, and `vmmap_destroy` empties the map.  `proc_kill_all` calls it for every process on
`_proc_list` but idle and the children of idle, in the order of the list, and does not come back
from the call for the caller.

The value that `do_close` gets is an argument here, one for each turn of each loop (`garbage`).
-/
import Weenix.Fs.Descriptor
import Weenix.Fs.FileInv
import Weenix.Proc.ProcTable
import Weenix.Proc.SchedInv
import Weenix.Vm.Vmmap

namespace Weenix.Proc

open Fs Vm List Option Sched

/-! ## 1. The model -/

/-- `vmmap_t` -/
structure AddressSpace where
  vmmList : List Vmarea
  vmmProc : Option Nat

/-- `vmmap_destroy`: every area is removed from the list and freed, and the map stays. -/
def vmmapDestroy (_ : AddressSpace) : AddressSpace := ⟨[], none⟩

structure KillSys where
  tbl : ProcTable
  sched : Sched
  curproc : Nat
  pThreads : Nat → List Nat
  ktRetval : Nat → BitVec 32
  fs : FileSys
  pVmmap : Nat → Option AddressSpace

/-- Whether a call came back, or the current thread left for good. -/
inductive Ctl where
  | returned
  | doExit (status : Int)
  | kthreadExit (retval : BitVec 32)
deriving DecidableEq

def KillSys.kthreadCancel (s : KillSys) (kthr : Nat) (retval : BitVec 32) :
    Except Halt (KillSys × Ctl) :=
  if s.sched.curthr = kthr then .ok (s, .kthreadExit retval)
  else do
    let sched ← schedCancel s.sched kthr
    return ({ s with ktRetval := update s.ktRetval kthr retval, sched := sched }, .returned)

/-- The loop of `proc_kill` over `p_threads`. -/
def cancelLoop : List Nat → KillSys → Except Halt (KillSys × Ctl)
  | [], s => .ok (s, .returned)
  | pThread :: threads, s => do
    match ← s.kthreadCancel pThread 0 with
    | (s, .returned) => cancelLoop threads s
    | r => return r

/-- The first half of `proc_kill`: what it does to the current process. -/
def killSelf (s : KillSys) (garbage : Nat → Int) : Except Halt KillSys := do
  let fs ← closeAll s.curproc garbage (List.range nfiles) s.fs
  return { s with
    fs := fs
    pVmmap := update s.pVmmap s.curproc ((s.pVmmap s.curproc).map vmmapDestroy) }

def procKill (s : KillSys) (p : Nat) (status : Int) (garbage : Nat → Int) :
    Except Halt (KillSys × Ctl) := do
  let s ← killSelf s garbage
  if p = s.curproc then return (s, .doExit status)
  else cancelLoop (s.pThreads p) s

/-- The loop of `proc_kill_all` over `_proc_list`. -/
def killAllLoop (garbage : Nat → Nat → Int) : List Nat → KillSys → Except Halt (KillSys × Ctl)
  | [], s => .ok (s, .returned)
  | pProc :: procs, s =>
    if (s.tbl.proc pProc).pPid = pidIdle then killAllLoop garbage procs s
    else
      match (s.tbl.proc pProc).pPproc with
      | none => .error pageFaulted
      | some pproc =>
        if (s.tbl.proc pproc).pPid = pidIdle then killAllLoop garbage procs s
        else do
          match ← procKill s pProc (s.tbl.proc pProc).pStatus (garbage pProc) with
          | (s, .returned) => killAllLoop garbage procs s
          | r => return r

def procKillAll (s : KillSys) (garbage : Nat → Nat → Int) : Except Halt (KillSys × Ctl) :=
  killAllLoop garbage s.tbl.procList s

/-! ## 2. What is asked -/

/-- The state between system calls: the queues are in order, a thread belongs to one process, and
every process but idle has a parent. -/
structure KillWf (s : KillSys) : Prop where
  queues : QInv none s.sched
  owner : ∀ p q t, t ∈ s.pThreads p → t ∈ s.pThreads q → p = q
  curThread : s.sched.curthr ∈ s.pThreads s.curproc
  listed : s.curproc ∈ s.tbl.procList
  nodup : s.tbl.procList.Nodup
  parents : ∀ p ∈ s.tbl.procList, (s.tbl.proc p).pPid ≠ pidIdle →
    ∃ q, (s.tbl.proc p).pPproc = some q

def KillSys.cancelled (s : KillSys) (t : Nat) : Prop := (s.sched.kthread t).ktCancelled = true

/-- The threads of `p` are cancelled, and the current process has the files, with their counts, and
the address space it had. -/
structure KillsOnly (s : KillSys) (p : Nat) (s' : KillSys) : Prop where
  cancelled : ∀ t ∈ s.pThreads p, s'.cancelled t
  files : ∀ i, s'.fs.pFiles (s.curproc, i) = s.fs.pFiles (s.curproc, i)
  counts : ∀ f, (s'.fs.file f).fRefcount = (s.fs.file f).fRefcount
  space : s'.pVmmap s.curproc = s.pVmmap s.curproc

/-- None of the values that `do_close` gets happens to be an open descriptor. -/
def Misses (s : KillSys) (garbage : Nat → Int) : Prop :=
  ∀ fd < nfiles, s.fs.pFiles (s.curproc, fd) ≠ none → ¬ IsOpen s.fs s.curproc (garbage fd)

/-- There is nothing for `vmmap_destroy` to do. -/
def Unmapped (s : KillSys) : Prop :=
  ∀ m, s.pVmmap s.curproc = some m → m.vmmList = [] ∧ m.vmmProc = none

/-- The processes that `proc_kill_all` is to cancel: not idle and not a child of idle. -/
def Doomed (s : KillSys) (p : Nat) : Prop :=
  (s.tbl.proc p).pPid ≠ pidIdle ∧ ∀ q, (s.tbl.proc p).pPproc = some q →
    (s.tbl.proc q).pPid ≠ pidIdle

/-! ## 3. The current process -/

section
variable {s s' : FileSys} {p : Nat} {garbage : Nat → Int}

theorem fput_same (s : FileSys) (f : Option Nat) : Yields (fput s f) (Same s) := by
  cases f with
  | none => exact .error _
  | some f =>
    refine .seq fun _ => .seq fun _ => .seq fun _ => .seq fun _ => .ite (fun _ => ?_) fun _ =>
      .pure ⟨rfl, rfl, rfl⟩
    cases (s.file f).fVnode with
    | none => exact .pure ⟨rfl, rfl, rfl⟩
    | some v =>
      refine .bind (vputFor_yields _ f v) ?_
      rintro s' ⟨vnode, rfl⟩
      exact .pure ⟨rfl, rfl, rfl⟩

/-- Closing an open descriptor, in any state: the slot is cleared and nothing else. -/
theorem doClose_open {fd : Int} (h : IsOpen s p fd) : Yields (doClose s p fd) fun r =>
    r.1.pFiles = update s.pFiles (p, fd.toNat) none := by
  obtain ⟨hvalid, hsome⟩ := h
  obtain ⟨f, hf⟩ := ne_none_iff_exists'.mp hsome
  have hv := hvalid
  unfold validFd at hv
  unfold doClose fget
  rw [if_neg (by omega), if_neg (by omega), if_neg (by omega),
    pFilesAt_of_valid hvalid, hf, ok_bind]
  refine .bind (.bind (fref_take s f) fun s₁ hs₁ =>
    .pure (Q := (· = (s.take f, some f))) (by rw [hs₁])) ?_
  rintro r rfl
  refine (fput_same _ (some f)).bind fun s₂ hs₂ => ?_
  rw [setPFiles_of_valid hvalid, ok_bind]
  refine (fput_same _ (some f)).bind fun s₃ hs₃ => .pure ?_
  rw [hs₃.pFiles]
  change update s₂.pFiles _ none = _
  rw [hs₂.pFiles]
  rfl

theorem closeAll_empty (fds : List Nat) : Yields (closeAll p garbage fds s) fun s' =>
    ∀ i, s.pFiles i = none → s'.pFiles i = none := by
  induction fds generalizing s with
  | nil => exact .ok fun _ hi => hi
  | cons fd fds ih =>
    unfold closeAll
    cases s.pFiles (p, fd) with
    | none => exact ih
    | some f =>
      by_cases hopen : IsOpen s p (garbage fd)
      · refine (doClose_open hopen).bind fun r hr => ih.imp fun s' hs' i hi => hs' i ?_
        rw [hr, update_apply, hi]
        split <;> rfl
      · rw [doClose_bad hopen, ok_bind]
        exact ih

theorem closeAll_misses (fds : List Nat)
    (h : ∀ fd ∈ fds, s.pFiles (p, fd) ≠ none → ¬ IsOpen s p (garbage fd)) :
    closeAll p garbage fds s = .ok s := by
  induction fds with
  | nil => rfl
  | cons fd fds ih =>
    obtain ⟨hfd, hfds⟩ := forall_mem_cons.mp h
    unfold closeAll
    cases hslot : s.pFiles (p, fd) with
    | none => exact ih hfds
    | some f =>
      rw [doClose_bad (hfd (by simp [hslot])), ok_bind]
      exact ih hfds

theorem closeAll_hits (fds : List Nat) (hs : closeAll p garbage fds s = .ok s')
    (hsame : ∀ i, s'.pFiles (p, i) = s.pFiles (p, i)) :
    ∀ fd ∈ fds, s.pFiles (p, fd) ≠ none → ¬ IsOpen s p (garbage fd) := by
  induction fds with
  | nil => exact fun _ hfd => (nomatch hfd)
  | cons fd fds ih =>
    unfold closeAll at hs
    cases hslot : s.pFiles (p, fd) with
    | none =>
      simp only [hslot] at hs
      refine forall_mem_cons.mpr ⟨fun hne => absurd hslot hne, ih hs⟩
    | some f =>
      simp only [hslot] at hs
      by_cases hopen : IsOpen s p (garbage fd)
      · obtain ⟨r, hr, hs⟩ := bind_eq_ok hs
        have hcleared : r.1.pFiles (p, (garbage fd).toNat) = none := by
          rw [doClose_open hopen r hr, update_self]
        have hgone := closeAll_empty fds s' hs _ hcleared
        rw [hsame] at hgone
        exact absurd hgone hopen.2
      · rw [doClose_bad hopen, ok_bind] at hs
        exact forall_mem_cons.mpr ⟨fun _ => hopen, ih hs⟩

end

/-! ## 4. The threads -/

section
variable {s s' : KillSys} {p t : Nat} {garbage : Nat → Int}

theorem schedCancel_flags {s : Sched} (h : QInv none s) (t : Nat) : ∃ s', schedCancel s t = .ok s' ∧
    QInv none s' ∧ s'.curthr = s.curthr ∧ (s'.kthread t).ktCancelled = true ∧
    ∀ u, u ≠ t → (s'.kthread u).ktCancelled = (s.kthread u).ktCancelled := by
  obtain ⟨-, heq⟩ | ⟨q, -, hmem, -, heq⟩ := schedCancel_spec h t
  · refine ⟨_, heq, h.setCancelled t, rfl, by simp [setThread], fun u hu => ?_⟩
    simp [setThread, hu]
  · refine ⟨_, heq, (h.setCancelled t).requeue hmem, rfl, ?_, fun u hu => ?_⟩
    · simp [setThread, put, link, unlink]
    · simp [setThread, put, link, unlink, hu]

/-- What cancelling threads changes: flags, and what goes with them. -/
structure Cancels (ts : List Nat) (s s' : KillSys) : Prop where
  queues : QInv none s'.sched
  curthr : s'.sched.curthr = s.sched.curthr
  flags : ∀ t, s'.cancelled t ↔ t ∈ ts ∨ s.cancelled t
  rest : s' = { s with sched := s'.sched, ktRetval := s'.ktRetval }

theorem cancelLoop_cancels (ts : List Nat) (h : QInv none s.sched) (hcur : s.sched.curthr ∉ ts) :
    ∃ s', cancelLoop ts s = .ok (s', .returned) ∧ Cancels ts s s' := by
  induction ts generalizing s with
  | nil => exact ⟨s, rfl, h, rfl, fun t => by simp, rfl⟩
  | cons t ts ih =>
    obtain ⟨hne, hcur⟩ := not_or.mp (mt mem_cons.mpr hcur)
    obtain ⟨sched, heq, h₁, hcur₁, hflag, hflags⟩ := schedCancel_flags h t
    set s₁ : KillSys := { s with ktRetval := update s.ktRetval t 0, sched := sched } with hs₁
    have hcancel : s.kthreadCancel t 0 = .ok (s₁, .returned) := by
      rw [KillSys.kthreadCancel, if_neg hne, heq]
      rfl
    obtain ⟨s', hs', hc⟩ := ih (s := s₁) h₁ (by rw [← hcur₁] at hcur; exact hcur)
    refine ⟨s', by rw [cancelLoop, hcancel]; exact hs', hc.queues, hc.curthr.trans hcur₁,
      fun u => ?_, hc.rest⟩
    rw [hc.flags, mem_cons]
    unfold KillSys.cancelled
    by_cases hu : u = t
    · subst hu
      simp [hs₁, hflag]
    · simp [hs₁, hflags u hu, hu]

theorem killSelf_rest : Yields (killSelf s garbage) fun s' =>
    s' = { s with fs := s'.fs, pVmmap := s'.pVmmap } := .seq fun _ => .pure rfl

theorem killSelf_misses (h : Misses s garbage) : killSelf s garbage = .ok { s with
    pVmmap := update s.pVmmap s.curproc ((s.pVmmap s.curproc).map vmmapDestroy) } := by
  have hclose := closeAll_misses (range nfiles) fun fd hfd => h fd (mem_range.mp hfd)
  rw [killSelf, hclose]
  rfl

theorem map_vmmapDestroy {o : Option AddressSpace} :
    o.map vmmapDestroy = o ↔ ∀ m, o = some m → m.vmmList = [] ∧ m.vmmProc = none := by
  cases o with
  | none => simp
  | some m =>
    obtain ⟨areas, proc⟩ := m
    simp only [map_some, vmmapDestroy, some.injEq, AddressSpace.mk.injEq, forall_eq']
    exact and_congr eq_comm eq_comm

/-- Killing another process returns once the first half did. -/
theorem procKill_other (hwf : KillWf s) (hp : p ≠ s.curproc) (status : Int) {s₁ : KillSys}
    (hself : killSelf s garbage = .ok s₁) :
    ∃ s', procKill s p status garbage = .ok (s', .returned) ∧ Cancels (s.pThreads p) s₁ s' := by
  have hrest := killSelf_rest _ hself
  have hcur : s.sched.curthr ∉ s.pThreads p := fun hmem =>
    hp (hwf.owner _ _ _ hmem hwf.curThread)
  rw [procKill, hself, ok_bind]
  rw [hrest] at *
  rw [if_neg hp]
  exact cancelLoop_cancels _ hwf.queues hcur

end

/-! ## 5. The list -/

/-- What `proc_kill_all` has come to: the processes in `seen` are dealt with. -/
structure Progress (seen : List Nat) (s s₁ : KillSys) : Prop where
  queues : QInv none s₁.sched
  curthr : s₁.sched.curthr = s.sched.curthr
  tbl : s₁.tbl = s.tbl
  curproc : s₁.curproc = s.curproc
  pThreads : s₁.pThreads = s.pThreads
  flags : ∀ t, s₁.cancelled t ↔ s.cancelled t ∨ ∃ p ∈ seen, p ≠ s.curproc ∧ Doomed s p ∧
    t ∈ s.pThreads p

section
variable {s s₁ s₂ : KillSys} {seen : List Nat} {p : Nat} {garbage : Nat → Nat → Int}

section
variable (h : Progress seen s s₁)
include h

theorem Progress.wf (hwf : KillWf s) : KillWf s₁ where
  queues := h.queues
  owner := h.pThreads ▸ hwf.owner
  curThread := by rw [h.curthr, h.pThreads, h.curproc]; exact hwf.curThread
  listed := by rw [h.curproc, h.tbl]; exact hwf.listed
  nodup := h.tbl ▸ hwf.nodup
  parents := h.tbl ▸ hwf.parents

theorem Progress.spare (hp : ¬ Doomed s p) : Progress (seen ++ [p]) s s₁ := by
  refine { h with flags t := (h.flags t).trans (or_congr_right ?_) }
  constructor
  · rintro ⟨q, hq, hrest⟩
    exact ⟨q, mem_append_left _ hq, hrest⟩
  · rintro ⟨q, hq, hne, hd, ht⟩
    obtain hq | hq := mem_append.mp hq
    · exact ⟨q, hq, hne, hd, ht⟩
    · exact absurd (mem_singleton.mp hq ▸ hd) hp

theorem Progress.killSelf {g : Nat → Int} (hs : killSelf s₁ g = .ok s₂) : Progress seen s s₂ := by
  have hrest := killSelf_rest _ hs
  rw [hrest]
  exact { h with }

theorem Progress.cancels (hne : p ≠ s.curproc) (hp : Doomed s p)
    (hc : Cancels (s.pThreads p) s₁ s₂) :
    Progress (seen ++ [p]) s s₂ := by
  have hrest := hc.rest
  refine ⟨hc.queues, hc.curthr.trans h.curthr, ?_, ?_, ?_, fun t => ?_⟩
  · rw [hrest]
    exact h.tbl
  · rw [hrest]
    exact h.curproc
  · rw [hrest]
    exact h.pThreads
  · rw [hc.flags, h.flags]
    constructor
    · rintro (ht | ht | ⟨q, hq, hq'⟩)
      · exact .inr ⟨p, by simp, hne, hp, ht⟩
      · exact .inl ht
      · exact .inr ⟨q, mem_append_left _ hq, hq'⟩
    · rintro (ht | ⟨q, hq, hqne, hd, ht⟩)
      · exact .inr (.inl ht)
      · obtain hq | hq := mem_append.mp hq
        · exact .inr (.inr ⟨q, hq, hqne, hd, ht⟩)
        · exact .inl (mem_singleton.mp hq ▸ ht)

end

/-- The loop deals with the whole list, or it gets to the caller and stays there. -/
theorem killAllLoop_yields (hwf : KillWf s) (ps : List Nat) (h : Progress seen s s₁) :
    Yields (killAllLoop garbage ps s₁) fun r =>
      (r.2 = .returned ∧ (Doomed s s.curproc → s.curproc ∉ ps) ∧ Progress (seen ++ ps) s r.1) ∨
      ∃ pre post, ps = pre ++ s.curproc :: post ∧ Doomed s s.curproc ∧
        r.2 = .doExit (s.tbl.proc s.curproc).pStatus ∧ Progress (seen ++ pre) s r.1 := by
  induction ps generalizing seen s₁ with
  | nil => exact .ok (.inl ⟨rfl, fun _ => not_mem_nil, by simpa using h⟩)
  | cons p ps ih =>
    -- what is known of the rest, once `p` is dealt with
    have hnext : ∀ {s₂}, (Doomed s s.curproc → s.curproc ≠ p) → Progress (seen ++ [p]) s s₂ →
        Yields (killAllLoop garbage ps s₂) fun r =>
          (r.2 = .returned ∧ (Doomed s s.curproc → s.curproc ∉ p :: ps) ∧
            Progress (seen ++ p :: ps) s r.1) ∨
          ∃ pre post, p :: ps = pre ++ s.curproc :: post ∧ Doomed s s.curproc ∧
            r.2 = .doExit (s.tbl.proc s.curproc).pStatus ∧ Progress (seen ++ pre) s r.1 := by
      intro s₂ hne h₂
      refine (ih h₂).imp ?_
      rintro r (⟨hr, hcur, hprog⟩ | ⟨pre, post, rfl, hd, hr, hprog⟩)
      · refine .inl ⟨hr, fun hd => not_mem_cons_of_ne_of_not_mem (hne hd) (hcur hd), ?_⟩
        simpa using hprog
      · exact .inr ⟨p :: pre, post, rfl, hd, hr, by simpa using hprog⟩
    have hspare : ¬ Doomed s p → _ := fun hp => hnext (fun hd he => hp (he ▸ hd)) (h.spare hp)
    unfold killAllLoop
    rw [h.tbl]
    refine .ite (fun hidle => hspare fun hd => hd.1 hidle) fun hidle => ?_
    cases hpar : (s.tbl.proc p).pPproc with
    | none => exact .error _
    | some q =>
      refine .ite (fun hq => hspare fun hd => hd.2 q hpar hq) fun hq => ?_
      have hd : Doomed s p := ⟨hidle, fun q' hq' => by cases hpar.symm.trans hq'; exact hq⟩
      refine .bind (Q := fun r => procKill s₁ p (s.tbl.proc p).pStatus (garbage p) = .ok r)
        (fun r hr => hr) fun r hr => ?_
      obtain ⟨s₂, hself, -⟩ := bind_eq_ok hr
      have h₂ := h.killSelf hself
      by_cases hcur : p = s.curproc
      · rw [procKill, hself, ok_bind, h₂.curproc, if_pos hcur] at hr
        cases hr
        subst hcur
        exact .pure (.inr ⟨[], ps, rfl, hd, rfl, by simpa using h₂⟩)
      · have hcur₁ : p ≠ s₁.curproc := h.curproc.symm ▸ hcur
        obtain ⟨s₃, heq, hc⟩ := procKill_other (h.wf hwf) hcur₁ _ hself
        cases heq.symm.trans hr
        rw [h.pThreads] at hc
        exact hnext (fun _ he => hcur he.symm) (h₂.cancels hcur hd hc)

/-- If no descriptor is hit, nothing on the way stops the loop. -/
theorem killAllLoop_returns (hwf : KillWf s) (hm : ∀ p, Misses s (garbage p)) (ps : List Nat)
    (hps : ∀ p ∈ ps, p ∈ s.tbl.procList) (h : Progress seen s s₁) (hfs : s₁.fs = s.fs) :
    ∃ r, killAllLoop garbage ps s₁ = .ok r := by
  induction ps generalizing seen s₁ with
  | nil => exact ⟨_, rfl⟩
  | cons p ps ih =>
    obtain ⟨hp, hps⟩ := forall_mem_cons.mp hps
    unfold killAllLoop
    rw [h.tbl]
    split
    next hidle => exact ih hps (h.spare fun hd => hd.1 hidle) hfs
    next hidle =>
      obtain ⟨q, hq⟩ := hwf.parents p hp hidle
      rw [hq]
      simp only
      split
      next hqidle => exact ih hps (h.spare fun hd => hd.2 q hq hqidle) hfs
      next hqidle =>
        have hd : Doomed s p := ⟨hidle, fun q' hq' => by cases hq.symm.trans hq'; exact hqidle⟩
        have hm₁ : Misses s₁ (garbage p) := by
          unfold Misses
          rw [hfs, h.curproc]
          exact hm p
        have hself := killSelf_misses hm₁
        by_cases hcur : p = s₁.curproc
        · rw [procKill, hself, ok_bind, if_pos hcur]
          exact ⟨_, rfl⟩
        · obtain ⟨s₃, heq, hc⟩ := procKill_other (h.wf hwf) hcur (s.tbl.proc p).pStatus hself
          rw [heq, ok_bind]
          refine ih hps ((h.killSelf hself).cancels (h.curproc ▸ hcur) hd ?_) ?_
          · rw [← h.pThreads]
            exact hc
          · rw [hc.rest]
            exact hfs

end

/-- Where the caller is on the list does not matter to who is cancelled, unless it is to go too:
then those after it must have been cancelled before. -/
def CallerLast (s : KillSys) : Prop :=
  Doomed s s.curproc → ∀ pre post, s.tbl.procList = pre ++ s.curproc :: post →
    ∀ p ∈ post, Doomed s p → ∀ t ∈ s.pThreads p, s.cancelled t

/-- `proc_kill_all` has cancelled every process it is for, the caller apart. -/
def AllCancelled (s s' : KillSys) : Prop :=
  ∀ p ∈ s.tbl.procList, p ≠ s.curproc → Doomed s p → ∀ t ∈ s.pThreads p, s'.cancelled t

theorem Progress.allCancelled {s s' : KillSys} (h : Progress s.tbl.procList s s') :
    AllCancelled s s' := fun p hp hne hd t ht => (h.flags t).mpr (.inr ⟨p, hp, hne, hd, ht⟩)

/-- The loop stopped at the caller, and a process behind it is as it was. -/
theorem Progress.allCancelled_iff {s s' : KillSys} (hwf : KillWf s) {pre post : List Nat}
    (hsplit : s.tbl.procList = pre ++ s.curproc :: post) (hd : Doomed s s.curproc)
    (h : Progress pre s s') : AllCancelled s s' ↔ CallerLast s := by
  have hnodup := hwf.nodup
  rw [hsplit] at hnodup
  obtain ⟨-, hnodup, hapart⟩ := nodup_append.mp hnodup
  have hcur := (nodup_cons.mp hnodup).1
  constructor
  · intro hall _ pre' post' hsplit' p hp hdp t ht
    have hnotin : s.curproc ∉ pre := fun hmem => hapart _ hmem _ (.head _) rfl
    obtain ⟨-, -, rfl⟩ := (append_cons_inj_of_notMem hnotin hcur).mp (hsplit.symm.trans hsplit')
    have hmem : p ∈ s.tbl.procList := by rw [hsplit]; simp [hp]
    have hne : p ≠ s.curproc := fun he => hcur (he ▸ hp)
    obtain ht' | ⟨q, hq, -, -, htq⟩ := (h.flags t).mp (hall p hmem hne hdp t ht)
    · exact ht'
    · cases hwf.owner _ _ _ ht htq
      exact absurd rfl (hapart p hq p (.tail _ hp))
  · intro hlast p hp hne hdp t ht
    rw [hsplit, mem_append, mem_cons] at hp
    obtain hp | rfl | hp := hp
    · exact (h.flags t).mpr (.inr ⟨p, hp, hne, hdp, ht⟩)
    · exact absurd rfl hne
    · exact (h.flags t).mpr (.inl (hlast hd pre post hsplit p hp hdp t ht))

theorem Progress.start {s : KillSys} (hwf : KillWf s) : Progress [] s s :=
  ⟨hwf.queues, rfl, rfl, rfl, rfl, fun t => by simp⟩

/-- **Killing.**  `proc_kill` of another process does what it should exactly when no garbage
value hits an open descriptor and the current process has nothing mapped; `proc_kill_all`
returns if nothing is hit, and whenever it gets to its end or to the exit of the caller, every
process it is for has been cancelled exactly when the caller is spared or those behind it had
been cancelled before. -/
theorem proc_kill_frame {s : KillSys} (hwf : KillWf s) : (∀ p status garbage, p ≠ s.curproc →
      ((∃ s', procKill s p status garbage = .ok (s', .returned) ∧ KillsOnly s p s') ↔
        Misses s garbage ∧ Unmapped s)) ∧
    (∀ garbage, (∀ p, Misses s (garbage p)) → ∃ r, procKillAll s garbage = .ok r) ∧
    ∀ garbage s' ctl, procKillAll s garbage = .ok (s', ctl) →
      (ctl = .returned ∧ ¬ Doomed s s.curproc ∨
        ctl = .doExit (s.tbl.proc s.curproc).pStatus ∧ Doomed s s.curproc) ∧
      (AllCancelled s s' ↔ CallerLast s) := by
  refine ⟨fun p status garbage hp => ⟨?_, ?_⟩, fun garbage hm => ?_, fun garbage s' ctl hs => ?_⟩
  · rintro ⟨s', hs, honly⟩
    obtain ⟨s₁, hself, -⟩ := bind_eq_ok hs
    obtain ⟨s₂, heq, hc⟩ := procKill_other hwf hp status hself
    cases heq.symm.trans hs
    obtain ⟨fs, hclose, hfs⟩ := bind_eq_ok hself
    cases hfs
    have hrest := hc.rest
    refine ⟨fun fd hfd => ?_, ?_⟩
    · refine closeAll_hits (range nfiles) hclose (fun i => ?_) fd (mem_range.mpr hfd)
      rw [← honly.files i, hrest]
    · have hspace := honly.space
      rw [hrest] at hspace
      simp only [update_self] at hspace
      exact map_vmmapDestroy.mp hspace
  · rintro ⟨hm, hu⟩
    have hself := killSelf_misses hm
    rw [map_vmmapDestroy.mpr hu, update_eq_self] at hself
    obtain ⟨s', heq, hc⟩ := procKill_other hwf hp status hself
    refine ⟨s', heq, fun t ht => (hc.flags t).mpr (.inl ht), fun i => ?_, fun f => ?_, ?_⟩
    all_goals rw [hc.rest]
  · exact killAllLoop_returns hwf hm _ (fun _ hp => hp) (.start hwf) rfl
  · rcases killAllLoop_yields hwf _ (.start hwf) _ hs with
      ⟨rfl, hcur, hprog⟩ | ⟨pre, post, hsplit, hd, rfl, hprog⟩
    · have hnot : ¬ Doomed s s.curproc := fun hd => hcur hd hwf.listed
      exact ⟨.inl ⟨rfl, hnot⟩, iff_of_true hprog.allCancelled fun hd => absurd hd hnot⟩
    · exact ⟨.inr ⟨rfl, hd⟩, Progress.allCancelled_iff hwf hsplit hd hprog⟩

/-- Idle is 10, init 20, and init has the children 30 and 40. -/
def fourTable : ProcTable where
  proc := fun p =>
    if p = 10 then ⟨0, .running, 0, none, [20]⟩
    else if p = 20 then ⟨1, .running, 0, some 10, [30, 40]⟩
    else if p = 30 then ⟨2, .running, 0, some 20, []⟩
    else ⟨3, .running, 0, some 20, []⟩
  procList := [10, 20, 30, 40]
  procInitproc := some 20
  nextPid := 4

/-- The process `cur` runs.  It has the file 100 open as descriptor 0, and the given areas. -/
def fourProcs (cur : Nat) (areas : List Vmarea) : KillSys where
  tbl := fourTable
  sched := bootSched cur
  curproc := cur
  pThreads := fun p => [p]
  ktRetval := fun _ => 0
  fs := { oneOpen with pFiles := fun i => if i = (cur, 0) then some 100 else none }
  pVmmap := fun _ => some ⟨areas, none⟩

theorem fourProcs_wf (cur : Nat) (hcur : cur ∈ fourTable.procList) (areas : List Vmarea) :
    KillWf (fourProcs cur areas) where
  queues := QInv.boot cur
  owner p q t hp hq := (mem_singleton.mp hp).symm.trans (mem_singleton.mp hq)
  curThread := mem_singleton.mpr rfl
  listed := hcur
  nodup := show fourTable.procList.Nodup by decide
  parents := by
    have hparent : ∀ p ∈ fourTable.procList, (fourTable.proc p).pPid ≠ pidIdle →
        (fourTable.proc p).pPproc.isSome := by decide
    exact fun p hp hpid => isSome_iff_exists.mp (hparent p hp hpid)

/-- Process 30 has nothing mapped and kills 40; init kills the processes below it. -/
theorem proc_kill_frame_unmapped :
    (∃ s', procKill (fourProcs 30 []) 40 5 (fun _ => 7) = .ok (s', .returned) ∧
      KillsOnly (fourProcs 30 []) 40 s') ∧
    ∃ s' ctl, procKillAll (fourProcs 20 []) (fun _ _ => 7) = .ok (s', ctl) ∧
      AllCancelled (fourProcs 20 []) s' := by
  obtain ⟨hkill, -, -⟩ := proc_kill_frame (fourProcs_wf 30 (by decide) [])
  obtain ⟨-, hreturns, hall⟩ := proc_kill_frame (fourProcs_wf 20 (by decide) [])
  have hmiss : ∀ cur, Misses (fourProcs cur []) (fun _ => 7) := fun cur fd _ _ hopen => by
    have hslot : (cur, 7) ≠ (cur, 0) := fun he => nomatch (Prod.mk.inj he).2
    exact hopen.2 (if_neg hslot)
  refine ⟨(hkill 40 5 (fun _ => 7) (by decide)).mpr ⟨hmiss 30, fun m hm => ?_⟩, ?_⟩
  · cases hm
    exact ⟨rfl, rfl⟩
  · obtain ⟨⟨s', ctl⟩, hs⟩ := hreturns (fun _ _ => 7) fun _ => hmiss 20
    have hspared : ¬ Doomed (fourProcs 20 []) 20 := fun hd => hd.2 10 rfl rfl
    exact ⟨s', ctl, hs, (hall _ s' ctl hs).2.mpr fun hd => absurd hd hspared⟩

/-- Process 30 kills 40 and loses the file it has open, and its area.  And it kills all processes
and exits, while 40 has not been cancelled. -/
theorem proc_kill_damage : KillWf (fourProcs 30 [⟨0x500, 0x510, 0, 3, 2, 7⟩]) ∧
    (∃ s', procKill (fourProcs 30 [⟨0x500, 0x510, 0, 3, 2, 7⟩]) 40 5 (fun _ => 0) =
      .ok (s', .returned) ∧
      (fourProcs 30 [⟨0x500, 0x510, 0, 3, 2, 7⟩]).fs.pFiles (30, 0) = some 100 ∧
      s'.fs.pFiles (30, 0) = none ∧ (s'.fs.file 100).fRefcount = 0 ∧
      s'.pVmmap 30 = some ⟨[], none⟩) ∧
    ∃ s', procKillAll (fourProcs 30 [⟨0x500, 0x510, 0, 3, 2, 7⟩])
    (fun _ _ => -1) = .ok (s', .doExit 0) ∧
      Doomed (fourProcs 30 [⟨0x500, 0x510, 0, 3, 2, 7⟩]) 40 ∧ ¬ s'.cancelled 40 := by
  refine ⟨fourProcs_wf 30 (by decide) _, ⟨_, rfl, rfl, rfl, rfl, rfl⟩, ⟨_, rfl, ⟨?_, ?_⟩, ?_⟩⟩
  · decide
  · rintro q ⟨⟩
    decide
  · exact Bool.false_ne_true

end Weenix.Proc
