/-
# Runs of the process table

The table starts with idle and the init process that idle creates.  From there processes create
others, exit and wait in any order; the steps are the parts of `proc.c` that no other process can
come in between.

`process_table`: as long as init lives and there is a pid for every process, the table is a tree of
processes with distinct pids.
-/
import Mathlib.Data.List.Nodup
import Mathlib.Data.List.Perm.Subperm
import Weenix.Lib.Run
import Weenix.Proc.ProcTree

namespace Weenix.Proc

open List ProcTable

/-! ## 1. Boot -/

theorem procGetid_free {t : ProcTable} (h : t.usesPid t.nextPid = false) :
    procGetid t = .ok ({ t with nextPid := (t.nextPid + 1) % procMaxCount },
      (t.nextPid : Int)) := by
  have hloop : getidLoop t.usesPid t.nextPid procMaxCount t.nextPid = .ok (some t.nextPid) := by
    change getidLoop t.usesPid t.nextPid (65535 + 1) t.nextPid = _
    rw [getidLoop, if_neg (by simp [h])]
  rw [procGetid, hloop]
  rfl

/-- The two processes after boot. -/
def bootProc (idle init : Nat) (p : Nat) : Process :=
  if p = idle then ⟨0, .running, 0, none, [init]⟩
  else if p = init then ⟨1, .running, 0, some idle, []⟩
  else ⟨0, .running, 0, none, []⟩

theorem bootProc_running (idle init p : Nat) : (bootProc idle init p).pState = .running := by
  unfold bootProc
  split
  · rfl
  · split <;> rfl

theorem bootProc_children (idle init p : Nat) :
    (bootProc idle init p).pChildren = if p = idle then [init] else [] := by
  unfold bootProc
  split
  · rfl
  · split <;> rfl

theorem bootTable_eq {idle init : Nat} (hne : idle ≠ init) :
    bootTable idle init = .ok ⟨bootProc idle init, [idle, init], some init, 2⟩ := by
  have h1 : procCreate emptyTable none idle =
      .ok ⟨update emptyTable.proc idle ⟨0, .running, 0, none, []⟩, [idle], none, 1⟩ := by
    rw [procCreate, procGetid_free rfl]
    rfl
  have h2 : usesPid ⟨update emptyTable.proc idle ⟨0, .running, 0, none, []⟩, [idle], none, 1⟩ 1 =
      false := by
    simp [usesPid]
  rw [bootTable, h1, ok_bind, procCreate, procGetid_free h2, ok_bind]
  have hproc : update (update (update emptyTable.proc idle ⟨0, .running, 0, none, []⟩) init
        ⟨1, .running, 0, some idle, []⟩) idle ⟨0, .running, 0, none, [init]⟩ =
          bootProc idle init := by
    funext p
    by_cases hp : p = idle
    · subst hp
      simp [bootProc]
    · by_cases hpi : p = init
      · subst hpi
        simp [bootProc, hp]
      · simp [bootProc, hp, hpi, emptyTable]
  rw [← hproc]
  simp [createWith, pidInit, pidIdle, pure_eq_ok, ProcTable.modify, procMaxCount, hne]

theorem TreeInv.boot {idle init : Nat} (hne : idle ≠ init) :
    TreeInv idle init ⟨bootProc idle init, [idle, init], some init, 2⟩ := by
  have hidle : bootProc idle init idle = ⟨0, .running, 0, none, [init]⟩ := if_pos rfl
  have hinit : bootProc idle init init = ⟨1, .running, 0, some idle, []⟩ := by
    rw [bootProc, if_neg hne.symm, if_pos rfl]
  have hmem : ∀ {p}, p ∈ [idle, init] ↔ p = idle ∨ p = init := by simp
  refine ⟨show 2 < procMaxCount by decide, by simp [hne], ?_, ?_, ?_, ?_, by simp, ?_,
    ?_, ?_, by simp, ?_, ?_, ?_, rfl, ?_⟩
  · constructor
    · intro c q
      change (if c ∈ [idle, init] then (bootProc idle init c).pPproc else none) = some q ↔
        c ∈ (bootProc idle init q).pChildren
      have hkid : c ∈ (bootProc idle init q).pChildren ↔ q = idle ∧ c = init := by
        rw [bootProc_children]
        split <;> simp [*]
      rw [hkid]
      split
      next hm =>
        obtain rfl | rfl := hmem.mp hm
        · simp [hidle, hne]
        · simp [hinit, eq_comm]
      next hm => exact iff_of_false (by simp) fun h => hm (hmem.mpr (.inr h.2))
    · intro q
      change (bootProc idle init q).pChildren.Nodup
      rw [bootProc_children]
      split <;> simp
  · intro c hc hci
    obtain rfl | rfl := hmem.mp hc
    · exact absurd rfl hci
    · exact ⟨idle, by simp, congrArg Process.pPproc hinit⟩
  · intro q hq
    exact (bootProc_children idle init q).trans (if_neg fun he => hq (hmem.mpr (.inl he)))
  · intro q hq
    change (bootProc idle init q).pState = .dead at hq
    rw [bootProc_running] at hq
    cases hq
  · exact congrArg Process.pPid hidle
  · exact congrArg Process.pPproc hidle
  · exact congrArg Process.pState hidle
  · exact congrArg Process.pPid hinit
  · exact congrArg Process.pPproc hinit
  · exact congrArg Process.pState hinit
  · refine ⟨fun p => if p = idle then 0 else 1, if_pos rfl, if_neg hne.symm, ?_⟩
    intro c hc q hq
    change (bootProc idle init c).pPproc = some q at hq
    obtain rfl | rfl := hmem.mp hc
    · rw [hidle] at hq
      cases hq
    · rw [hinit] at hq
      cases hq
      simp [hne.symm]

/-! ## 2. Steps -/

/-- What happens to the table.  `ktExited` is what is found in the threads of dead processes. -/
inductive TableCall where
  | create (cur a : Nat)
  | exit (p : Nat) (status : Int)
  | waitpid (cur : Nat) (pid : Int) (ktExited : Nat → Bool)
  | rescan (cur : Nat) (ktExited : Nat → Bool)

def tableStep (t : ProcTable) : TableCall → Except Halt ProcTable
  | .create cur a => procCreate t (some cur) a
  | .exit p status => do
    let _ ← cleanupStart t p
    cleanupFinish t p status
  | .waitpid cur pid ktExited => do return (← doWaitpid t cur pid ktExited).1
  | .rescan cur ktExited => do return (← waitpidScan t cur ktExited).1

/-- A process of the table that has not exited. -/
def ProcTable.live (t : ProcTable) (p : Nat) : Prop := p ∈ t.procList ∧ (t.proc p).pState = .running
deriving Decidable

/-- Calls are made by processes that have not exited, init does not exit, and there is room for
another process. -/
def TableLegal (init : Nat) (t : ProcTable) : TableCall → Prop
  | .create cur a => t.live cur ∧ a ∉ t.procList ∧ t.procList.length < procMaxCount
  | .exit p _ => t.live p ∧ p ≠ init
  | .waitpid cur _ _ | .rescan cur _ => t.live cur

instance (init : Nat) (t : ProcTable) (c : TableCall) : Decidable (TableLegal init t c) := by
  cases c <;> unfold TableLegal <;> infer_instance

def ProcTable.pids (t : ProcTable) : List Int := t.procList.map fun p => (t.proc p).pPid

section
variable {t t' : ProcTable} {idle init cur p a : Nat} {r : ProcTable × WaitOut} {k : Nat → Bool}
  {status : Int}

theorem exists_free_pid (hlen : t.procList.length < procMaxCount) :
    ∃ k < procMaxCount, t.usesPid k = false := by
  by_contra hno
  have hall : ∀ k < procMaxCount, t.usesPid k = true := fun k hk => by
    by_contra hu
    exact hno ⟨k, hk, by simpa using hu⟩
  have hsub : (range procMaxCount).map (fun k : Nat => (k : Int)) ⊆ t.pids := by
    intro z hz
    obtain ⟨k, hk, rfl⟩ := mem_map.mp hz
    obtain ⟨p, hp, hpid⟩ := any_eq_true.mp (hall k (mem_range.mp hk))
    exact mem_map.mpr ⟨p, hp, by simpa using hpid⟩
  have hnd : ((range procMaxCount).map (fun k : Nat => (k : Int))).Nodup :=
    List.Nodup.map (fun a b hab => Int.ofNat.inj hab) nodup_range
  have hle := (hnd.subperm hsub).length_le
  simp only [length_map, length_range, pids] at hle
  omega

theorem pids_created {pid : Int} (ha : a ∉ t.procList) (hne : a ≠ cur) :
    (t.created cur a pid).pids = t.pids ++ [pid] := by
  change (t.procList ++ [a]).map _ = _
  rw [map_append, map_singleton, created_self hne]
  congr 1
  refine map_congr_left fun q hq => ?_
  obtain ⟨l, hl⟩ := @created_old t cur a q pid (fun he => ha (he ▸ hq)) hne
  rw [hl]

theorem nodup_pids_created {n k : Nat} (hp : t.pids.Nodup) (ha : a ∉ t.procList) (hne : a ≠ cur)
    (hfree : t.usesPid k = false) :
    (({ t with nextPid := n }).created cur a (k : Int)).pids.Nodup := by
  have hpc := @pids_created { t with nextPid := n } cur a k ha hne
  rw [hpc]
  refine nodup_append.mpr ⟨hp, by simp, ?_⟩
  rintro z hz b hb rfl
  obtain ⟨q, hq, hqp⟩ := mem_map.mp hz
  rw [mem_singleton.mp hb] at hqp
  have hused : t.usesPid k = true := usesPid_of_mem hq hqp
  rw [hused] at hfree
  cases hfree

theorem ExitedTo.pids_eq (hx : ExitedTo p init status t t') : t'.pids = t.pids := by
  unfold pids
  rw [hx.procList]
  exact map_congr_left fun q _ => hx.pid q

/-- With a process less than there are pids, one is found. -/
theorem free_pid_of_room {pid : Int} (hlen : t.procList.length < procMaxCount)
    (hpid : (∃ k : Nat, pid = (k : Int) ∧ k < procMaxCount ∧ t.usesPid k = false) ∨
      pid = -1 ∧ ∀ k < procMaxCount, t.usesPid k = true) :
    ∃ k : Nat, pid = (k : Int) ∧ t.usesPid k = false := by
  obtain ⟨k, rfl, -, hfree⟩ | ⟨-, hall⟩ := hpid
  · exact ⟨k, rfl, hfree⟩
  · obtain ⟨k, hk, hfree⟩ := exists_free_pid hlen
    rw [hall k hk] at hfree
    cases hfree

theorem pids_reap {c : Nat} : (t.reap cur c).pids.Sublist t.pids := by
  have he : (t.reap cur c).pids = (t.procList.erase c).map fun p => (t.proc p).pPid := by
    refine map_congr_left fun q _ => ?_
    obtain ⟨l, hl⟩ := @reap_cases t c cur q
    rw [hl]
  rw [he]
  exact erase_sublist.map _

theorem live_created {pid : Int} (hne : a ≠ cur) (hp : p ≠ a) :
    (t.created cur a pid).live p ↔ t.live p := by
  unfold live
  obtain ⟨l, hl⟩ := @created_old t cur a p pid hp hne
  rw [hl, mem_created]
  simp [hp]

theorem ExitedTo.live_iff {q : Nat} (hx : ExitedTo p init status t t') :
    t'.live q ↔ t.live q ∧ q ≠ p := by
  unfold live
  rw [hx.procList]
  by_cases hq : q = p
  · simp [hq, hx.self.1]
  · rw [hx.state q hq]
    exact (and_iff_left hq).symm

theorem live_reap {d : Nat} (hnd : t.procList.Nodup) (hd : (t.proc d).pState = .dead) (p : Nat) :
    (t.reap cur d).live p ↔ t.live p := by
  unfold live
  obtain ⟨l, hl⟩ := @reap_cases t d cur p
  rw [hl, mem_reap hnd]
  refine ⟨fun ⟨hm, hst⟩ => ⟨hm.2, hst⟩, fun ⟨hm, hst⟩ => ⟨⟨?_, hm⟩, hst⟩⟩
  rintro rfl
  rw [hd] at hst
  cases hst

/-- A round of `do_waitpid` frees a dead child or changes nothing. -/
theorem waitpidScan_table
    (hs : waitpidScan t cur k = .ok r) :
    r.1 = t ∨ ∃ c, deadChild t cur = some c ∧ r.1 = t.reap cur c := by
  unfold waitpidScan at hs
  split at hs
  · rename_i c hd
    obtain ⟨_, -, hs⟩ := bind_eq_ok hs
    cases hs
    exact .inr ⟨c, hd, rfl⟩
  · cases hs
    exact .inl rfl

theorem doWaitpid_table {pid : Int} (hs : doWaitpid t cur pid k = .ok r) :
    r.1 = t ∨ ∃ c, deadChild t cur = some c ∧ r.1 = t.reap cur c := by
  unfold doWaitpid at hs
  split at hs
  · cases hs
    exact .inl rfl
  split at hs
  · exact waitpidScan_table hs
  split at hs
  · split at hs
    · cases hs
      exact .inl rfl
    · split at hs
      · cases hs
        exact .inl rfl
      · obtain ⟨_, -, hs⟩ := bind_eq_ok hs
        exact waitpidScan_table hs
  · cases hs
    exact .inl rfl

theorem cleanupStart_ne_idle {par : Nat} (h : TreeInv idle init t)
    (hs : cleanupStart t p = .ok par) : p ≠ idle := by
  rintro rfl
  obtain ⟨_, -, hs⟩ := bind_eq_ok hs
  obtain ⟨_, hk, -⟩ := bind_eq_ok hs
  have := kassert_eq_ok hk
  rw [h.idlePid] at this
  cases this

/-- **Every call keeps the tree and the pids apart.** -/
theorem tableStep_spec (h : TreeInv idle init t) (hp : t.pids.Nodup) {c : TableCall}
    (hc : TableLegal init t c) (hs : tableStep t c = .ok t') :
    TreeInv idle init t' ∧ t'.pids.Nodup := by
  cases c with
  | create cur a =>
    obtain ⟨⟨hcur, hrun⟩, ha, hlen⟩ := hc
    obtain ⟨n, pid, heq, h', hpid⟩ := procCreate_spec h hcur hrun ha
    rw [tableStep, heq] at hs
    cases hs
    obtain ⟨k, rfl, hfree⟩ := free_pid_of_room hlen hpid
    exact ⟨h', nodup_pids_created hp ha (fun he => ha (he ▸ hcur)) hfree⟩
  | exit p status =>
    obtain ⟨⟨hpm, -⟩, hpi⟩ := hc
    obtain ⟨par, hstart, hs⟩ := bind_eq_ok hs
    obtain ⟨t1, heq, h', hex⟩ :=
      cleanupFinish_spec h hpm hpi (cleanupStart_ne_idle h hstart) status
    rw [heq] at hs
    cases hs
    exact ⟨h', hex.pids_eq.symm ▸ hp⟩
  | waitpid cur pid k =>
    obtain ⟨r, hw, hs⟩ := bind_eq_ok hs
    cases hs
    obtain he | ⟨c, hd, he⟩ := doWaitpid_table hw
    · rw [he]
      exact ⟨h, hp⟩
    · rw [he]
      obtain ⟨hmem, hdead⟩ := deadChild_spec hd
      exact ⟨h.reap hmem hdead, hp.sublist pids_reap⟩
  | rescan cur k =>
    obtain ⟨r, hw, hs⟩ := bind_eq_ok hs
    cases hs
    obtain he | ⟨c, hd, he⟩ := waitpidScan_table hw
    · rw [he]
      exact ⟨h, hp⟩
    · rw [he]
      obtain ⟨hmem, hdead⟩ := deadChild_spec hd
      exact ⟨h.reap hmem hdead, hp.sublist pids_reap⟩

end

/-! ## 3. Runs -/

/-- `q` is the parent of the process `c` of the table. -/
def ProcTable.isParent (t : ProcTable) (c q : Nat) : Prop :=
  c ∈ t.procList ∧ (t.proc c).pPproc = some q

/-- What holds of the table between any two calls. -/
structure TableOk (idle : Nat) (t : ProcTable) : Prop where
  pids : t.pids.Nodup
  /-- a process other than idle is a child of its parent, once, and of no other process -/
  parent : ∀ c ∈ t.procList, c ≠ idle → ∃ p ∈ t.procList, (t.proc c).pPproc = some p ∧
    (t.proc p).pChildren.count c = 1 ∧ ∀ q, c ∈ (t.proc q).pChildren → q = p
  notFreed : ∀ p, ∀ c ∈ (t.proc p).pChildren, c ∈ t.procList
  acyclic : ∀ p, ¬ Relation.TransGen t.isParent p p
  deadLeaf : ∀ p ∈ t.procList, (t.proc p).pState = .dead → (t.proc p).pChildren = []

theorem TreeInv.acyclic {t : ProcTable} {idle init : Nat} (h : TreeInv idle init t) (p : Nat) :
    ¬ Relation.TransGen t.isParent p p := by
  obtain ⟨rank, -, -, hr⟩ := h.rank
  have hlt : ∀ {q}, Relation.TransGen t.isParent p q → rank q < rank p := by
    intro q hq
    induction hq with
    | single h1 => exact hr p h1.1 _ h1.2
    | tail _ h1 ih => exact (hr _ h1.1 _ h1.2).trans ih
  exact fun hp => lt_irrefl _ (hlt hp)

theorem TreeInv.tableOk {t : ProcTable} {idle init : Nat} (h : TreeInv idle init t)
    (hp : t.pids.Nodup) : TableOk idle t where
  pids := hp
  parent c hc hci := by
    obtain ⟨p, hpm, hpp⟩ := h.parent c hc hci
    have hmem := h.mem_children hc hpp
    exact ⟨p, hpm, hpp, count_eq_one_of_mem (h.placed.nodup p) hmem,
      fun q hq => h.placed.unique hq hmem⟩
  notFreed _ _ hc := (h.child hc).1
  acyclic := h.acyclic
  deadLeaf p _ := h.dead p

/-- **The process table.**  In every state of every run from boot in which init does not exit and
there are fewer than 65536 processes, the pids are distinct, the children lists and the parent
pointers describe one tree of the processes of the table, and dead processes are leaves. -/
theorem process_table {idle init : Nat} {t₀ t : ProcTable} (hne : idle ≠ init)
    (hboot : bootTable idle init = .ok t₀) (hr : Lts.Run (TableLegal init) tableStep t₀ t) :
    TableOk idle t := by
  rw [bootTable_eq hne] at hboot
  cases hboot
  have hpids : (⟨bootProc idle init, [idle, init], some init, 2⟩ : ProcTable).pids.Nodup := by
    simp [pids, bootProc, hne.symm]
  obtain ⟨h, hp⟩ := hr.invariant (I := fun t => TreeInv idle init t ∧ t.pids.Nodup)
    ⟨.boot hne, hpids⟩ fun t c u ht hc hs => tableStep_spec ht.1 ht.2 hc hs
  exact h.tableOk hp

/-- A grandchild of init is handed over to it when its parent exits, and the parent is freed. -/
theorem process_table_grandchild : ∃ t₀ t, bootTable 10 20 = .ok t₀ ∧
    Lts.Run (TableLegal 20) tableStep t₀ t ∧ t.procList = [10, 20, 40] ∧
    (t.proc 40).pPproc = some 20 ∧ TableOk 10 t := by
  have hboot := @bootTable_eq 10 20 (by decide)
  obtain ⟨t, ht, hlist, hpp⟩ :
    ∃ t, Lts.Run (TableLegal 20) tableStep ⟨bootProc 10 20, [10, 20], some 20, 2⟩ t ∧
      t.procList = [10, 20, 40] ∧ (t.proc 40).pPproc = some 20 :=
    Lts.exists_run [.create 20 30, .create 30 40, .exit 30 5, .waitpid 20 (-1) fun _ => true]
      (by decide +kernel)
  exact ⟨_, t, hboot, ht, hlist, hpp, process_table (by decide) hboot ht⟩

end Weenix.Proc
