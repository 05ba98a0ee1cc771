/-
# The process tree

`_proc_list`, the `p_children` lists and the `p_pproc` pointers are three views of one tree with
the idle process at its root (`TreeInv`).  A process enters the tree below the process that creates
it, its children go to the init process when it exits, and it leaves the tree as a leaf.

That nothing hangs below itself is carried by a rank that grows from parent to child; idle has rank
0 and init rank 1, so that init is above every child it is given.

Each of the three has one lemma: `procCreate_spec`, `cleanupFinish_spec` and `TreeInv.reap`.
-/
import Weenix.Lib.Placement
import Weenix.Proc.ProcTable

namespace Weenix.Proc

open Placement List ProcTable

/-! ## 1. The search for a pid -/

/-- No process has the pid, and all pids from `next_pid` up to it, in cyclic order, are in use. -/
def ProcTable.FirstFree (t : ProcTable) (pid : Nat) : Prop :=
  t.usesPid pid = false ∧ ∃ k < procMaxCount, pid = (t.nextPid + k) % procMaxCount ∧
    ∀ j < k, t.usesPid ((t.nextPid + j) % procMaxCount) = true

/-- The loop of `_proc_getid` ends with the first free pid from `next` on, or after a full round. -/
theorem getidLoop_spec (uses : Nat → Bool) {next : Nat} (hnext : next < procMaxCount) :
    ∀ (fuel k : Nat), fuel + k = procMaxCount → k < procMaxCount →
      (∀ j < k, uses ((next + j) % procMaxCount) = true) →
      ∃ r, getidLoop uses next fuel ((next + k) % procMaxCount) = .ok r ∧
        (∀ pid, r = some pid → uses pid = false ∧ ∃ k < procMaxCount,
          pid = (next + k) % procMaxCount ∧
          ∀ j < k, uses ((next + j) % procMaxCount) = true) ∧
        (r = none → ∀ j < procMaxCount, uses ((next + j) % procMaxCount) = true) := by
  intro fuel
  induction fuel with
  | zero =>
    intro k hk hlt _
    omega
  | succ fuel ih =>
    intro k hk hlt hused
    by_cases hu : uses ((next + k) % procMaxCount) = true
    · have hused' : ∀ j < k + 1, uses ((next + j) % procMaxCount) = true := by
        intro j hj
        obtain hj | rfl := Nat.lt_succ_iff_lt_or_eq.mp hj
        · exact hused j hj
        · exact hu
      have hmod : ((next + k) % procMaxCount + 1) % procMaxCount =
          (next + (k + 1)) % procMaxCount := by
        rw [Nat.mod_add_mod, Nat.add_assoc]
      by_cases hwrap : (next + (k + 1)) % procMaxCount = next
      · refine ⟨none, ?_, by simp, fun _ j hj => hused' j ?_⟩
        · rw [getidLoop, if_pos hu, hmod, if_pos hwrap]
        · -- the round is complete
          by_contra hlt'
          have hk' : k + 1 < procMaxCount := by omega
          obtain hs | hs := lt_or_ge (next + (k + 1)) procMaxCount
          · rw [Nat.mod_eq_of_lt hs] at hwrap
            omega
          · rw [Nat.mod_eq_sub_mod hs, Nat.mod_eq_of_lt (by omega)] at hwrap
            omega
      · have hk' : k + 1 < procMaxCount := by
          by_contra hge
          have : k + 1 = procMaxCount := by omega
          rw [this, Nat.add_mod_right, Nat.mod_eq_of_lt hnext] at hwrap
          exact hwrap rfl
        obtain ⟨r, heq, h1, h2⟩ := ih (k + 1) (by omega) hk' hused'
        refine ⟨r, ?_, h1, h2⟩
        rw [getidLoop, if_pos hu, hmod, if_neg hwrap]
        exact heq
    · refine ⟨some ((next + k) % procMaxCount), ?_, ?_, by simp⟩
      · rw [getidLoop, if_neg hu]
      · rintro pid ⟨⟩
        exact ⟨by simpa using hu, k, hlt, rfl, hused⟩

/-- **`_proc_getid` returns**: the first free pid, or -1 when all are in use. -/
theorem procGetid_spec {t : ProcTable} (hnext : t.nextPid < procMaxCount) :
    (∃ pid : Nat, procGetid t = .ok ({ t with nextPid := (pid + 1) % procMaxCount }, (pid : Int)) ∧
      t.FirstFree pid) ∨
    (procGetid t = .ok (t, -1) ∧ ∀ pid < procMaxCount, t.usesPid pid = true) := by
  obtain ⟨r, heq, hsome, hnone⟩ := getidLoop_spec t.usesPid hnext procMaxCount 0 rfl (by decide)
    fun j hj => absurd hj (Nat.not_lt_zero j)
  rw [Nat.add_zero, Nat.mod_eq_of_lt hnext] at heq
  cases r with
  | some pid => exact .inl ⟨pid, by rw [procGetid, heq]; rfl, hsome pid rfl⟩
  | none =>
    refine .inr ⟨by rw [procGetid, heq]; rfl, fun pid hpid => ?_⟩
    -- every pid is met on the round
    obtain hlt | hge := lt_or_ge pid t.nextPid
    · have h := hnone rfl (pid + procMaxCount - t.nextPid) (by omega)
      have he : t.nextPid + (pid + procMaxCount - t.nextPid) = pid + procMaxCount := by omega
      rw [he, Nat.add_mod_right, Nat.mod_eq_of_lt hpid] at h
      exact h
    · have h := hnone rfl (pid - t.nextPid) (by omega)
      have he : t.nextPid + (pid - t.nextPid) = pid := by omega
      rw [he, Nat.mod_eq_of_lt hpid] at h
      exact h

theorem ProcTable.FirstFree.lt {t : ProcTable} {pid : Nat} (h : t.FirstFree pid) :
    pid < procMaxCount := by
  obtain ⟨-, k, -, rfl, -⟩ := h
  exact Nat.mod_lt _ (by decide)

/-- **The search for a pid** ends; it fails exactly when all are in use, and otherwise the next one
begins after the pid it found. -/
theorem pid_search (t : ProcTable) (hnext : t.nextPid < procMaxCount) :
    ∃ t' r, procGetid t = .ok (t', r) ∧ (r = -1 ↔ ∀ pid < procMaxCount, t.usesPid pid = true) ∧
      (r = -1 → t' = t) ∧ (r ≠ -1 → ∃ pid : Nat, r = pid ∧ t.FirstFree pid ∧
        t' = { t with nextPid := (pid + 1) % procMaxCount }) := by
  obtain ⟨pid, heq, hfirst⟩ | ⟨heq, hall⟩ := procGetid_spec hnext
  · have hne : (pid : Int) ≠ -1 := by omega
    refine ⟨_, _, heq, ⟨fun he => absurd he hne, fun hall => ?_⟩, fun he => absurd he hne,
      fun _ => ⟨pid, rfl, hfirst, rfl⟩⟩
    have hused := hall pid hfirst.lt
    rw [hfirst.1] at hused
    cases hused
  · exact ⟨_, _, heq, ⟨fun _ => hall, fun _ => rfl⟩, fun _ => rfl, fun hne => absurd rfl hne⟩

/-- A process has the last pid, and the search begins with it. -/
theorem pid_search_wraps : let t : ProcTable :=
  ⟨fun _ => ⟨65535, .running, 0, none, []⟩, [0], none, 65535⟩
    t.usesPid t.nextPid = true ∧ ∃ t' r, procGetid t = .ok (t', r) ∧ (r = -1 → t' = t) := by
  refine ⟨by decide, ?_⟩
  obtain ⟨t', r, heq, -, hfail, -⟩ :=
    pid_search ⟨_, [0], none, 65535⟩ (show 65535 < procMaxCount by decide)
  exact ⟨t', r, heq, hfail⟩

theorem usesPid_of_mem {t : ProcTable} {p pid : Nat} (hp : p ∈ t.procList)
    (hpid : (t.proc p).pPid = pid) : t.usesPid pid = true :=
  any_eq_true.mpr ⟨p, hp, by simpa using hpid⟩

/-! ## 2. The invariant -/

/-- Where a process of the table is: among the children of its parent. -/
def ProcTable.parentOf (t : ProcTable) (c : Nat) : Option Nat :=
  if c ∈ t.procList then (t.proc c).pPproc else none

structure TreeInv (idle init : Nat) (t : ProcTable) : Prop where
  nextPid : t.nextPid < procMaxCount
  nodup : t.procList.Nodup
  placed : Placed (fun p => (t.proc p).pChildren) t.parentOf
  parent : ∀ c ∈ t.procList, c ≠ idle → ∃ p ∈ t.procList, (t.proc c).pPproc = some p
  outside : ∀ p, p ∉ t.procList → (t.proc p).pChildren = []
  dead : ∀ p, (t.proc p).pState = .dead → (t.proc p).pChildren = []
  idleMem : idle ∈ t.procList
  idlePid : (t.proc idle).pPid = pidIdle
  idleRoot : (t.proc idle).pPproc = none
  idleRuns : (t.proc idle).pState = .running
  initMem : init ∈ t.procList
  initPid : (t.proc init).pPid = pidInit
  initParent : (t.proc init).pPproc = some idle
  initRuns : (t.proc init).pState = .running
  initproc : t.procInitproc = some init
  rank : ∃ rank : Nat → Nat, rank idle = 0 ∧ rank init = 1 ∧
    ∀ c ∈ t.procList, ∀ p, (t.proc c).pPproc = some p → rank p < rank c

section
variable {t : ProcTable} {idle init p c p : Nat}

theorem parentOf_of_mem (hc : c ∈ t.procList) : t.parentOf c = (t.proc c).pPproc := if_pos hc

theorem parentOf_eq_some :
    t.parentOf c = some p ↔ c ∈ t.procList ∧ (t.proc c).pPproc = some p := by
  simp [parentOf]

section
variable (h : TreeInv idle init t)
include h

/-- A change of the table keeps the tree if idle and init stay what they are and the rest of the
invariant is kept. -/
theorem TreeInv.edit {t' : ProcTable} (hnext : t'.nextPid = t.nextPid)
    (hinit : t'.procInitproc = t.procInitproc) (nodup : t'.procList.Nodup)
    (placed : Placed (fun p => (t'.proc p).pChildren) t'.parentOf)
    (parent : ∀ c ∈ t'.procList, c ≠ idle → ∃ p ∈ t'.procList, (t'.proc c).pPproc = some p)
    (outside : ∀ p, p ∉ t'.procList → (t'.proc p).pChildren = [])
    (dead : ∀ p, (t'.proc p).pState = .dead → (t'.proc p).pChildren = [])
    (roots : ∀ q, q = idle ∨ q = init → q ∈ t'.procList ∧ (t'.proc q).pPid = (t.proc q).pPid ∧
      (t'.proc q).pPproc = (t.proc q).pPproc ∧ (t'.proc q).pState = (t.proc q).pState)
    (rank : ∃ rank : Nat → Nat, rank idle = 0 ∧ rank init = 1 ∧
      ∀ c ∈ t'.procList, ∀ p, (t'.proc c).pPproc = some p → rank p < rank c) :
    TreeInv idle init t' := by
  obtain ⟨im, ip, ipp, ist⟩ := roots idle (.inl rfl)
  obtain ⟨nm, np, npp, nst⟩ := roots init (.inr rfl)
  exact ⟨hnext ▸ h.nextPid, nodup, placed, parent, outside, dead, im, ip.trans h.idlePid,
    ipp.trans h.idleRoot, ist.trans h.idleRuns, nm, np.trans h.initPid, npp.trans h.initParent,
    nst.trans h.initRuns, hinit.trans h.initproc, rank⟩

theorem TreeInv.child (hc : c ∈ (t.proc p).pChildren) :
    c ∈ t.procList ∧ (t.proc c).pPproc = some p :=
  parentOf_eq_some.mp ((h.placed.mem c p).mpr hc)

theorem TreeInv.mem_children (hc : c ∈ t.procList) (hp : (t.proc c).pPproc = some p) :
    c ∈ (t.proc p).pChildren :=
  (h.placed.mem c p).mp ((parentOf_of_mem hc).trans hp)

theorem TreeInv.root_mem (hp : p = idle ∨ p = init) : p ∈ t.procList := by
  obtain rfl | rfl := hp
  · exact h.idleMem
  · exact h.initMem

/-- Only the idle process and its descendants have children, so a parent is in the table. -/
theorem TreeInv.parent_mem (hc : c ∈ (t.proc p).pChildren) : p ∈ t.procList := by
  by_contra hp
  rw [h.outside p hp] at hc
  cases hc

theorem TreeInv.idle_not_child : idle ∉ (t.proc p).pChildren := by
  intro hm
  have := (h.child hm).2
  rw [h.idleRoot] at this
  cases this

theorem TreeInv.init_child (hm : init ∈ (t.proc p).pChildren) : p = idle := by
  have := (h.child hm).2
  rw [h.initParent] at this
  exact (Option.some.inj this).symm

theorem TreeInv.not_own_child : p ∉ (t.proc p).pChildren := by
  intro hm
  obtain ⟨hp, hpp⟩ := h.child hm
  obtain ⟨rank, -, -, hr⟩ := h.rank
  exact lt_irrefl _ (hr p hp p hpp)

/-- The rank of every process below idle is positive, and of the grandchildren at least two. -/
theorem TreeInv.init_rank_lt (hc : c ∈ (t.proc p).pChildren)
    (hp : p ≠ idle) : ∃ rank : Nat → Nat, rank idle = 0 ∧ rank init = 1 ∧
      (∀ c ∈ t.procList, ∀ p, (t.proc c).pPproc = some p → rank p < rank c) ∧
      rank init < rank c := by
  obtain ⟨rank, h0, h1, hr⟩ := h.rank
  refine ⟨rank, h0, h1, hr, ?_⟩
  have hpm := h.parent_mem hc
  obtain ⟨q, -, hq⟩ := h.parent p hpm hp
  obtain ⟨hcm, hcp⟩ := h.child hc
  have h2 := hr p hpm q hq
  have h3 := hr c hcm p hcp
  omega

end

/-! ## 3. Creation -/

/-- The table with a new child of `cur`. -/
def ProcTable.created (t : ProcTable) (cur a : Nat) (pid : Int) : ProcTable :=
  { (t.modify a fun _ => ⟨pid, .running, 0, some cur, []⟩).modify cur
      fun r => { r with pChildren := r.pChildren ++ [a] } with
    procList := t.procList ++ [a] }

theorem createWith_eq (cur a : Nat) {pid : Int} (h0 : pid ≠ pidIdle) (h1 : pid ≠ pidInit) :
    createWith t (some cur) a pid = .ok (t.created cur a pid) := by
  simp [createWith, h0, h1, pure_eq_ok, ProcTable.created, ProcTable.modify]

section
variable {cur a q : Nat} {pid : Int}

theorem created_self (hne : a ≠ cur) :
    (t.created cur a pid).proc a = ⟨pid, .running, 0, some cur, []⟩ := by
  simp [ProcTable.created, ProcTable.modify, hne]

theorem created_cur (hne : a ≠ cur) : (t.created cur a pid).proc cur =
    { t.proc cur with pChildren := (t.proc cur).pChildren ++ [a] } := by
  simp [ProcTable.created, ProcTable.modify, hne.symm]

theorem created_ne (ha : q ≠ a) (hc : q ≠ cur) : (t.created cur a pid).proc q = t.proc q := by
  simp [ProcTable.created, ProcTable.modify, ha, hc]

/-- An old process is as it was, apart from the children of `cur`. -/
theorem created_old (ha : q ≠ a) (hne : a ≠ cur) : ∃ l,
    (t.created cur a pid).proc q = { t.proc q with pChildren := l } := by
  by_cases hc : q = cur
  · subst hc
    exact ⟨_, created_cur hne⟩
  · exact ⟨(t.proc q).pChildren, created_ne ha hc⟩

theorem mem_created : q ∈ (t.created cur a pid).procList ↔ q ∈ t.procList ∨ q = a := by
  simp [ProcTable.created, ProcTable.modify]

theorem parentOf_created_self (hne : a ≠ cur) : (t.created cur a pid).parentOf a = some cur := by
  rw [parentOf_of_mem (mem_created.mpr (.inr rfl)), created_self hne]

theorem parentOf_created (hne : a ≠ cur) (hq : q ≠ a) :
    (t.created cur a pid).parentOf q = t.parentOf q := by
  obtain ⟨l, hl⟩ := @created_old t cur a q pid hq hne
  unfold parentOf
  simp only [mem_created, hq, or_false, hl]

/-- **A new process keeps the tree.** -/
theorem TreeInv.created (h : TreeInv idle init t) (hcur : cur ∈ t.procList)
    (hrun : (t.proc cur).pState = .running) (ha : a ∉ t.procList) :
    TreeInv idle init (t.created cur a pid) := by
  have hne : a ≠ cur := fun he => ha (he ▸ hcur)
  have hold : ∀ {q}, q ∈ t.procList → q ≠ a := fun hq he => ha (he ▸ hq)
  refine h.edit rfl rfl ?_ ?_ ?_ ?_ ?_ ?_ ?_
  · exact nodup_append.mpr ⟨h.nodup, by simp, by
      rintro q hq b hb rfl
      exact ha (mem_singleton.mp hb ▸ hq)⟩
  · refine h.placed.insert (t := a) (q := cur) (if_neg ha) (fun r hr => ?_) ?_
      (parentOf_created_self hne) fun u hu => parentOf_created hne hu
    · by_cases hra : r = a
      · subst hra
        rw [created_self hne, h.outside r ha]
      · rw [created_ne hra hr]
    · rw [created_cur hne]
      exact perm_append_singleton a _
  · intro c hc hci
    obtain hc | rfl := mem_created.mp hc
    · obtain ⟨l, hl⟩ := @created_old t cur a c pid (hold hc) hne
      obtain ⟨p, hp, hpp⟩ := h.parent c hc hci
      exact ⟨p, mem_created.mpr (.inl hp), by rw [hl]; exact hpp⟩
    · exact ⟨cur, mem_created.mpr (.inl hcur), by rw [created_self hne]⟩
  · intro p hp
    have hp' := mt mem_created.mpr hp
    rw [not_or] at hp'
    have hpc : p ≠ cur := fun he => hp'.1 (he ▸ hcur)
    rw [created_ne hp'.2 hpc]
    exact h.outside p hp'.1
  · intro p hp
    by_cases hpa : p = a
    · subst hpa
      rw [created_self hne]
    · by_cases hpc : p = cur
      · subst hpc
        rw [created_cur hne] at hp
        rw [hrun] at hp
        cases hp
      · rw [created_ne hpa hpc] at hp ⊢
        exact h.dead p hp
  · intro q hq
    have hqm := h.root_mem hq
    obtain ⟨l, hl⟩ := @created_old t cur a q pid (hold hqm) hne
    rw [hl]
    exact ⟨mem_created.mpr (.inl hqm), rfl, rfl, rfl⟩
  · obtain ⟨rank, h0, h1, hr⟩ := h.rank
    refine ⟨update rank a (rank cur + 1), ?_, ?_, ?_⟩
    · rw [update_of_ne (hold h.idleMem), h0]
    · rw [update_of_ne (hold h.initMem), h1]
    · intro c hc p hp
      obtain hc | rfl := mem_created.mp hc
      · obtain ⟨l, hl⟩ := @created_old t cur a c pid (hold hc) hne
        rw [hl] at hp
        have hpm := h.parent_mem (h.mem_children hc hp)
        rw [update_of_ne (hold hc), update_of_ne (hold hpm)]
        exact hr c hc p hp
      · rw [created_self hne] at hp
        cases hp
        rw [update_self, update_of_ne hne.symm]
        exact Nat.lt_succ_self _

end

theorem TreeInv.setNextPid (h : TreeInv idle init t) {n : Nat} (hn : n < procMaxCount) :
    TreeInv idle init { t with nextPid := n } :=
  { h with nextPid := hn }

/-- A pid that no process has is neither that of idle nor that of init. -/
theorem TreeInv.free_pid (h : TreeInv idle init t) {pid : Nat} (hfree : t.usesPid pid = false) :
    (pid : Int) ≠ pidIdle ∧ (pid : Int) ≠ pidInit := by
  constructor
  · intro he
    rw [usesPid_of_mem h.idleMem (h.idlePid.trans he.symm)] at hfree
    cases hfree
  · intro he
    rw [usesPid_of_mem h.initMem (h.initPid.trans he.symm)] at hfree
    cases hfree

/-- **`proc_create` returns** a child of `cur` with a pid no other process has, unless all are in
use. -/
theorem procCreate_spec (h : TreeInv idle init t) {cur a : Nat} (hcur : cur ∈ t.procList)
    (hrun : (t.proc cur).pState = .running) (ha : a ∉ t.procList) :
    ∃ (n : Nat) (pid : Int),
      procCreate t (some cur) a = .ok (({ t with nextPid := n }).created cur a pid) ∧
      TreeInv idle init (({ t with nextPid := n }).created cur a pid) ∧
      ((∃ k : Nat, pid = (k : Int) ∧ k < procMaxCount ∧ t.usesPid k = false) ∨
        pid = -1 ∧ ∀ k < procMaxCount, t.usesPid k = true) := by
  obtain ⟨pid, heq, hfirst⟩ | ⟨heq, hall⟩ := procGetid_spec h.nextPid
  · obtain ⟨h0, h1⟩ := h.free_pid hfirst.1
    have hn : (pid + 1) % procMaxCount < procMaxCount := Nat.mod_lt _ (by decide)
    refine ⟨(pid + 1) % procMaxCount, pid, ?_, (h.setNextPid hn).created hcur hrun ha,
      .inl ⟨pid, rfl, hfirst.lt, hfirst.1⟩⟩
    rw [procCreate, heq, ok_bind, createWith_eq cur a h0 h1]
  · refine ⟨t.nextPid, -1, ?_, (h.setNextPid h.nextPid).created hcur hrun ha, .inr ⟨rfl, hall⟩⟩
    rw [procCreate, heq, ok_bind]
    exact @createWith_eq t cur a (-1) (by decide) (by decide)

/-! ## 4. Exit -/

section
variable {child : Nat} {rest : List Nat}

theorem moveChild_child (hcp : child ≠ p) (hci : child ≠ init) :
    (t.moveChild p init child rest).proc child = { t.proc child with pPproc := some init } := by
  simp [ProcTable.moveChild, ProcTable.modify, hcp, hci]

theorem moveChild_from (hpi : p ≠ init) (hcp : child ≠ p) :
    (t.moveChild p init child rest).proc p = { t.proc p with pChildren := rest } := by
  simp [ProcTable.moveChild, ProcTable.modify, hpi, hcp.symm]

theorem moveChild_to (hpi : p ≠ init) (hci : child ≠ init) :
    (t.moveChild p init child rest).proc init =
      { t.proc init with pChildren := (t.proc init).pChildren ++ [child] } := by
  simp [ProcTable.moveChild, ProcTable.modify, hpi.symm, hci.symm]

theorem moveChild_ne {q : Nat} (hp : q ≠ p) (hi : q ≠ init) (hc : q ≠ child) :
    (t.moveChild p init child rest).proc q = t.proc q := by
  simp [ProcTable.moveChild, ProcTable.modify, hp, hi, hc]

/-- What handing over children leaves alone. -/
structure Reparented (p init : Nat) (t t' : ProcTable) : Prop where
  procList : t'.procList = t.procList
  pid : ∀ q, (t'.proc q).pPid = (t.proc q).pPid
  state : ∀ q, (t'.proc q).pState = (t.proc q).pState
  status : ∀ q, (t'.proc q).pStatus = (t.proc q).pStatus
  initChildren : ∀ c, c ∈ (t'.proc init).pChildren →
    c ∈ (t.proc init).pChildren ∨ c ∈ (t.proc p).pChildren
  kept : ∀ c, c ∈ (t.proc init).pChildren → c ∈ (t'.proc init).pChildren
  children : ∀ q, q ≠ p → q ≠ init → (t'.proc q).pChildren = (t.proc q).pChildren
  pproc : ∀ q, q ∉ (t.proc p).pChildren → (t'.proc q).pPproc = (t.proc q).pPproc

theorem Reparented.refl (p init : Nat) (t : ProcTable) : Reparented p init t t :=
  ⟨rfl, fun _ => rfl, fun _ => rfl, fun _ => rfl, fun _ => .inl, fun _ => id, fun _ _ _ => rfl,
    fun _ _ => rfl⟩

/-- The processes of one hand-over, and what is the same in all four cases. -/
theorem moveChild_cases (hpi : p ≠ init) (hcp : child ≠ p) (hci : child ≠ init) (q : Nat) :
    ∃ par l, (t.moveChild p init child rest).proc q =
      { t.proc q with pPproc := par, pChildren := l } := by
  by_cases hqc : q = child
  · subst hqc
    exact ⟨_, (t.proc q).pChildren, moveChild_child hcp hci⟩
  by_cases hqp : q = p
  · subst hqp
    exact ⟨(t.proc q).pPproc, _, moveChild_from hpi hcp⟩
  by_cases hqi : q = init
  · subst hqi
    exact ⟨(t.proc q).pPproc, _, moveChild_to hpi hci⟩
  exact ⟨(t.proc q).pPproc, (t.proc q).pChildren, moveChild_ne hqp hqi hqc⟩

theorem moveChild_pproc (hpi : p ≠ init) (hcp : child ≠ p) (hci : child ≠ init) {q : Nat}
    (hq : q ≠ child) : ((t.moveChild p init child rest).proc q).pPproc = (t.proc q).pPproc := by
  by_cases hqp : q = p
  · subst hqp
    rw [moveChild_from hpi hcp]
  by_cases hqi : q = init
  · subst hqi
    rw [moveChild_to hpi hci]
  rw [moveChild_ne hqp hqi hq]

theorem TreeInv.moveChild_ne_ne (h : TreeInv idle init t) (hpd : p ≠ idle)
    (hl : (t.proc p).pChildren = child :: rest) : child ≠ p ∧ child ≠ init ∧ child ≠ idle := by
  have hmem : child ∈ (t.proc p).pChildren := by
    rw [hl]
    exact .head _
  refine ⟨?_, ?_, ?_⟩
  · rintro rfl
    exact h.not_own_child hmem
  · rintro rfl
    exact hpd (h.init_child hmem)
  · rintro rfl
    exact h.idle_not_child hmem

/-- **Handing one child over to init keeps the tree.** -/
theorem TreeInv.moveChild (h : TreeInv idle init t) (hpi : p ≠ init) (hpd : p ≠ idle)
    (hl : (t.proc p).pChildren = child :: rest) :
    TreeInv idle init (t.moveChild p init child rest) := by
  obtain ⟨hcp, hci, hcd⟩ := h.moveChild_ne_ne hpd hl
  have hmem : child ∈ (t.proc p).pChildren := by
    rw [hl]
    exact .head _
  obtain ⟨hcm, hcpp⟩ := h.child hmem
  have hpm := h.parent_mem hmem
  have hcase := @moveChild_cases t init p child rest hpi hcp hci
  have hpp := @moveChild_pproc t init p child rest hpi hcp hci
  obtain ⟨rank, h0, h1, hr, hlt⟩ := h.init_rank_lt hmem hpd
  refine h.edit rfl rfl h.nodup ?_ ?_ ?_ ?_ ?_ ⟨rank, h0, h1, ?_⟩
  · have hfrom : t.parentOf child = some p := (parentOf_of_mem hcm).trans hcpp
    refine h.placed.transfer hfrom hpi ?_ ?_ ?_ ?_ ?_
    · intro r hrp hri
      by_cases hrc : r = child
      · subst hrc
        rw [moveChild_child hcp hci]
      · rw [moveChild_ne hrp hri hrc]
    · rw [moveChild_from hpi hcp, hl, erase_cons_head]
    · rw [moveChild_to hpi hci]
      exact perm_append_singleton child _
    · rw [parentOf_of_mem (t := t.moveChild p init child rest) hcm, moveChild_child hcp hci]
    · intro u hu
      change (if u ∈ t.procList then _ else none) = if u ∈ t.procList then _ else none
      rw [hpp hu]
  · intro c hc hci'
    by_cases hcc : c = child
    · subst hcc
      exact ⟨init, h.initMem, by rw [moveChild_child hcp hci]⟩
    · rw [hpp hcc]
      exact h.parent c hc hci'
  · intro q hq
    have hqp : q ≠ p := fun he => hq (he ▸ hpm)
    have hqi : q ≠ init := fun he => hq (he ▸ h.initMem)
    have hqc : q ≠ child := fun he => hq (he ▸ hcm)
    rw [moveChild_ne hqp hqi hqc]
    exact h.outside q hq
  · intro q hq
    by_cases hqp : q = p
    · subst hqp
      rw [moveChild_from hpi hcp] at hq
      rw [h.dead q hq] at hmem
      cases hmem
    by_cases hqi : q = init
    · subst hqi
      rw [moveChild_to hpi hci, h.initRuns] at hq
      cases hq
    by_cases hqc : q = child
    · subst hqc
      rw [moveChild_child hcp hci] at hq ⊢
      exact h.dead q hq
    · rw [moveChild_ne hqp hqi hqc] at hq ⊢
      exact h.dead q hq
  · intro q hq
    have hqc : q ≠ child := by
      obtain rfl | rfl := hq
      · exact hcd.symm
      · exact hci.symm
    obtain ⟨par, l, he⟩ := hcase q
    refine ⟨h.root_mem hq, ?_, hpp hqc, ?_⟩
    · rw [he]
    · rw [he]
  · intro c hc q hq
    by_cases hcc : c = child
    · subst hcc
      rw [moveChild_child hcp hci] at hq
      cases hq
      exact hlt
    · rw [hpp hcc] at hq
      exact hr c hc q hq

/-- **The loop over the children ends** with all of them handed over. -/
theorem reparentLoop_spec (hpi : p ≠ init) (hpd : p ≠ idle) : ∀ (fuel : Nat) {t : ProcTable},
    TreeInv idle init t → (t.proc p).pChildren.length ≤ fuel →
    ∃ t', reparentLoop p init fuel t = .ok t' ∧ TreeInv idle init t' ∧
      (t'.proc p).pChildren = [] ∧ Reparented p init t t' := by
  intro fuel t h hlen
  fun_induction reparentLoop p init fuel t with
  | case1 fuel t hl => exact ⟨t, rfl, h, hl, .refl p init t⟩
  | case2 t child rest hl =>
    rw [hl] at hlen
    cases hlen
  | case3 t child rest hl fuel ih =>
    obtain ⟨hcp, hci, -⟩ := h.moveChild_ne_ne hpd hl
    have hfrom := @moveChild_from t init p child rest hpi hcp
    have hto := @moveChild_to t init p child rest hpi hci
    have hcase := @moveChild_cases t init p child rest hpi hcp hci
    obtain ⟨t', heq, h', hnil, hrep⟩ := ih (h.moveChild hpi hpd hl) (by
      rw [hfrom]
      rw [hl, length_cons] at hlen
      exact Nat.le_of_succ_le_succ hlen)
    refine ⟨t', heq, h', hnil, hrep.procList, ?_, ?_, ?_, ?_, ?_, ?_, ?_⟩
    · intro q
      obtain ⟨par, l, he⟩ := hcase q
      rw [hrep.pid, he]
    · intro q
      obtain ⟨par, l, he⟩ := hcase q
      rw [hrep.state, he]
    · intro q
      obtain ⟨par, l, he⟩ := hcase q
      rw [hrep.status, he]
    · intro c hc
      obtain hm | hm := hrep.initChildren c hc
      · rw [hto, mem_append, mem_singleton] at hm
        obtain hm | rfl := hm
        · exact .inl hm
        · exact .inr (by rw [hl]; exact .head _)
      · rw [hfrom] at hm
        exact .inr (by rw [hl]; exact .tail _ hm)
    · intro c hc
      refine hrep.kept c ?_
      rw [hto]
      exact mem_append_left _ hc
    · intro q hqp hqi
      rw [hrep.children q hqp hqi]
      by_cases hqc : q = child
      · subst hqc
        rw [moveChild_child hcp hci]
      · rw [moveChild_ne hqp hqi hqc]
    · intro q hq
      rw [hl, mem_cons, not_or] at hq
      rw [hrep.pproc q (by rw [hfrom]; exact hq.2), moveChild_pproc hpi hcp hci hq.1]

end

/-- What is left of a process that has exited. -/
structure ExitedTo (p init : Nat) (status : Int) (t t' : ProcTable) : Prop where
  procList : t'.procList = t.procList
  pid : ∀ q, (t'.proc q).pPid = (t.proc q).pPid
  self : (t'.proc p).pState = .dead ∧ (t'.proc p).pStatus = status
  state : ∀ q, q ≠ p → (t'.proc q).pState = (t.proc q).pState
  status : ∀ q, q ≠ p → (t'.proc q).pStatus = (t.proc q).pStatus
  initChildren : ∀ c, c ∈ (t'.proc init).pChildren →
    c ∈ (t.proc init).pChildren ∨ c ∈ (t.proc p).pChildren
  kept : ∀ c, c ∈ (t.proc init).pChildren → c ∈ (t'.proc init).pChildren
  children : ∀ q, q ≠ p → q ≠ init → (t'.proc q).pChildren = (t.proc q).pChildren
  noChildren : (t'.proc p).pChildren = []
  pproc : ∀ q, q ∉ (t.proc p).pChildren → (t'.proc q).pPproc = (t.proc q).pPproc

theorem dead_kin {status : Int} (q : Nat) :
    ((t.modify p fun r => { r with pState := .dead, pStatus := status }).proc q).pPproc =
      (t.proc q).pPproc ∧
      ((t.modify p fun r => { r with pState := .dead, pStatus := status }).proc q).pChildren
        = (t.proc q).pChildren := by
  by_cases hq : q = p
  · rw [hq, modify_self]
    exact ⟨rfl, rfl⟩
  · rw [modify_ne hq]
    exact ⟨rfl, rfl⟩

theorem parentOf_dead {status : Int} (q : Nat) :
    (t.modify p fun r => { r with pState := .dead, pStatus := status }).parentOf q =
      t.parentOf q := by
  change (if q ∈ t.procList then _ else none) = if q ∈ t.procList then _ else none
  rw [(dead_kin q).1]

theorem TreeInv.die (h : TreeInv idle init t) (hpi : p ≠ init) (hpd : p ≠ idle) (status : Int)
    (hl : (t.proc p).pChildren = []) :
    TreeInv idle init (t.modify p fun r => { r with pState := .dead, pStatus := status }) := by
  have hkeep := @dead_kin t p status
  refine h.edit rfl rfl h.nodup ?_ ?_ ?_ ?_ ?_ ?_
  · exact h.placed.congr (fun q => (hkeep q).2) parentOf_dead
  · intro c hc hci
    rw [(hkeep c).1]
    exact h.parent c hc hci
  · intro q hq
    rw [(hkeep q).2]
    exact h.outside q hq
  · intro q hq
    by_cases hqp : q = p
    · rw [hqp, (hkeep p).2]
      exact hl
    · rw [modify_ne hqp] at hq ⊢
      exact h.dead q hq
  · intro q hq
    have hqp : q ≠ p := by
      obtain rfl | rfl := hq
      · exact hpd.symm
      · exact hpi.symm
    rw [modify_ne hqp]
    exact ⟨h.root_mem hq, rfl, rfl, rfl⟩
  · obtain ⟨rank, h0, h1, hr⟩ := h.rank
    refine ⟨rank, h0, h1, fun c hc q hq => ?_⟩
    rw [(hkeep c).1] at hq
    exact hr c hc q hq

/-- **The end of `proc_cleanup` returns**: the children are init's and the process is dead. -/
theorem cleanupFinish_spec (h : TreeInv idle init t) (hp : p ∈ t.procList) (hpi : p ≠ init)
    (hpd : p ≠ idle) (status : Int) : ∃ t', cleanupFinish t p status = .ok t' ∧
      TreeInv idle init t' ∧ ExitedTo p init status t t' := by
  obtain ⟨t1, heq, h1, hnil, hrep⟩ := reparentLoop_spec hpi hpd _ h le_rfl
  obtain ⟨par, -, hpar⟩ := h.parent p hp hpd
  have hpp : (t1.proc p).pPproc = some par := by
    rw [hrep.pproc p h.not_own_child]
    exact hpar
  refine ⟨_, ?_, h1.die hpi hpd status hnil, hrep.procList, ?_, ?_, ?_, ?_, ?_, ?_, ?_, ?_, ?_⟩
  · simp only [cleanupFinish, h.initproc, heq, ok_bind, modify_self, hpp, Option.isSome_some,
      kassert_true, pure_eq_ok]
  · intro q
    by_cases hq : q = p
    · rw [hq, modify_self]
      exact hrep.pid p
    · rw [modify_ne hq]
      exact hrep.pid q
  · rw [modify_self]
    exact ⟨rfl, rfl⟩
  · intro q hq
    rw [modify_ne hq]
    exact hrep.state q
  · intro q hq
    rw [modify_ne hq]
    exact hrep.status q
  · intro c hc
    rw [modify_ne hpi.symm] at hc
    exact hrep.initChildren c hc
  · intro c hc
    rw [modify_ne hpi.symm]
    exact hrep.kept c hc
  · intro q hqp hqi
    rw [modify_ne hqp]
    exact hrep.children q hqp hqi
  · rw [modify_self]
    exact hnil
  · intro q hq
    rw [(dead_kin q).1]
    exact hrep.pproc q hq

/-! ## 5. Waiting -/

theorem deadChild_spec (hd : deadChild t p = some c) :
    c ∈ (t.proc p).pChildren ∧ (t.proc c).pState = .dead := by
  refine ⟨mem_of_find?_eq_some hd, ?_⟩
  simpa using find?_some hd

theorem deadChild_none (hd : deadChild t p = none) :
    ∀ c ∈ (t.proc p).pChildren, (t.proc c).pState = .running := by
  intro c hc
  have := find?_eq_none.mp hd c hc
  cases hs : (t.proc c).pState with
  | running => rfl
  | dead => simp [hs] at this

section
variable {cur q : Nat}

theorem reap_cur :
    (t.reap cur c).proc cur = { t.proc cur with pChildren := (t.proc cur).pChildren.erase c } := by
  simp [ProcTable.reap, ProcTable.modify]

theorem reap_ne (hq : q ≠ cur) : (t.reap cur c).proc q = t.proc q := by
  simp [ProcTable.reap, ProcTable.modify, hq]

theorem reap_cases (q : Nat) : ∃ l, (t.reap cur c).proc q = { t.proc q with pChildren := l } := by
  by_cases hq : q = cur
  · subst hq
    exact ⟨_, reap_cur⟩
  · exact ⟨(t.proc q).pChildren, reap_ne hq⟩

theorem mem_reap (h : t.procList.Nodup) : q ∈ (t.reap cur c).procList ↔ q ≠ c ∧ q ∈ t.procList :=
  h.mem_erase_iff

theorem parentOf_reap (h : t.procList.Nodup) (hq : q ≠ c) :
    (t.reap cur c).parentOf q = t.parentOf q := by
  obtain ⟨l, hl⟩ := @reap_cases t c cur q
  unfold parentOf
  simp only [mem_reap h, hq, ne_eq, not_false_eq_true, true_and, hl]

/-- **Freeing a dead child keeps the tree.** -/
theorem TreeInv.reap (h : TreeInv idle init t) (hc : c ∈ (t.proc cur).pChildren)
    (hd : (t.proc c).pState = .dead) : TreeInv idle init (t.reap cur c) := by
  obtain ⟨hcm, hcp⟩ := h.child hc
  have hccur : c ≠ cur := by
    rintro rfl
    exact h.not_own_child hc
  have hmem : ∀ {q}, q ∈ (t.reap cur c).procList ↔ q ≠ c ∧ q ∈ t.procList := mem_reap h.nodup
  refine h.edit rfl rfl (h.nodup.erase c) ?_ ?_ ?_ ?_ ?_ ?_
  · refine h.placed.remove (t := c) (q := cur) ((parentOf_of_mem hcm).trans hcp)
      (fun r hr => ?_) ?_ ?_ fun u hu => parentOf_reap h.nodup hu
    · rw [reap_ne hr]
    · rw [reap_cur]
    · unfold parentOf
      rw [if_neg fun hm => (hmem.mp hm).1 rfl]
  · intro u hu hui
    obtain ⟨huc, hum⟩ := hmem.mp hu
    obtain ⟨p, hp, hpp⟩ := h.parent u hum hui
    obtain ⟨l, hl⟩ := @reap_cases t c cur u
    refine ⟨p, hmem.mpr ⟨?_, hp⟩, by rw [hl]; exact hpp⟩
    -- a dead process is nobody's parent
    rintro rfl
    have := h.mem_children hum hpp
    rw [h.dead p hd] at this
    cases this
  · intro q hq
    by_cases hqc : q = c
    · subst hqc
      rw [reap_ne hccur]
      exact h.dead q hd
    · have hqm : q ∉ t.procList := fun hm => hq (hmem.mpr ⟨hqc, hm⟩)
      have hqcur : q ≠ cur := fun he => hqm (he ▸ h.parent_mem hc)
      rw [reap_ne hqcur]
      exact h.outside q hqm
  · intro q hq
    by_cases hqcur : q = cur
    · subst hqcur
      rw [reap_cur] at hq
      rw [h.dead q hq] at hc
      cases hc
    · rw [reap_ne hqcur] at hq ⊢
      exact h.dead q hq
  · intro q hq
    have hqc : q ≠ c := by
      rintro rfl
      obtain rfl | rfl := hq
      · exact h.idle_not_child hc
      · rw [h.initRuns] at hd
        cases hd
    obtain ⟨l, hl⟩ := @reap_cases t c cur q
    rw [hl]
    exact ⟨hmem.mpr ⟨hqc, h.root_mem hq⟩, rfl, rfl, rfl⟩
  · obtain ⟨rank, h0, h1, hr⟩ := h.rank
    refine ⟨rank, h0, h1, fun u hu q hq => ?_⟩
    obtain ⟨l, hl⟩ := @reap_cases t c cur u
    rw [hl] at hq
    exact hr u (hmem.mp hu).2 q hq

end

end

end Weenix.Proc
