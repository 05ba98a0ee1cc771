/-
# Which entries a page fault may install

`handle_pagefault` looks for an area and for the user bit in the cause, and at nothing else: the
protection of the area and the kind of access do not matter ("XXX permission checks"), and the entry
is always `PT_PRESENT | PT_WRITE | PT_USER`.  So what it does is in order only where the area allows
the access and writing.

Across calls there are two more ways to a writable entry in an area without `PROT_WRITE`.
`vmmap_remove` and `vmmap_map` leave the page table alone, so that a new area inherits the entries
of the pages it takes over; and the new area of a split has the protection that the slab object
held. `fork` and `exit` only take entries or areas away.
-/
import Weenix.Pageout.CallsSpec
import Weenix.Vm.VmmapParts

namespace Weenix.Pageout

open List Option Bool

open Weenix.Vm (Vmarea Interior efault mapPrivate protRead protWrite protExec vmmapLookup
  of_lookup_eq_some mem_insertArea vmmapRemove_forall)

variable {s t : VmSys} {p vfn cause : Nat} {x : Proc} {pd : Nat → Option Pte} {vma : Vmarea}
  {r : VmSys × FaultResult}

/-! ## 1. Access control -/

/-- The area has `PROT_WRITE`. -/
def writable (vma : Vmarea) : Bool := vma.vmaProt &&& protWrite != 0

/-- The protection of the area permits the access in `cause`. -/
def permits (cause : Nat) (vma : Vmarea) : Bool :=
  if cause &&& faultWrite ≠ 0 then writable vma else vma.vmaProt &&& (protRead ||| protExec) != 0

/-- A page fault with access control: the process is killed with `EFAULT` and gets no entry, or the
area permits the access, and an entry that is installed is writable only if the area is. -/
def Controlled (s : VmSys) (p vfn cause : Nat) (map : List Vmarea) (r : VmSys × FaultResult) :
    Prop :=
  (r.2 = .killed ∧ (∃ x, r.1.proc p = some x ∧ x.pState = .dead efault) ∧ r.1.pte = s.pte) ∨
    ∃ vma, vmmapLookup map vfn = some vma ∧ permits cause vma = true ∧
      ∀ e, r.2 = .mapped e → e.ptWrite = true → writable vma = true

/-- Where a fault can be in order: there is nothing to allow, or the area allows it. -/
def InOrder (map : List Vmarea) (vfn cause : Nat) (allows : Vmarea → Bool) : Prop :=
  vmmapLookup map vfn = none ∨ cause &&& faultUser = 0 ∨
    ∃ vma, vmmapLookup map vfn = some vma ∧ allows vma = true

/-- What an area has to allow if the fault ends like that. -/
def Allowed (cause : Nat) (result : FaultResult) (allows : Vmarea → Bool) : Prop :=
  ∀ vma, allows vma = true ↔
    permits cause vma = true ∧ ((∃ e, result = .mapped e) → writable vma = true)

section
variable {allows : Vmarea → Bool} (ha : Allowed cause r.2 allows)
include ha

/-- Past the first test the process is not killed, and its entry is writable. -/
theorem controlled_iff_of_found {map : List Vmarea} (hl : vmmapLookup map vfn = some vma)
    (hc : cause &&& faultUser ≠ 0) (halive : r.2 ≠ .killed)
    (hwrite : ∀ e, r.2 = .mapped e → e.ptWrite = true) :
    Controlled s p vfn cause map r ↔ InOrder map vfn cause allows := by
  constructor
  · rintro (⟨hk, -⟩ | ⟨vma, hvma, hp, he⟩)
    · exact absurd hk halive
    · have hentry : (∃ e, r.2 = .mapped e) → writable vma = true :=
        fun ⟨e, hmap⟩ => he e hmap (hwrite e hmap)
      exact .inr (.inr ⟨vma, hvma, (ha vma).mpr ⟨hp, hentry⟩⟩)
  · rintro (hn | hn | ⟨vma, hvma, hallows⟩)
    · rw [hn] at hl
      cases hl
    · exact absurd hn hc
    · obtain ⟨hp, he⟩ := (ha vma).mp hallows
      exact .inr ⟨vma, hvma, hp, fun e hmap _ => he ⟨e, hmap⟩⟩

theorem Faulted.controlled_iff (hx : s.proc p = some x) (h : Faulted s p vfn cause x r) :
    Controlled s p vfn cause x.pVmmap r ↔ InOrder x.pVmmap vfn cause allows := by
  cases h with
  | killed hk =>
    refine iff_of_true (.inl ⟨rfl, ⟨_, update_self .., rfl⟩, ?_⟩) (hk.imp id .inl)
    funext q v
    rw [pte_setProc]
    split
    case isTrue hq => rw [hq, pte_of_proc hx]
    case isFalse => rfl
  | stuck hl hc _ => exact controlled_iff_of_found ha hl hc nofun nofun
  | nomem hl hc _ => exact controlled_iff_of_found ha hl hc nofun nofun
  | mapped hl hc _ _ =>
    exact controlled_iff_of_found ha hl hc nofun fun e he => by cases he; rfl

end

/-! ## 2. No writable entry without `PROT_WRITE` -/

/-- No user-writable entry for a page of the area, unless the area has `PROT_WRITE`. -/
def AreaGuarded (pd : Nat → Option Pte) (vma : Vmarea) : Prop :=
  ∀ vfn e, vma.covers vfn = true → pd vfn = some e → e.ptUser = true → e.ptWrite = true →
    writable vma = true

def Proc.Guarded (x : Proc) : Prop := ∀ vma ∈ x.pVmmap, AreaGuarded x.pPagedir vma

/-- In no process is there a user-writable entry for a page of an area without `PROT_WRITE`. -/
def Guarded (s : VmSys) : Prop := ∀ p x, s.proc p = some x → x.Guarded

theorem AreaGuarded.part (a b : Vmarea) (h : a.PartOf b) (hb : AreaGuarded pd b) :
    AreaGuarded pd a := by
  intro vfn e hc he hu hw
  have hwb := hb vfn e (h.2 vfn hc) he hu hw
  rwa [writable, ← h.1] at hwb

theorem areaGuarded_of_writable (h : writable vma = true) :
    AreaGuarded pd vma := fun _ _ _ _ _ _ => h

/-- A new page table entry is in order where every area that covers the page is writable. -/
theorem AreaGuarded.update (h : AreaGuarded pd vma)
    {e : Option Pte} (hvfn : vma.covers vfn = true → writable vma = true) :
    AreaGuarded (update pd vfn e) vma := by
  intro v e' hc he hu hw
  obtain ⟨hv, -⟩ | ⟨-, he⟩ := of_update he
  · exact hvfn (hv ▸ hc)
  · exact h v e' hc he hu hw

theorem Proc.Guarded.of_shapes {y : Proc} (h : x.Guarded)
    (hmap : y.pVmmap.map Vmarea.shape = x.pVmmap.map Vmarea.shape)
    (hpd : Shrinks x.pPagedir y.pPagedir) : y.Guarded := by
  intro vma hvma vfn e hc he hu hw
  have hmem : vma.shape ∈ x.pVmmap.map Vmarea.shape := hmap ▸ mem_map_of_mem hvma
  obtain ⟨vma', hvma', hshape⟩ := mem_map.mp hmem
  have hc' : vma'.covers vfn = true := by rwa [← Vm.shape_covers, hshape, Vm.shape_covers]
  have hw' := h vma' hvma' vfn e hc' (hpd vfn e he) hu hw
  change writable vma.shape = true
  rw [← hshape]
  exact hw'

theorem Guarded.congr (h : Guarded s) (hproc : t.proc = s.proc) : Guarded t := by
  intro p x hx
  rw [hproc] at hx
  exact h p x hx

theorem Guarded.update (h : Guarded s) {x : Option Proc}
    (hproc : t.proc = update s.proc p x) (hx : ∀ y, x = some y → y.Guarded) : Guarded t := by
  intro q y hy
  obtain ⟨-, hy⟩ | ⟨-, hy⟩ := of_update (hproc ▸ hy)
  · exact hx y hy
  · exact h q y hy

/-! ## 3. The calls that keep it -/

/-- The range does not wrap around, and if an area is split, the slab object has `PROT_WRITE`. -/
def removeKeeps (x : Proc) (e : RemoveEnv) (lopage npages : Nat) : Bool :=
  lopage ≤ (lopage + npages) % 2 ^ 32 &&
    (e.fresh.all writable || ∀ vma ∈ x.pVmmap, ¬ Interior lopage ((lopage + npages) % 2 ^ 32) vma)

/-- No page of the range has a user-writable entry. -/
def noWritable (x : Proc) (lopage hipage : Nat) : Bool :=
  (List.range hipage).all fun vfn => vfn < lopage || (x.pPagedir vfn).all fun e =>
    !(e.ptUser && e.ptWrite)

/-- What has to be left out: faults that install an entry in an area without `PROT_WRITE`, new areas
without it over pages that have one, and splits that make such an area. -/
def KeepsAccess (s : VmSys) : VmCall → Bool
  | .fault p vfn cause _ _ => (s.proc p).all fun x => cause &&& faultUser == 0 ||
      x.pVmmap.all fun vma => !vma.covers vfn || writable vma
  | .map p a => (s.proc p).all fun x => (a.lopage == 0 || removeKeeps x a.env a.lopage a.npages) &&
      (a.prot &&& protWrite != 0 || (mapPlace x a).all fun lopage =>
        noWritable x lopage ((lopage + a.npages) % 2 ^ 32))
  | .unmap p lopage npages e => (s.proc p).all fun x => removeKeeps x e lopage npages
  | _ => true

theorem removeKeeps_guarded (h : x.Guarded) {e : RemoveEnv} {lopage npages passed : Nat}
    {map : List Vmarea} (hk : removeKeeps x e lopage npages = true)
    (hr : Vm.vmmapRemove e.fresh e.pagenumAt x.pVmmap lopage npages = .ok (passed, map)) :
    ∀ vma ∈ map, AreaGuarded x.pPagedir vma := by
  rw [removeKeeps, and_eq_true, decide_eq_true_eq, Bool.or_eq_true, decide_eq_true_eq] at hk
  refine vmmapRemove_forall AreaGuarded.part hk.1 (hk.2.imp_left fun hall => ?_) h hr
  intro stale hs vlow vhigh
  rw [hs, all_some] at hall
  exact areaGuarded_of_writable hall

theorem withArea_guarded {a : MapArgs} {map map' : List Vmarea} (hk : (a.prot &&& protWrite != 0 ||
      (mapPlace x a).all fun lopage => noWritable x lopage ((lopage + a.npages) % 2 ^ 32)) = true)
    (hmap : ∀ vma ∈ map, AreaGuarded x.pPagedir vma) (h : WithArea x a map map') :
    ∀ vma ∈ map', AreaGuarded x.pPagedir vma := by
  obtain rfl | ⟨lopage, obj, hplace, rfl⟩ := h
  · exact hmap
  · intro vma hvma
    obtain rfl | hvma := mem_insertArea.mp hvma
    · obtain hw | hno := Bool.or_eq_true .. ▸ hk
      · exact areaGuarded_of_writable hw
      · rw [hplace, all_some, noWritable] at hno
        intro vfn e hc he hu hw
        obtain ⟨hlt, hle⟩ := Vmarea.covers_iff.mp hc
        have hfree := all_eq_true.mp hno vfn (mem_range.mpr hlt)
        rw [Bool.or_eq_true, decide_eq_true_eq, he, all_some, hu, hw] at hfree
        exact hfree.elim (fun hbelow => absurd hbelow hle.not_gt) nofun
    · exact hmap vma hvma

/-- **One call** that is not left out keeps the entries in order. -/
theorem guarded_step (hw : Wf s) (hg : Guarded s) {c : VmCall} (hl : VmLegal s c)
    (hk : KeepsAccess s c = true) (h : vmStep s c = .ok t) : Guarded t := by
  have hstep := (vmStep_spec hw c hl h).2
  generalize hproc : t.proc = procs at hstep
  cases hstep with
  | same => exact hg.congr hproc
  | spawn | ended =>
    refine hg.update hproc fun y hy => ?_
    cases hy
    exact nofun
  | reap => exact hg.update hproc nofun
  | @stuck _ p x hx =>
    refine hg.update hproc fun y hy => ?_
    cases hy
    exact hg p x hx
  | @entry p vfn cause _ _ x hx hc e =>
    rw [KeepsAccess, hx, Option.all_some, Bool.or_eq_true, beq_iff_eq, List.all_eq_true] at hk
    refine hg.update hproc fun y hy vma hvma => ?_
    cases hy
    refine (hg p x hx vma hvma).update fun hcov => ?_
    have hwrite := hk.resolve_left hc vma hvma
    rwa [hcov] at hwrite
  | @map p a x map hx hend =>
    rw [KeepsAccess, hx, all_some, and_eq_true, Bool.or_eq_true, beq_iff_eq] at hk
    refine hg.update hproc fun y hy => ?_
    cases hy
    change ∀ vma ∈ map, AreaGuarded x.pPagedir vma
    -- the new area goes into the areas there were, or into what a removal left of them
    obtain hwith | ⟨hpos, passed, left, hremove, hwith⟩ := hend
    · exact withArea_guarded hk.2 (hg p x hx) hwith
    · exact withArea_guarded hk.2 (removeKeeps_guarded (hg p x hx) (hk.1.resolve_left hpos) hremove)
        hwith
  | unmap hx hr =>
    rw [KeepsAccess, hx, all_some] at hk
    refine hg.update hproc fun y hy => ?_
    cases hy
    exact removeKeeps_guarded (hg _ _ hx) hk hr
  | @fork p child stale x pd parents children hx hpd hparents =>
    have hparent : ({ x with pVmmap := parents, pPagedir := pd } : Proc).Guarded :=
      (hg p x hx).of_shapes hparents hpd
    intro q y hy
    rw [hproc, update_apply, update_apply] at hy
    split_ifs at hy
    · cases hy
      exact fun _ _ _ _ _ he => by cases he
    · cases hy
      exact hparent
    · exact hg q y hy

/-! ## 4. Access control in every run -/

/-- **A fault that installs an entry is controlled exactly where the area permits the access and
writing, any other where it permits the access; and a run that leaves out the other faults, areas
without `PROT_WRITE` over pages with writable entries, and splits that make such areas, never has a
user-writable entry for a page of an area without `PROT_WRITE`.** -/
theorem fault_access_control (nmmobj npframe npages target : Nat) :
    (∀ (s : VmSys) (p : Nat) (x : Proc) (disk : Nat → UInt8) (ptPage : Bool) (vfn cause : Nat)
      (r : VmSys × FaultResult), Wf s → s.proc p = some x →
      handlePagefault disk ptPage s p vfn cause = .ok r →
      ((∃ e, r.2 = .mapped e) → (Controlled s p vfn cause x.pVmmap r ↔
        InOrder x.pVmmap vfn cause fun vma => permits cause vma && writable vma)) ∧
      ((∀ e, r.2 ≠ .mapped e) → (Controlled s p vfn cause x.pVmmap r ↔
        InOrder x.pVmmap vfn cause (permits cause)))) ∧
    ∀ s, Lts.Run (fun t c => VmLegal t c ∧ KeepsAccess t c = true) vmStep
      (bootVm nmmobj npframe npages target) s → Guarded s := by
  refine ⟨fun s p x disk ptPage vfn cause r hw hx h => ?_, fun s hrun => ?_⟩
  · have hf := handlePagefault_faulted hw hx disk ptPage vfn cause r h
    refine ⟨fun hmap => hf.controlled_iff (fun vma => ?_) hx,
      fun hno => hf.controlled_iff (fun vma => ?_) hx⟩
    · rw [and_eq_true, imp_iff_right hmap]
    · exact (and_iff_left fun ⟨e, he⟩ => absurd he (hno e)).symm
  · have hboot := bootVm_wf nmmobj npframe npages target
    have hinv : Wf s ∧ Guarded s := by
      refine hrun.invariant (I := fun t => Wf t ∧ Guarded t) ⟨hboot, nofun⟩ ?_
      rintro t c u ⟨hw, hg⟩ ⟨hl, hk⟩ hs
      exact ⟨(vmStep_spec hw c hl hs).1, guarded_step hw hg hl hk hs⟩
    exact hinv.2

/-- A process with one private page of that protection. -/
def oneArea (prot : Nat) : List VmCall :=
  [.pageoutd, .spawn 1, .map 1 (.onePage 0x400 prot mapPrivate)]

/-- The process runs, its page has that protection, and a write to the page ends with an entry. -/
def writeMaps (prot : Nat) (s : VmSys) : Bool :=
  (s.proc 1).any (fun x =>
    x.pState == .running && (vmmapLookup x.pVmmap 0x400).any (·.vmaProt == prot)) &&
    (handlePagefault (fun _ => 0) true s 1 0x400 6).toOption.any fun r => r.2 matches .mapped _

theorem of_writeMaps {prot : Nat} (h : writeMaps prot s = true) :
    ∃ x vma t e, s.proc 1 = some x ∧ s.runs 1 = true ∧ vmmapLookup x.pVmmap 0x400 = some vma ∧
      vma.vmaProt = prot ∧ handlePagefault (fun _ => 0) true s 1 0x400 6 = .ok (t, .mapped e) := by
  rw [writeMaps, and_eq_true, Option.any_eq_true] at h
  obtain ⟨⟨x, hx, harea⟩, hfault⟩ := h
  rw [and_eq_true, Option.any_eq_true] at harea
  obtain ⟨hrun, vma, hl, hprot⟩ := harea
  have hruns : s.runs 1 = true := by rw [VmSys.runs, hx, any_some, hrun]
  obtain ⟨⟨t, result⟩, hr, hmatch⟩ := ok_of_any hfault
  cases result with
  | mapped e => exact ⟨x, vma, t, e, hx, hruns, hl, beq_iff_eq.mp hprot, hr⟩
  | killed | nomem | stuck => cases hmatch

/-- A writable page: the fault is controlled, and the entry it installs is in order. -/
theorem fault_access_control_writable :
    (∃ s x r, Lts.Run VmLegal vmStep (bootVm 8 8 4 2) s ∧ s.proc 1 = some x ∧
      handlePagefault (fun _ => 0) true s 1 0x400 6 = .ok r ∧ (∃ e, r.2 = .mapped e) ∧
      Controlled s 1 0x400 6 x.pVmmap r) ∧
    ∃ s, Lts.Run (fun t c => VmLegal t c ∧ KeepsAccess t c = true) vmStep (bootVm 8 8 4 2) s ∧
      (s.pte 1 0x400).isSome = true ∧ Guarded s := by
  constructor
  · obtain ⟨s, hrun, htest⟩ : ∃ s, Lts.Run VmLegal vmStep (bootVm 8 8 4 2) s ∧ writeMaps 3 s :=
      Lts.exists_run (oneArea 3) (by decide +kernel)
    obtain ⟨x, vma, t, e, hx, -, hl, hprot, hr⟩ := of_writeMaps htest
    have hw := wf_of_run (bootVm_wf 8 8 4 2) (fun _ _ h => h) hrun
    refine ⟨s, x, _, hrun, hx, hr, ⟨e, rfl⟩, ?_⟩
    refine (((fault_access_control 8 8 4 2).1 s 1 x _ true 0x400 6 _ hw hx hr).1 ⟨e, rfl⟩).mpr ?_
    have hwrite : writable vma = true := by rw [writable, hprot]; rfl
    exact .inr (.inr ⟨vma, hl, and_eq_true_iff.mpr ⟨hwrite, hwrite⟩⟩)
  · obtain ⟨s, hrun, htest⟩ : ∃ s, Lts.Run (fun t c => VmLegal t c ∧ KeepsAccess t c = true) vmStep
        (bootVm 8 8 4 2) s ∧ (s.pte 1 0x400).isSome = true :=
      Lts.exists_run (oneArea 3 ++ [.fault 1 0x400 6 (fun _ => 0) true]) (by decide +kernel)
    exact ⟨s, hrun, htest, (fault_access_control 8 8 4 2).2 s hrun⟩

/-! ## 5. A page without `PROT_WRITE` -/

/-- An entry installed in an area without `PROT_WRITE` is not in order. -/
theorem not_guarded_of_mapped (hw : Wf s) (hx : s.proc p = some x) {disk : Nat → UInt8}
    {ptPage : Bool} {e : Pte}
    (hl : vmmapLookup x.pVmmap vfn = some vma) (hno : writable vma = false)
    (h : handlePagefault disk ptPage s p vfn cause = .ok (t, .mapped e)) : ¬ Guarded t := by
  intro hg
  cases handlePagefault_faulted hw hx disk ptPage vfn cause _ h with
  | mapped _ _ _ _ =>
    obtain ⟨hmem, hcov⟩ := of_lookup_eq_some hl
    have hwrite := hg p _ (update_self ..) vma hmem vfn _ hcov (update_self ..) rfl rfl
    rw [hno] at hwrite
    cases hwrite

/-- A process writes to a page of an area with `PROT_READ` only: it is not killed but gets an entry,
and the entry is writable. -/
theorem write_to_read_only_area : ∃ s x t e, Lts.Run VmLegal vmStep (bootVm 8 8 4 2) s ∧
    s.proc 1 = some x ∧ (vmmapLookup x.pVmmap 0x400).map (·.vmaProt) = some protRead ∧
    handlePagefault (fun _ => 0) true s 1 0x400 6 = .ok (t, .mapped e) ∧
    ¬ Controlled s 1 0x400 6 x.pVmmap (t, .mapped e) ∧
    Lts.Run VmLegal vmStep (bootVm 8 8 4 2) t ∧ ¬ Guarded t := by
  obtain ⟨s, hrun, htest⟩ : ∃ s, Lts.Run VmLegal vmStep (bootVm 8 8 4 2) s ∧ writeMaps protRead s :=
    Lts.exists_run (oneArea protRead) (by decide +kernel)
  obtain ⟨x, vma, t, e, hx, hruns, hl, hprot, hr⟩ := of_writeMaps htest
  have hw := wf_of_run (bootVm_wf 8 8 4 2) (fun _ _ h => h) hrun
  have hno : writable vma = false := by rw [writable, hprot]; rfl
  have hstep : vmStep s (.fault 1 0x400 6 (fun _ => 0) true) = .ok t := by
    rw [vmStep, hr]
    rfl
  have hlegal : VmLegal s (.fault 1 0x400 6 (fun _ => 0) true) := hruns
  refine ⟨s, x, t, e, hrun, hx, by rw [hl, map_some, hprot], hr, ?_, .tail hrun hlegal hstep,
    not_guarded_of_mapped hw hx hl hno hr⟩
  rintro (⟨hk, -⟩ | ⟨vma', hvma, hp, -⟩)
  · cases hk
  · obtain rfl : vma = vma' := some.inj (hl.symm.trans hvma)
    rw [show permits 6 vma = writable vma from rfl, hno] at hp
    cases hp

end Weenix.Pageout
