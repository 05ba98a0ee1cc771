/-
# Pages given back while they are mapped

`pframe_free` takes its page out of all page tables before it gives the page back, so that no
process is left with an entry for memory that is not its own.  It finds the page tables through the
list of areas on the bottom object, and no function puts an area on that list; in the states that
occur it removes nothing (`pframeRemoveFromPts_yields`).

So a page is given back unmapped only if it was unmapped before the call.  Which frames a call may
free can be read off the state before it (`MayFree`): the daemon frees the frame at the head of
`alloc_list` when pages are short, `vput` those of a file without links, and an unmapped area those
of the object it gives up.  `vmStep_frees` says that nothing else is freed; in the runs in which no
process has an entry for such a frame at the next call there is no stale entry
(`no_stale_mappings`).
-/
import Weenix.Pageout.References

namespace Weenix.Pageout

open List Option VmSys Upds

open Weenix.Vm (Vmarea mapPrivate removeTail)

variable {hi lo o p pf : Nat} {x : Proc} {f : Pframe} {s t : VmSys} {c : VmCall}

/-! ## 1. The frames a call may free -/

/-- `mmobj_put(o)` frees pages of `o`: it drops the last reference but those of the pages, and `o`
is neither anonymous (`anon_put` only cleans its pages) nor a file with links. -/
def PutFrees (s : VmSys) (o : Nat) : Prop :=
  ∃ x, s.mmobj o = some x ∧ x.mmoRefcount - 1 = x.mmoNrespages ∧ x.mmoOps ≠ .anon ∧
    (x.mmoOps = .vnode → s.vnLinked o = false)

/-- The daemon is short of pages and comes to a frame that is neither busy nor pinned, and clean or
private: it frees the frame, and with it the others of the object if only they are left. -/
def DaemonFrees (s : VmSys) (pf o : Nat) : Prop :=
  s.freePages.length < s.nfreepagesTarget ∧ ∃ q g x, s.allocList.head? = some q ∧
    s.pframe q = some g ∧ g.pfBusy = false ∧ g.pfPincount = 0 ∧ s.mmobj g.pfObj = some x ∧
    (g.pfDirty = true → x.mmoOps = .shadow) ∧ o = g.pfObj ∧
    (pf = q ∨ x.mmoRefcount = x.mmoNrespages ∧ x.mmoOps ≠ .anon ∧
      (x.mmoOps = .vnode → s.vnLinked o = false))

/-- An area of the process lies inside the range, and its object is not anonymous. -/
def RangeFrees (s : VmSys) (p lopage npages o : Nat) : Prop :=
  ∃ x y vma, s.proc p = some x ∧ vma ∈ x.pVmmap ∧ lopage ≤ vma.vmaStart ∧
    vma.vmaEnd ≤ (lopage + npages) % 2 ^ 32 ∧ vma.vmaObj = o ∧ s.mmobj o = some y ∧
    y.mmoOps ≠ .anon

/-- The call may free frame `pf`, of object `o`. -/
def MayFree (s : VmSys) (c : VmCall) (pf o : Nat) : Prop :=
  match c with
  | .pageoutd => DaemonFrees s pf o
  | .vput v => o = v ∧ PutFrees s v
  | .unmap p lopage npages _ => RangeFrees s p lopage npages o
  | .map p a => a.lopage ≠ 0 ∧ RangeFrees s p a.lopage a.npages o
  | _ => False

theorem mmobjPut_frees (hw : Wf s) (o fuel : Nat) :
    Yields (mmobjPut fuel s o) (Frees (fun _ o' => o' = o ∧ PutFrees s o) s) := by
  by_cases hfrees : PutFrees s o
  · exact ((putSpec fuel).put hw).imp fun _ h => (Upds.frees h).mono fun _ _ ho => ⟨ho, hfrees⟩
  refine Yields.imp (Q := fun t => t.released = s.released) ?_ fun _ => Frees.of_eq
  cases fuel with
  | zero => exact .error _
  | succ fuel =>
    have hslab : ∀ {t : VmSys}, t.released = s.released →
        Yields (slabFree t o) fun u => u.released = s.released := fun h => .seq fun _ => .pure h
    rw [mmobjPut]
    refine .bind (theObj_yields s o) fun x hx => ?_
    split
    case h_1 hops =>
      have hanon : ∀ y, s.mmobj o = some y → y.mmoOps = .anon := fun y hy =>
        some.inj (hx.symm.trans hy) ▸ hops
      refine .seq fun _ => .bind (Q := fun t => t.released = s.released) ?_ fun t ht =>
        .seq fun y => ?_
      · refine .ite (fun _ => ?_) fun _ => .ok rfl
        exact (respagesLoop_anon fuel hw hanon (hw.ofObj hx)).imp fun _ h => Upds.released_eq h
      · exact .ite (fun _ => hslab ht) fun _ => .pure ht
    case h_2 hops =>
      refine .seq fun _ => .ite (fun hlast => ?_) fun _ => .pure rfl
      exact absurd ⟨x, hx, hlast.1, by simp [hops], by simp [hops]⟩ hfrees
    case h_3 hops =>
      refine .seq fun _ => .seq fun _ => .bind (Q := fun t => t.released = s.released) ?_
        fun t ht => .seq fun y => ?_
      · refine .ite (fun hlast => ?_) fun _ => .ok rfl
        exact absurd ⟨x, hx, hlast.1.symm, by simp [hops], fun _ => hlast.2⟩ hfrees
      · exact .ite (fun _ => .pure ht) fun _ => .seq fun _ => .seq fun _ => hslab ht

/-! ### The daemon -/

theorem pframeFree_frees (hw : Wf s) (hf : s.pframe pf = some f) (fuel : Nat) :
    Yields (pframeFree fuel s pf) fun t => f.pfPincount = 0 ∧ ∃ x, s.mmobj f.pfObj = some x ∧
      Frees (fun q o => o = f.pfObj ∧ (q = pf ∨ x.mmoRefcount = x.mmoNrespages ∧
        x.mmoOps ≠ .anon ∧ (x.mmoOps = .vnode → s.vnLinked o = false))) s t := by
  cases fuel with
  | zero => exact .error _
  | succ fuel =>
    rw [pframeFree]
    refine .bind (theFrame_yields s pf) fun f' hf' =>
      .bind (Q := fun _ => f'.pfPincount = 0) (fun _ h => beq_iff_eq.mp (kassert_eq_ok h))
        fun _ hpin => .seq fun _ => .bind (pframeRemoveFromPts_yields hw pf) ?_
    rintro _ rfl
    obtain rfl : f = f' := some.inj (hf.symm.trans hf')
    refine .bind (theObj_yields _ _) fun x hx => ?_
    have hunlink : Upd (· = f.pfObj) false _ _ := .unlink rfl hf hx
    refine (mmobjPut_frees (hunlink.wf hw) _ _).imp fun t ht => ⟨hpin, x, hx, ?_⟩
    refine Frees.trans (t := unlinkFrame _ pf f x) ⟨[(f.pfAddr, _)], rfl,
      fun e he => ?_⟩ (ht.mono ?_)
      rfl fun h => (ident_unlinkFrame.mp h).2
    · obtain rfl := mem_singleton.mp he
      exact ⟨rfl, pf, f.pfObj, f.pfPagenum, ident_of hf, rfl, .inl rfl⟩
    · rintro q o ⟨rfl, y, hy, hcount, hops, hlinks⟩
      rw [show (unlinkFrame _ pf f x).mmobj f.pfObj = _ from update_self ..] at hy
      cases hy
      exact ⟨rfl, .inr ⟨by simpa using hcount, hops, hlinks⟩⟩

/-- A page that is dirty goes only if it is private. -/
theorem pframeClean_frees (hw : Wf s) (hf : s.pframe pf = some f) (hdirty : f.pfDirty = true)
    (fuel : Nat) : Yields (pframeClean fuel s pf) (Frees (fun q o => f.pfPincount = 0 ∧
      ∃ x, s.mmobj f.pfObj = some x ∧ x.mmoOps = .shadow ∧ o = f.pfObj ∧
        (q = pf ∨ x.mmoRefcount = x.mmoNrespages ∧ x.mmoOps ≠ .anon ∧
          (x.mmoOps = .vnode → s.vnLinked o = false))) s) := by
  cases fuel with
  | zero => exact .error _
  | succ fuel =>
    by_cases hshadow : ∃ x, s.mmobj f.pfObj = some x ∧ x.mmoOps = .shadow ∧ f.pfPincount = 0
    · obtain ⟨x, hx, hops, hpin⟩ := hshadow
      rw [pframeClean_eq hw hf hdirty hpin hx, hops]
      have hu : Upds (fun _ => False) false s _ := cleaned_upds hf (s.allocList.erase pf ++ [pf])
      refine .seq fun _ => (pframeFree_frees (f := f.cleaned) (hu.wf hw) (update_self ..) _).imp ?_
      rintro t ⟨-, y, hy, ht⟩
      obtain rfl : x = y := some.inj (hx.symm.trans hy)
      refine (Frees.of_eq (released_eq hu)).trans (ht.mono fun q o hq => ?_) (Upds.pte hu)
        (ident_old hu)
      exact ⟨hpin, x, hx, hops, hq⟩
    · refine Yields.imp (Q := fun t => t.released = s.released) ?_ fun _ => Frees.of_eq
      by_cases hpin : f.pfPincount = 0
      · have hof : OfObj s f.pfObj pf := fun i hi => by
          rw [ident_of hf] at hi
          cases hi
          rfl
        exact (pframeClean_upds (P := fun _ => False) (putSpec fuel) hw hof fun x hx hops =>
          hshadow ⟨x, hx, hops, hpin⟩).imp fun t ht => released_eq ht
      · rw [pframeClean]
        refine .bind (theFrame_yields s pf) fun f' hf' => .seq fun _ =>
          .bind (Q := fun _ => f'.pfPincount = 0) (fun _ h => beq_iff_eq.mp (kassert_eq_ok h))
            fun _ hpin' => ?_
        obtain rfl : f = f' := some.inj (hf.symm.trans hf')
        exact absurd hpin' hpin

theorem pageoutdRun_frees (hw : Wf s) : Yields (pageoutdRun s) (Frees (DaemonFrees s) s) := by
  refine .ite (fun hshort => ?_) fun _ => .ok (.of_eq rfl)
  split
  case h_1 => exact .ok (.of_eq rfl)
  case h_2 pf rest hlist =>
    refine .bind (theFrame_yields s pf) fun f hf => ?_
    have hhead : s.allocList.head? = some pf := by rw [hlist, head?_cons]
    refine .ite (fun _ => .pure (.of_eq rfl)) fun hbusy => .ite (fun hdirty => ?_) fun hclean => ?_
    · refine (pframeClean_frees hw hf hdirty _).imp fun t ht => ht.mono fun q o hq => ?_
      obtain ⟨hpin, x, hx, hops, hq⟩ := hq
      exact ⟨hshort, pf, f, x, hhead, hf, Bool.eq_false_iff.mpr hbusy, hpin, hx, fun _ => hops, hq⟩
    · refine (pframeFree_frees hw hf _).imp fun t ⟨hpin, x, hx, ht⟩ => ht.mono fun q o hq => ?_
      exact ⟨hshort, pf, f, x, hhead, hf, Bool.eq_false_iff.mpr hbusy, hpin, hx,
        fun h => absurd h hclean, hq⟩

/-! ### Removing a range -/

theorem removeTail_inside {pagenumAt : Nat → Nat} {vma : Vmarea} {passed : Bool}
    (h : (removeTail pagenumAt lo hi vma passed).1.isNone = true) :
    lo ≤ vma.vmaStart ∧ vma.vmaEnd ≤ hi := by
  unfold removeTail at h
  grind

/-- The object is live and not anonymous. -/
def VmSys.notAnon (s : VmSys) (o : Nat) : Prop := ∃ y, s.mmobj o = some y ∧ y.mmoOps ≠ .anon

theorem Upds.notAnon_old {P : Nat → Prop} {new : Bool} (h : Upds P new s t) (ho : t.notAnon o) :
    s.notAnon o := by
  obtain ⟨y, hy, hops⟩ := ho
  obtain ⟨x, hx, heq⟩ := ops h hy
  exact ⟨x, hx, heq ▸ hops⟩

theorem removeLoop_frees (fresh : Option Vmarea) (pagenumAt : Nat → Nat) (fuel : Nat) {s : VmSys}
    (passed : Bool) (before rest : List Vmarea) {R : Nat → Prop} (hw : Wf s)
    (hR : ∀ vma ∈ rest, lo ≤ vma.vmaStart → vma.vmaEnd ≤ hi → s.notAnon vma.vmaObj → R vma.vmaObj) :
    Yields (removeLoop fresh pagenumAt lo hi fuel s passed before rest) fun r =>
      Frees (fun _ => R) s r.1 := by
  fun_induction removeLoop fresh pagenumAt lo hi fuel s passed before rest with
  | case1 => exact .error _
  | case2 => exact .ok (.of_eq rfl)
  | case3 => exact .ok (.of_eq rfl)
  | case4 fuel s passed before vma rest hin stale hfresh newvma part ih =>
    subst hfresh
    refine .seq fun _ => ?_
    split
    rename_i before' rest' heq
    refine ih _ _ hw fun a ha hlo hhi => ?_
    obtain rfl | ha := mem_insertSplit_rest heq ha
    · exact absurd hhi (Nat.not_le.mpr hin.2)    -- the part behind the range
    · exact hR a (.tail _ ha) hlo hhi
  | case5 fuel s passed before vma rest hout ih =>
    have hrest : ∀ a ∈ rest, a ∈ vma :: rest := fun a ha => .tail _ ha
    by_cases hgone : (removeTail pagenumAt lo hi vma passed).1.isNone
    · rw [if_pos hgone]
      refine .bind (((putSpec _).put hw).and (mmobjPut_frees hw _ _)) fun t ⟨hputs, ht⟩ => ?_
      refine (ih _ (hputs.wf hw) fun a ha hlo hhi ho => hR a (hrest a ha) hlo hhi
        (notAnon_old hputs ho)).imp fun r hr => ?_
      refine (ht.mono ?_).trans hr (Upds.pte hputs) (ident_old hputs)
      rintro _ o ⟨rfl, y, hy, -, hops, -⟩
      have hinside := removeTail_inside hgone
      exact hR vma (.head _) hinside.1 hinside.2 ⟨y, hy, hops⟩
    · rw [if_neg hgone]
      exact ih _ hw fun a ha => hR a (hrest a ha)

theorem vmmapRemove_frees (hw : Wf s) (e : RemoveEnv) (p lopage npages : Nat) :
    Yields (vmmapRemove e s p lopage npages) fun r =>
      Frees (fun _ => RangeFrees s p lopage npages) s r.1 := by
  refine .bind (theProc_yields s p) fun x hx => ?_
  refine .bind (removeLoop_frees _ _ _ _ _ _ hw fun vma hvma hlo hhi ⟨y, hy, hops⟩ =>
    ⟨x, y, vma, hx, hvma, hlo, hhi, rfl, hy, hops⟩) fun r hr => .seq fun _ => .pure hr

theorem vmmapMap_frees (hw : Wf s) (hx : s.proc p = some x) (a : MapArgs) :
    Yields (vmmapMap s p a) fun r =>
      Frees (fun _ o => a.lopage ≠ 0 ∧ RangeFrees s p a.lopage a.npages o) s r.1 := by
  refine vmmapMap_yields hx (fun _ => .of_eq rfl) (fun lopage _ _ => ?_) fun hpos _ => ?_
  · exact (mapArea_alters hw hx a lopage).imp fun r hr => .of_eq hr.1.released
  · refine ((vmmapRemove_frees hw a.env p a.lopage a.npages).and
      (vmmapRemove_alters hw hx a.env a.lopage a.npages)).imp fun r ⟨hr, hst, map, _, hproc⟩ => ?_
    have hxt : r.1.proc p = some { x with pVmmap := map } := by rw [hproc, update_self]
    refine (mapArea_alters (hst.wf hw) hxt a a.lopage).imp fun u hu => ?_
    obtain ⟨l, hl, hall⟩ := hr.mono fun _ _ h => And.intro hpos h
    exact ⟨l, hu.1.released.trans hl, hall⟩

/-- **A call gives back only pages of frames it may free, and under the page tables it finds.** -/
theorem vmStep_frees (hw : Wf s) (c : VmCall) (hl : VmLegal s c) (h : vmStep s c = .ok t) :
    Frees (MayFree s c) s t := by
  cases c with
  | load | store | link | scribble | takePage | givePage | slabs | spawn | reap =>
    cases h
    exact .of_eq rfl
  | exit p status =>
    obtain ⟨x, hx⟩ := exists_of_runs hl
    rw [exitProc_yields hx status t h]
    exact .of_eq rfl
  | fault p vfn cause disk ptPage =>
    obtain ⟨x, hx⟩ := exists_of_runs hl
    refine .of_eq (fst_yields (Q := fun u => u.released = s.released) h
      ((handlePagefault_faulted hw hx disk ptPage vfn cause).imp fun r hr => ?_))
    cases hr with
    | killed => rfl
    | stuck _ _ hg => exact (released_eq hg.upds :)
    | nomem _ _ hg => exact released_eq hg.upds
    | mapped _ _ hg => exact (released_eq hg.upds :)
  | map p a =>
    obtain ⟨x, hx⟩ := exists_of_runs hl
    exact fst_yields h (vmmapMap_frees hw hx a)
  | unmap p lopage npages e => exact fst_yields h (vmmapRemove_frees hw e p lopage npages)
  | fork p child stale =>
    obtain ⟨x, hx⟩ := exists_of_runs hl.1
    obtain ⟨u, pd, parents, children, hf, rfl⟩ := doFork_yields hw hx child stale t h
    exact .of_eq hf.grows.rest.2
  | vget =>
    cases h
    exact .of_eq (vget_grows s).rest.2
  | pageoutd => exact pageoutdRun_frees hw t h
  | vput v => exact mmobjPut_frees hw v _ t h
  | filePage o k disk =>
    refine .of_eq (fst_yields (Q := fun u => u.released = s.released) h ?_)
    exact (pframeGet_got disk 3 o k hw).imp fun _ hr => released_eq hr.upds
  | fileDirty o k =>
    have hu : Upds (fun _ => False) false s t := fileDirty_upds o k t h
    exact .of_eq (released_eq hu)

/-! ## 2. What is asked of a page that is given back -/

/-- No user entry of the page tables is for the page. -/
def Clean (e : Nat × PageTables) : Prop :=
  ∀ p vfn pte, e.2 p vfn = some pte → pte.ptUser = true → pte.paddr ≠ e.1

/-- No process has an entry for the page. -/
def Unmapped (s : VmSys) (a : Nat) : Prop := Clean (a, s.pte)

/-- No process has an entry for the page of a frame that the call may free. -/
def FreesUnmapped (s : VmSys) (c : VmCall) : Prop :=
  ∀ pf f, s.pframe pf = some f → MayFree s c pf f.pfObj → Unmapped s f.pfAddr

/-- One call: what it gives back was unmapped before, and `pframe_free` changes no page table. -/
theorem clean_step (hw : Wf s) (hl : VmLegal s c) (h : vmStep s c = .ok t)
    (hold : ∀ e ∈ s.released, Clean e) (hfrees : FreesUnmapped s c) :
    ∀ e ∈ t.released, Clean e := by
  obtain ⟨l, hrel, hall⟩ := vmStep_frees hw c hl h
  rintro ⟨a, pte⟩ he
  rw [hrel] at he
  obtain he | he := mem_append.mp he
  · obtain ⟨rfl, pf, o, k, hid, hmay⟩ := hall _ he
    obtain ⟨f, hf, hfid⟩ := exists_of_ident hid
    cases hfid
    exact hfrees pf f hf hmay
  · exact hold _ he

/-! ## 3. Runs -/

/-- **No page is given back while a process has an entry for it**, in the runs in which no process
has an entry for the page of a frame that the next call may free: `pframe_free` takes no entry
away. -/
theorem no_stale_mappings (nmmobj npframe npages target : Nat) (s : VmSys)
    (hr : Lts.Run (fun t c => VmLegal t c ∧ FreesUnmapped t c) vmStep
      (bootVm nmmobj npframe npages target) s) : ∀ e ∈ s.released, Clean e := by
  induction hr with
  | refl => nofun
  | @tail t u c hrun hl hs ih =>
    have hw := wf_of_run (bootVm_wf nmmobj npframe npages target) (fun _ _ h => h.1) hrun
    exact clean_step hw hl.1 hs ih hl.2

def VmCall.spawns : VmCall → Bool
  | .spawn _ => true
  | _ => false

/-- Without a process there is no entry. -/
theorem freesUnmapped_of_run (h0 : ∀ p, s.proc p = none)
    (hr : Lts.Run (fun u c => VmLegal u c ∧ c.spawns = false) vmStep s t) (hw : Wf s) :
    (∀ p, t.proc p = none) ∧ Lts.Run (fun u c => VmLegal u c ∧ FreesUnmapped u c) vmStep s t := by
  induction hr with
  | refl => exact ⟨h0, .refl⟩
  | @tail t u c hrun hl hs ih =>
    obtain ⟨hnone, hrun'⟩ := ih
    have hlost : ∀ {p x}, t.proc p ≠ some x := fun {p x} hx => by
      rw [hnone p] at hx
      cases hx
    have hun : ∀ a, Unmapped t a := fun a p vfn pte hpte => by
      change t.pte p vfn = some pte at hpte
      rw [VmSys.pte, hnone p] at hpte
      cases hpte
    refine ⟨?_, hrun'.tail ⟨hl.1, fun _ _ _ _ => hun _⟩ hs⟩
    have hstep := (vmStep_spec (wf_of_run hw (fun _ _ h => h.1) hrun) c hl.1 hs).2
    generalize u.proc = proc at hstep ⊢
    cases hstep with
    | same => exact hnone
    | spawn p => cases hl.2
    | reap hx | ended hx | stuck hx | entry hx | map hx | unmap hx | fork hx =>
      exact absurd hx hlost

/-- The daemon frees the page of a file. -/
theorem no_stale_mappings_file : ∃ s,
    Lts.Run (fun t c => VmLegal t c ∧ FreesUnmapped t c) vmStep (bootVm 8 8 4 5) s ∧
      s.released ≠ [] ∧ ∀ e ∈ s.released, Clean e := by
  obtain ⟨s, hrun, hfreed⟩ : ∃ s, Lts.Run (fun t c => VmLegal t c ∧ c.spawns = false) vmStep
      (bootVm 8 8 4 5) s ∧ s.released.length = 1 :=
    Lts.exists_run [.vget, .filePage 0 3 fun _ => 7, .pageoutd] (by decide +kernel)
  obtain ⟨-, hr⟩ := freesUnmapped_of_run (fun _ => rfl) hrun (bootVm_wf ..)
  refine ⟨s, hr, fun h => ?_, no_stale_mappings 8 8 4 5 s hr⟩
  rw [h] at hfreed
  cases hfreed

/-! ## 4. A stale entry -/

/-- Two processes on a machine with four pages.  The first writes to a private page; when the second
needs a page and there is none left, the daemon takes the one the first has written to. -/
def pressure : List VmCall :=
  [.pageoutd, .spawn 1, .map 1 (.onePage 0x400 3 mapPrivate), .fault 1 0x400 6 (fun _ => 0) true,
    .store 1 0x400 0 7, .spawn 2, .map 2 (.onePage 0x400 3 mapPrivate), .takePage, .takePage,
    .fault 2 0x400 6 (fun _ => 0) true, .pageoutd]

/-- A page was given back that the first process had an entry for. -/
def staleTest (s : VmSys) : Bool :=
  s.released.any fun e => (e.2 1 0x400).any fun pte => pte.ptUser && pte.paddr == e.1

/-- The daemon gives the page back, and the first process still has its entry for it. -/
theorem stale_mapping_under_pressure :
    ∃ s, Lts.Run VmLegal vmStep (bootVm 8 8 4 2) s ∧ ∃ e ∈ s.released, ¬ Clean e := by
  obtain ⟨s, hrun, htest⟩ : ∃ s, Lts.Run VmLegal vmStep (bootVm 8 8 4 2) s ∧ staleTest s :=
    Lts.exists_run pressure (by decide +kernel)
  obtain ⟨e, he, hany⟩ := any_eq_true.mp htest
  refine ⟨s, hrun, e, he, fun hclean => ?_⟩
  cases hpte : e.2 1 0x400 with
  | none =>
    rw [hpte] at hany
    cases hany
  | some pte =>
    rw [hpte, Option.any_some, Bool.and_eq_true, beq_iff_eq] at hany
    exact hclean 1 0x400 pte hpte hany.1 hany.2

end Weenix.Pageout
