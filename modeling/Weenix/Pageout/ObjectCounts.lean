/-
# Reference counts of anonymous and shadow objects

`mmo_refcount - mmo_nrespages` should be the number of references to an object that is in use.  The
calls do not keep the two apart in the same way.

* **`vmmap_map`** creates an object with one reference, takes another one, and stores one: a new
  anonymous or private mapping leaves each object it made with one reference too many
  (`mapArea_inexact`).
* **`do_fork`** makes two shadow objects on a private object, or copies a shared area, and takes no
  reference for either: every area leaves its object with one too few (`doFork_inexact`).
* **exit** drops the areas and no reference: an object that is in use elsewhere keeps the references
  of the process that is gone (`exitProc_exact_iff`).
* **`vmmap_remove`** drops one reference for each area it takes out, which is right, unless that
  frees a shadow object (`Pageout/References.lean`).

So the balance is kept by runs in which the calls of the first three kinds are about other objects,
and removals free no shadow object that shadows another one (`object_counts`).
-/
import Weenix.Pageout.References

namespace Weenix.Pageout

open List VmSys

open Refcount (census_pos census_store)
open Weenix.Vm
  (Vmarea Interior mapShared mapPrivate vmmapLookup insertArea insertArea_perm vmmapClone)

variable {new : Bool} {a : MapArgs} {child n npages o p : Nat} {stale : Vmarea → Nat}
  {x : Proc} {c : VmCall}
  {s t u : VmSys} {vma : Vmarea}

/-! ## 1. Steps about other objects -/

section
variable {n : Nat} {s t : VmSys} {A : Nat → Nat}

/-- There are no processes but the first `n`. -/
def Bounded (n : Nat) (s : VmSys) : Prop := ∀ p x, s.proc p = some x → p < n

theorem Bounded.update {x : Option Proc} (h : Bounded n s) (hp : p < n)
    (hproc : t.proc = update s.proc p x) : Bounded n t := by
  intro q y hy
  obtain ⟨hq, -⟩ | ⟨-, hy⟩ := of_update (hproc ▸ hy)
  · exact hq ▸ hp
  · exact h q y hy

theorem Bounded.congr (h : Bounded n s) (hproc : t.proc = s.proc) : Bounded n t := by
  intro q y hy
  exact h q y (hproc ▸ hy)

theorem shadows_of_not_counted (h : s.counted o = false) : s.shadows o = none := by
  unfold shadows
  cases hx : s.mmobj o with
  | none => rfl
  | some x =>
    rw [Option.bind_some, if_neg]
    intro hops
    rw [counted_iff.mpr ⟨x, hx, by rw [hops]; nofun⟩] at h
    cases h

/-- Only an object that is not counted changes, before and after. -/
theorem ExactFor.other (h : ExactFor s A) (hsize : t.nmmobj = s.nmmobj)
    (hothers : ∀ o', o' ≠ o → t.mmobj o' = s.mmobj o') (hs : s.counted o = false)
    (ht : t.counted o = false) : ExactFor t A := by
  have hshadows : ∀ q, t.shadows q = s.shadows q := by
    intro q
    by_cases hq : q = o
    · rw [hq, shadows_of_not_counted hs, shadows_of_not_counted ht]
    · rw [shadows, hothers q hq]
      rfl
  intro o' y hy hops
  have hne : o' ≠ o := by
    rintro rfl
    rw [counted_iff.mpr ⟨y, hy, hops⟩] at ht
    cases ht
  rw [shadowRefs_eq hsize hshadows]
  exact h o' y (hothers o' hne ▸ hy) hops

theorem ExactFor.puts (h : ExactFor s A) (hp : Puts o s t) (hs : s.counted o = false) :
    ExactFor t A := by
  refine h.other (Upds.nmmobj hp) (fun o' ho => Upds.mmobj_other hp ho) hs ?_
  refine Bool.eq_false_iff.mpr fun hc => ?_
  obtain ⟨y, hy, hops⟩ := counted_iff.mp hc
  obtain ⟨x, hx, heq⟩ := Upds.ops hp hy
  rw [counted_iff.mpr ⟨x, hx, heq ▸ hops⟩] at hs
  cases hs

theorem ExactFor.upds (h : ExactFor s A) (hu : Upds (fun _ => False) new s t) :
    ExactFor t A := h.of_account (Upds.account hu) (Upds.nmmobj hu)

theorem ExactFor.same (h : ExactFor s A) (hobj : t.mmobj = s.mmobj) (hsize : t.nmmobj = s.nmmobj) :
    ExactFor t A := by
  refine h.of_account ?_ hsize
  unfold account
  rw [hobj]

theorem areaRefs_same (h : ∀ p, t.areas p = s.areas p) : t.areaRefs n = s.areaRefs n := by
  funext o
  exact Finset.sum_congr rfl fun p _ => by rw [h p]

theorem areas_update {x : Option Proc} (h : t.proc = update s.proc p x) (q : Nat) :
    t.areas q = if q = p then (x.map (·.pVmmap)).getD [] else s.areas q := by
  rw [areas, h, update_apply]
  split <;> rfl

/-- The objects keep their balance, and a process changes something other than its areas. -/
theorem Exact.update {x : Option Proc} (h : ExactFor t (s.areaRefs n))
    (hproc : t.proc = update s.proc p x) (hx : (x.map (·.pVmmap)).getD [] = s.areas p) :
    Exact n t := by
  rw [exact_iff, areaRefs_same fun q => ?_]
  · exact h
  · rw [areas_update hproc]
    split
    case isTrue hq => rw [hx, hq]
    case isFalse => rfl

end

/-! ## 2. `vmmap_remove` and `vmmap_map` -/

/-- The test for `Puttable`. -/
def VmSys.puttable (s : VmSys) (o : Nat) : Bool :=
  (s.mmobj o).all fun x =>
    x.mmoOps != .shadow || x.mmoRespages.isEmpty || x.mmoShadowed.all fun z => !s.counted z

theorem puttable_iff : s.puttable o = true ↔ Puttable s o := by
  unfold puttable Puttable
  cases s.mmobj o with
  | none => simp
  | some x =>
    simp only [Option.all_some, Bool.or_eq_true, bne_iff_ne, ne_eq, List.isEmpty_iff,
      Option.some.injEq, forall_eq', Option.all_eq_true, Bool.not_eq_true', or_assoc]
    rw [imp_iff_not_or]

/-- Areas that are taken out can be, and a split gets no reference to an object that is counted. -/
def removeSafe (s : VmSys) (x : Proc) (e : RemoveEnv) (lopage npages : Nat) : Bool :=
  (x.pVmmap.all fun vma =>
    !dropsArea e.pagenumAt lopage ((lopage + npages) % 2 ^ 32) vma || s.puttable vma.vmaObj) &&
  (e.fresh.all (fun stale => !s.counted stale.vmaObj) ||
    ∀ vma ∈ x.pVmmap, ¬ Interior lopage ((lopage + npages) % 2 ^ 32) vma)

/-- The new area refers to an object that is not counted. -/
def mapSafe (s : VmSys) (a : MapArgs) : Bool :=
  match a.newvma, a.file with
  | none, _ => true
  | some _, none => false
  | some stale, some op => a.flags &&& mapPrivate == 0 &&
    match op with
    | .null => true
    | .fails _ => !s.counted stale
    | .sets memobj => !s.counted memobj

theorem mapSafe_mono (h : ∀ o, t.counted o = true → s.counted o = true)
    (hsafe : mapSafe s a = true) : mapSafe t a = true := by
  have hnot : ∀ {o}, (!s.counted o) = true → (!t.counted o) = true := by
    intro o ho
    cases hc : t.counted o with
    | false => rfl
    | true =>
      rw [h o hc] at ho
      cases ho
  unfold mapSafe at hsafe ⊢
  split
  case h_1 => rfl
  case h_2 hnew hfile =>
    rw [hnew, hfile] at hsafe
    cases hsafe
  case h_3 stale op hnew hfile =>
    rw [hnew, hfile] at hsafe
    rw [Bool.and_eq_true] at hsafe ⊢
    refine ⟨hsafe.1, ?_⟩
    cases op with
    | null => rfl
    | fails => exact hnot hsafe.2
    | sets => exact hnot hsafe.2

section
variable {n : Nat} {s : VmSys} {p : Nat} {x : Proc}

variable (hw : Wf s) (hx : s.proc p = some x) (hp : p < n) (he : Exact n s)
include hx hp he

theorem insertInto_exact (hc : s.counted vma.vmaObj = false) :
    Yields (insertInto s p vma) (Exact n) := by
  refine theProc_bind hx (.pure ?_)
  have hareas := areas_update (s := s)
    (t := s.setProc p { x with pVmmap := insertArea vma x.pVmmap }) rfl
  refine exact_iff.mpr (((exact_iff.mp he).same rfl rfl).congr fun o ho => ?_)
  have hupd := areaRefs_update hp (fun q hq => (hareas q).trans (if_neg hq)) o
  have hne : ¬ vma.vmaObj = o := by
    rintro rfl
    rw [show s.counted vma.vmaObj = true from ho] at hc
    cases hc
  rw [hareas p, if_pos rfl, areas_of hx] at hupd
  change _ = _ + refsIn (insertArea vma x.pVmmap) o at hupd
  rw [refsIn_perm (insertArea_perm vma x.pVmmap), refsIn_cons, if_neg hne] at hupd
  omega

theorem mapArea_exact (hsafe : mapSafe s a = true) (lopage : Nat) :
    Yields (mapArea s p a lopage) fun r => Exact n r.1 := by
  refine mapArea_yields he (fun stale errno hnew hfile => ?_)
    (fun memobj hnew hfile => ?_) fun _ _ hnew hfile _ => ?_
  · rw [mapSafe, hnew, hfile, Bool.and_eq_true] at hsafe
    exact insertInto_exact hx hp he ((Bool.not_eq_true' _).mp hsafe.2)
  · obtain ⟨stale, hnew⟩ := Option.isSome_iff_exists.mp hnew
    rw [mapSafe, hnew, hfile, Bool.and_eq_true, beq_iff_eq] at hsafe
    unfold finishMap
    rw [if_neg fun h => h hsafe.1, ok_bind]
    exact .bind (insertInto_exact hx hp he ((Bool.not_eq_true' _).mp hsafe.2)) fun t ht => .pure ht
  · obtain ⟨stale, hnew⟩ := Option.isSome_iff_exists.mp hnew
    rw [mapSafe, hnew, hfile] at hsafe
    cases hsafe
include hw

theorem vmmapRemove_exact {e : RemoveEnv} {lopage : Nat}
    (hsafe : removeSafe s x e lopage npages = true) :
    Yields (vmmapRemove e s p lopage npages) fun r =>
      Exact n r.1 ∧ ∀ o, r.1.counted o = true → s.counted o = true := by
  rw [removeSafe, Bool.and_eq_true, Bool.or_eq_true, all_eq_true, decide_eq_true_eq] at hsafe
  obtain ⟨hput, hsplit⟩ := hsafe
  refine theProc_bind hx ?_
  have hstart : ExactFor s fun o =>
      (∑ q ∈ (Finset.range n).erase p, refsIn (s.areas q) o) + refsIn ([] ++ x.pVmmap) o :=
    (exact_iff.mp he).congr fun o _ => by
      rw [areaRefs_split hp, areas_of hx, nil_append, Nat.add_comm]
  have hput' : ∀ vma ∈ x.pVmmap,
    dropsArea e.pagenumAt lopage ((lopage + npages) % 2 ^ 32) vma = true →
      Puttable s vma.vmaObj := by
    intro vma hvma hd
    have hor := hput vma hvma
    rw [hd] at hor
    exact puttable_iff.mp hor
  have hsplit' := hsplit.imp_left fun h stale (hs : e.fresh = some stale) => by
    rw [hs, Option.all_some, Bool.not_eq_true'] at h
    exact h
  refine .bind ((removeLoop_exact _ _ _ hw hstart hput' hsplit').and
    (removeLoop_yields _ _ _ _ _ _ _ _ hw)) fun r ⟨⟨hcount, hr⟩, hputs, _⟩ => ?_
  refine .bind (theProc_yields _ p) fun y hy => .pure ⟨?_, hcount⟩
  have hproc := areas_update (p := p) (s := s) (t := r.1.setProc p { y with pVmmap := r.2.2 })
    (x := some { y with pVmmap := r.2.2 }) (by rw [setProc_proc, Upds.proc hputs])
  refine exact_iff.mpr ((hr.same rfl rfl).congr fun o _ => ?_)
  rw [areaRefs_split hp, hproc, if_pos rfl, Nat.add_comm]
  congr 1
  exact Finset.sum_congr rfl fun q hq => by rw [hproc, if_neg (Finset.ne_of_mem_erase hq)]

/-- **`vmmap_map` of a file in a shared area keeps the balance.** -/
theorem vmmapMap_exact (hsafe : mapSafe s a = true)
    (hremove : a.lopage ≠ 0 → removeSafe s x a.env a.lopage a.npages = true) :
    Yields (vmmapMap s p a) fun r => Exact n r.1 := by
  refine vmmapMap_yields hx (fun _ => he)
    (fun lopage _ _ => mapArea_exact hx hp he hsafe lopage) fun hpos _ => ?_
  refine ((vmmapRemove_exact hw hx hp he (hremove hpos)).and
    (vmmapRemove_alters hw hx a.env a.lopage a.npages)).imp fun r ⟨⟨her, hcount⟩, _, map,
      _, hproc⟩ => ?_
  exact mapArea_exact (by rw [hproc, update_self]) hp her (mapSafe_mono hcount hsafe) a.lopage

end

/-! ## 3. Exit -/

/-- No object of the process is in use elsewhere. -/
def exitSafe (n : Nat) (s : VmSys) (x : Proc) : Bool :=
  ∀ vma ∈ x.pVmmap, s.counted vma.vmaObj = true → s.refs n vma.vmaObj = refsIn x.pVmmap vma.vmaObj

/-- **An exit keeps the balance exactly** if no object of the process is in use elsewhere. -/
theorem exitProc_exact_iff (hx : s.proc p = some x) (hp : p < n) (he : Exact n s) {state : PState}
    (ht : t = s.setProc p { x with pVmmap := [], pState := state }) :
    Exact n t ↔ exitSafe n s x = true := by
  have hareas := areas_update (s := s) (t := t)
    (x := some { x with pVmmap := [], pState := state }) (p := p) (by rw [ht]; rfl)
  have hrefs : ∀ o, t.refs n o + refsIn x.pVmmap o = s.refs n o := by
    intro o
    have hupd := areaRefs_update hp (fun q hq => (hareas q).trans (if_neg hq)) o
    rw [hareas p, if_pos rfl, areas_of hx] at hupd
    have hlinks : t.shadowRefs o = s.shadowRefs o := by rw [ht]; rfl
    have hnil : refsIn [] o = 0 := rfl
    change t.areaRefs n o + _ = _ + refsIn [] o at hupd
    rw [refs, refs, hlinks]
    omega
  have hobj : t.mmobj = s.mmobj := by rw [ht]; rfl
  rw [exitSafe, decide_eq_true_eq]
  constructor
  · intro het vma hvma hc
    obtain ⟨y, hy, hops⟩ := counted_iff.mp hc
    have hin : 0 < refsIn x.pVmmap vma.vmaObj := refsIn_pos.mpr ⟨vma, hvma, rfl⟩
    have hsum := hrefs vma.vmaObj
    by_contra hne
    have h1 := het vma.vmaObj y (hobj ▸ hy) hops (by omega)
    have h2 := he vma.vmaObj y hy hops (by omega)
    omega
  · intro hsafe o y hy hops hpos
    have hsum := hrefs o
    rw [hobj] at hy
    by_cases hin : 0 < refsIn x.pVmmap o
    · obtain ⟨vma, hvma, rfl⟩ := refsIn_pos.mp hin
      have := hsafe vma hvma (counted_iff.mpr ⟨y, hy, hops⟩)
      omega
    · have := he o y hy hops (by omega)
      omega

/-! ## 4. Fork -/

/-- `do_fork` copies an area for the child. -/
def copied (vma : Vmarea) : Bool := vma.vmaFlags == mapPrivate || vma.vmaFlags == mapShared

theorem forkLoop_shared (stale : Vmarea → Nat) {pd : Nat → Option Pte} : ∀ {parents : List Vmarea},
    (∀ a ∈ parents, a.vmaFlags = mapShared) →
    Yields (forkLoop s pd parents (vmmapClone stale parents)) fun r =>
      r = (s, pd, parents, parents) := by
  intro parents
  induction parents with
  | nil => exact fun _ => .ok rfl
  | cons a parents ih =>
    intro hflags
    have ha : a.vmaFlags = mapShared := hflags a (.head _)
    rw [vmmapClone, map_cons, forkLoop, if_neg (by rw [ha]; decide)]
    refine .bind (ih fun b hb => hflags b (.tail _ hb)) ?_
    rintro _ rfl
    rw [if_pos ha]
    exact .pure rfl

theorem forkShadow_yields (hw : Wf s) (obj : Nat) : Yields (forkShadow s obj) fun r =>
    s.mmobj r.2 = none ∧ (∀ q, q ≠ r.2 → r.1.mmobj q = s.mmobj q) ∧
      ∀ o, r.1.shadowRefs o = s.shadowRefs o + if obj = o then 1 else 0 := by
  unfold forkShadow shadowCreate slabAlloc
  cases hslab : s.mmobjSlab with
  | nil => exact .error _
  | cons c rest =>
    obtain ⟨hlt, hnone⟩ := hw.objSlab c (hslab ▸ .head _)
    refine .bind (theObj_yields _ c) fun x hx => .pure ?_
    have hops : x.mmoOps = .shadow := by
      cases (update_self ..).symm.trans hx
      rfl
    generalize ht : setObj _ c { x with mmoShadowed := some obj } = t
    have hother : ∀ q, q ≠ c → t.mmobj q = s.mmobj q := by
      intro q hq
      rw [← ht, setObj_mmobj, update_of_ne hq]
      exact update_of_ne hq ..
    have hself : t.shadows c = some obj := by
      rw [shadows_of (x := { x with mmoShadowed := some obj }), if_pos hops]
      rw [← ht, setObj_mmobj, update_self]
    refine ⟨hnone, hother, fun o => ?_⟩
    have hlink : s.shadows c = none := by
      rw [shadows, hnone]
      rfl
    have hshadows : t.shadows = update s.shadows c (some obj) := by
      funext q
      by_cases hq : q = c
      · rw [hq, update_self, hself]
      · rw [update_of_ne hq, shadows, hother q hq]
        rfl
    have hsize : t.nmmobj = s.nmmobj := by rw [← ht]; rfl
    unfold shadowRefs
    rw [hsize, hshadows, census_store (Finset.mem_range.mpr hlt) hlink]

/-- **The loop of `do_fork` adds a reference for each area it copies**, and takes none. -/
theorem forkLoop_refs (stale : Vmarea → Nat) (o : Nat) :
    ∀ (parents : List Vmarea) {s : VmSys} (pd : Nat → Option Pte)
    {y : Mmobj}, Wf s → s.mmobj o = some y →
    Yields (forkLoop s pd parents (vmmapClone stale parents)) fun r => r.1.mmobj o = some y ∧
      s.shadowRefs o + refsIn parents o + parents.countP (fun a => a.vmaObj == o && copied a)
        ≤ r.1.shadowRefs o + refsIn r.2.2.1 o + refsIn r.2.2.2 o := by
  intro parents
  induction parents with
  | nil => exact fun _ _ _ hy => .ok ⟨hy, by simp [vmmapClone]⟩
  | cons a parents ih =>
    intro s pd y hw hy
    rw [vmmapClone, map_cons, forkLoop]
    have hcount : ∀ l : List Vmarea, (a :: l).countP (fun a => a.vmaObj == o && copied a)
        = l.countP (fun a => a.vmaObj == o && copied a)
          + if a.vmaObj = o ∧ copied a = true then 1 else 0 := fun l => by
      simp [countP_cons]
    have hlive : ∀ {t : VmSys} {c}, t.mmobj o = some y → t.mmobj c = none → o ≠ c := by
      rintro t c ht hc rfl
      rw [hc] at ht
      cases ht
    refine .ite (fun hprivate => ?_) fun hshared => ?_
    · refine .bind ((forkShadow_yields hw _).and (forkShadow_grows hw _)) fun r ⟨⟨hc, hr, hl⟩,
        hg⟩ => ?_
      have hwr := Grows.wf hg hw
      have hyr : r.1.mmobj o = some y := (hr o (hlive hy hc)).trans hy
      refine .bind ((forkShadow_yields hwr _).and (forkShadow_grows hwr _)) fun u ⟨⟨hc', hu, hl'⟩,
        hg'⟩ => ?_
      have hyu : u.1.mmobj o = some y := (hu o (hlive hyr hc')).trans hyr
      refine .seq fun pd => .bind (ih pd (Grows.wf hg' hwr) hyu) fun v ⟨hyv, hv⟩ => ?_
      obtain ⟨t, pd', ps, cs⟩ := v
      refine .pure ⟨hyv, ?_⟩
      rw [hl' o, hl o] at hv
      rw [hcount, refsIn_cons, refsIn_cons, refsIn_cons, if_neg (hlive hyr hc').symm,
        if_neg (hlive hy hc).symm]
      by_cases ho : a.vmaObj = o
      · simp only [if_pos ho] at hv ⊢
        split <;> omega
      · simp only [ho, false_and, if_false] at hv ⊢
        omega
    · refine .bind (ih pd hw hy) fun v ⟨hyv, hv⟩ => ?_
      obtain ⟨t, pd', ps, cs⟩ := v
      refine .pure ⟨hyv, ?_⟩
      change _ ≤ t.shadowRefs o + refsIn ps o + refsIn cs o at hv
      change _ ≤ t.shadowRefs o + refsIn (a :: ps) o + refsIn (_ :: cs) o
      rw [hcount, refsIn_cons, refsIn_cons, refsIn_cons]
      -- an area that is copied and not private is shared
      have hchild : a.vmaObj = o ∧ copied a = true →
          (if a.vmaFlags = mapShared then { a with vmaObj := a.vmaObj }
            else { a with vmaObj := stale a }
            : Vmarea).vmaObj = o := by
        rintro ⟨ho, hcopied⟩
        rw [copied, Bool.or_eq_true, beq_iff_eq, beq_iff_eq] at hcopied
        rw [if_pos (hcopied.resolve_left hshared)]
        exact ho
      by_cases hc : a.vmaObj = o ∧ copied a = true
      · rw [if_pos hc, if_pos hc.1, if_pos (hchild hc)]
        omega
      · rw [if_neg hc]
        omega

section
variable (hw : Wf s) (hx : s.proc p = some x) (hp : p < n) (hnone : s.proc child = none)
  (hchild : child < n) (he : Exact n s)
include hx hp hnone hchild

theorem areaRefs_fork (x' c : Proc)
    (hu : u.proc = update (update s.proc p (some x')) child (some c)) (o : Nat) :
    u.areaRefs n o + refsIn x.pVmmap o
      = s.areaRefs n o + refsIn x'.pVmmap o + refsIn c.pVmmap o := by
  have hne : p ≠ child := by
    rintro rfl
    rw [hnone] at hx
    cases hx
  -- first the parent changes, then the child
  let t : VmSys := { s with proc := update s.proc p (some x') }
  have ht := areas_update (s := s) (t := t) (p := p) (x := some x') rfl
  have hu' := areas_update (s := t) (t := u) (p := child) (x := some c) hu
  have h1 := areaRefs_update hp (fun q hq => (ht q).trans (if_neg hq)) o
  have h2 := areaRefs_update hchild (fun q hq => (hu' q).trans (if_neg hq)) o
  rw [ht p, if_pos rfl, areas_of hx] at h1
  rw [hu' child, if_pos rfl, ht child, if_neg hne.symm, areas, hnone] at h2
  change _ = _ + refsIn x'.pVmmap o at h1
  change _ + refsIn [] o = _ + refsIn c.pVmmap o at h2
  rw [show refsIn [] o = 0 from rfl] at h2
  omega
include he

/-- A fork of a process whose areas are shared and of other objects. -/
theorem doFork_exact (hsafe : ∀ vma ∈ x.pVmmap, vma.vmaFlags = mapShared ∧
    s.counted vma.vmaObj = false) :
    Yields (doFork s p child stale) (Exact n) := by
  refine theProc_bind hx ?_
  refine .bind (forkLoop_shared stale fun a ha => (hsafe a ha).1) ?_
  rintro _ rfl
  refine .pure (exact_iff.mpr (((exact_iff.mp he).same rfl rfl).congr fun o ho => ?_))
  have hareas :=
    areaRefs_fork (u := (s.setProc p x).setProc child ⟨x.pVmmap, fun _ => none, .running⟩)
    hx hp hnone hchild x ⟨x.pVmmap, fun _ => none, .running⟩ rfl o
  have hzero : refsIn x.pVmmap o = 0 := by
    refine Nat.eq_zero_of_not_pos fun hpos => ?_
    obtain ⟨vma, hvma, rfl⟩ := refsIn_pos.mp hpos
    have hc := (hsafe vma hvma).2
    rw [show s.counted vma.vmaObj = true from ho] at hc
    cases hc
  rw [hzero] at hareas
  exact hareas
include hw

/-- **A fork of a process that has an area of an anonymous or shadow object upsets the balance.** -/
theorem doFork_inexact (hvma : vma ∈ x.pVmmap) (hc : s.counted vma.vmaObj = true)
    (hcopied : copied vma = true) (h : doFork s p child stale = .ok t) : ¬ Exact n t := by
  intro het
  obtain ⟨y, hy, hops⟩ := counted_iff.mp hc
  have hfork : Yields (doFork s p child stale) fun u => u.mmobj vma.vmaObj = some y ∧
      s.refs n vma.vmaObj < u.refs n vma.vmaObj := by
    refine theProc_bind hx ?_
    refine .bind ((forkLoop_refs stale vma.vmaObj x.pVmmap x.pPagedir hw hy).and
      (forkLoop_forkedTo _ _ _ hw)) fun r ⟨⟨hyr, hr⟩, hf⟩ => ?_
    obtain ⟨u, pd, parents, children⟩ := r
    refine .pure ⟨hyr, ?_⟩
    generalize hv : setProc _ child _ = v
    have hareas := areaRefs_fork (u := v) hx hp hnone hchild
      { x with pVmmap := parents, pPagedir := pd } ⟨children, fun _ => none, .running⟩
      (by rw [← hv, ← hf.grows.proc]; rfl) vma.vmaObj
    have hlinks : v.shadowRefs = u.shadowRefs := by rw [← hv]; rfl
    have hpos : 0 < x.pVmmap.countP fun a => a.vmaObj == vma.vmaObj && copied a :=
      countP_pos_iff.mpr ⟨vma, hvma, by simp [hcopied]⟩
    rw [refs, refs, hlinks]
    dsimp only at hr hareas
    omega
  obtain ⟨hyt, hlt⟩ := hfork t h
  have hin : 0 < refsIn x.pVmmap vma.vmaObj := refsIn_pos.mpr ⟨vma, hvma, rfl⟩
  have hpos : 0 < s.refs n vma.vmaObj := by
    rw [refs, areaRefs_split hp, areas_of hx]
    omega
  have h1 := he _ y hy hops hpos
  have h2 := het _ y hyt hops (by omega)
  omega

end

/-! ## 5. New objects -/

/-- A new object that no link leads to, with two references on its account. -/
structure Created (s t : VmSys) (o : Nat) : Prop where
  fresh : s.mmobj o = none
  proc : t.proc = s.proc
  size : t.nmmobj = s.nmmobj
  obj : ∃ x, t.mmobj o = some x ∧ x.mmoOps ≠ .vnode ∧ x.mmoRefcount - x.mmoNrespages = 2
  links : ∀ q, t.shadows q = some o → s.shadows q = some o

section
variable {n : Nat} {s t : VmSys} {o : Nat}

theorem slabAlloc_ref {x : Mmobj} (hw : Wf s) (h : slabAlloc s x = some (t, o)) :
    s.mmobj o = none ∧ Yields (mmobjRef t o) fun u => u.proc = s.proc ∧ u.nmmobj = s.nmmobj ∧
      u.mmobj = update s.mmobj o (some { x with mmoRefcount := x.mmoRefcount + 1 }) := by
  unfold slabAlloc at h
  split at h
  case h_1 => cases h
  case h_2 hslab =>
    cases h
    refine ⟨(hw.objSlab o (hslab ▸ .head _)).2, ?_⟩
    refine .bind (theObj_yields _ o) fun y hy => .seq fun _ => .pure ⟨rfl, rfl, ?_⟩
    cases (update_self ..).symm.trans hy
    exact update_idem ..

theorem privateObj_created (hw : Wf s) (memobj : Nat) :
    Yields (privateObj s memobj) fun r => Created s r.1 r.2 := by
  unfold privateObj
  split
  case h_1 => exact .error _
  case h_2 t c ht =>
    obtain ⟨hfresh, href⟩ := slabAlloc_ref hw ht
    refine .bind href fun u ⟨hproc, hsize, hobj⟩ => ?_
    refine .bind (theObj_yields u c) fun x hx => ?_
    refine .bind (theObj_yields _ memobj) fun y hy => ?_
    refine .bind (theObj_yields _ c) fun z hz => .pure ?_
    rw [hobj, update_self] at hx
    obtain rfl := Option.some.inj hx
    -- `memobj` may be any address; if it is that of the new object, the link is cleared again
    have hself : z.mmoOps = .shadow ∧ z.mmoRefcount - z.mmoNrespages = 2 ∧
        z.mmoShadowed ≠ some c := by
      by_cases hm : memobj = c
      · subst hm
        rw [setObj_mmobj, update_self] at hy hz
        cases hy
        cases hz
        exact ⟨rfl, rfl, nofun⟩
      · rw [setObj_mmobj, update_of_ne (Ne.symm hm), setObj_mmobj, update_self] at hz
        cases hz
        exact ⟨rfl, rfl, fun h => hm (Option.some.inj h)⟩
    refine ⟨hfresh, hproc, hsize, ⟨_, update_self .., ?_, hself.2.1⟩, fun q hq => ?_⟩
    · rw [show Mmobj.mmoOps { z with mmoUn := _ } = .shadow from hself.1]
      nofun
    · by_cases hqc : q = c
      · subst hqc
        rw [shadows_of (update_self ..)] at hq
        split at hq
        case isTrue => exact absurd hq hself.2.2
        case isFalse => cases hq
      · by_cases hqm : q = memobj
        · subst hqm
          rw [shadows_of (x := { y with mmoShadowed := none })] at hq
          · split at hq <;> cases hq
          · rw [setObj_mmobj, update_of_ne hqc, setObj_mmobj, update_self]
        · rw [shadows, setObj_mmobj, update_of_ne hqc, setObj_mmobj,
            update_of_ne hqm, setObj_mmobj, update_of_ne hqc, hobj,
            update_of_ne hqc] at hq
          exact hq

/-- An area for a new object: the object has one reference and two on its account. -/
theorem insertInto_inexact (hc : Created s t o) (hx : s.proc p = some x) (hp : p < n)
    (hfree : s.refs n o = 0) (hvma : vma.vmaObj = o) :
    Yields (insertInto t p vma) fun u => ¬ Exact n u := by
  refine .bind (theProc_yields t p) fun y hy => .pure fun he => ?_
  rw [hc.proc, hx] at hy
  obtain rfl := Option.some.inj hy
  rw [refs, Nat.add_eq_zero_iff] at hfree
  generalize hu : t.setProc p { x with pVmmap := insertArea vma x.pVmmap } = u at he
  have hareas := areas_update (s := s) (t := u) (p := p)
    (x := some { x with pVmmap := insertArea vma x.pVmmap }) (by rw [← hu, ← hc.proc]; rfl)
  have hupd := areaRefs_update hp (fun q hq => (hareas q).trans (if_neg hq)) o
  rw [hareas p, if_pos rfl, areas_of hx] at hupd
  change _ = _ + refsIn (insertArea vma x.pVmmap) o at hupd
  rw [refsIn_perm (insertArea_perm vma x.pVmmap), refsIn_cons, if_pos hvma] at hupd
  have hlinks : u.shadowRefs o = 0 := by
    refine Nat.eq_zero_of_not_pos fun hpos => ?_
    obtain ⟨q, hq, hlink⟩ := census_pos.mp hpos
    have hsize : u.nmmobj = s.nmmobj := by rw [← hu]; exact hc.size
    have hlink' : t.shadows q = some o := by rw [← hu] at hlink; exact hlink
    have := census_pos.mpr ⟨q, hsize ▸ hq, hc.links q hlink'⟩
    exact absurd hfree.2 this.ne'
  obtain ⟨z, hz, hops, hbal⟩ := hc.obj
  have hrefs : u.refs n o = 1 := by rw [refs, hlinks]; omega
  have := he o z (by rw [← hu]; exact hz) hops (by omega)
  omega

/-- A state with a new anonymous object in it. -/
structure WithAnon (s t : VmSys) (o : Nat) : Prop where
  fresh : s.mmobj o = none
  proc : t.proc = s.proc
  size : t.nmmobj = s.nmmobj
  mmobj : t.mmobj = update s.mmobj o (some { mmobjInit .anon with mmoRefcount := 2 })

theorem WithAnon.shadows (h : WithAnon s t o) (q : Nat) : t.shadows q = s.shadows q := by
  by_cases hq : q = o
  · rw [hq, VmSys.shadows, VmSys.shadows, h.mmobj, update_self, h.fresh]
    rfl
  · rw [VmSys.shadows, VmSys.shadows, h.mmobj, update_of_ne hq]

theorem WithAnon.created (h : WithAnon s t o) : Created s t o where
  fresh := h.fresh
  proc := h.proc
  size := h.size
  obj := ⟨{ mmobjInit .anon with mmoRefcount := 2 }, by rw [h.mmobj, update_self], nofun, rfl⟩
  links q hq := h.shadows q ▸ hq

theorem WithAnon.then_created (h : WithAnon s t o) {c : Nat} (hc : Created t u c) :
    Created s u c where
  fresh := by
    have hnone := hc.fresh
    obtain ⟨-, hnone⟩ | ⟨-, hnone⟩ := of_update (h.mmobj ▸ hnone)
    · cases hnone
    · exact hnone
  proc := hc.proc.trans h.proc
  size := hc.size.trans h.size
  obj := hc.obj
  links q hq := h.shadows q ▸ hc.links q hq

end

/-- **A new anonymous or private mapping upsets the balance.** -/
theorem mapArea_inexact (hw : Wf s) (hx : s.proc p = some x)
    (hp : p < n) (hfree : ∀ o, s.mmobj o = none → s.refs n o = 0)
    (hnew : a.file = none ∨ a.flags &&& mapPrivate ≠ 0) (lopage : Nat) :
    Yields (mapArea s p a lopage) fun r => r.2 = 0 → ¬ Exact n r.1 := by
  have hend : ∀ r : VmSys × Nat, Created s r.1 r.2 → Yields (do
      return (← insertInto r.1 p (a.area lopage r.2), (0 : Int))) fun r => r.2 = 0 →
        ¬ Exact n r.1 :=
    fun r hr => .bind (insertInto_inexact hr hx hp (hfree _ hr.fresh) rfl) fun _ h =>
      .pure fun _ => h
  refine mapArea_yields nofun (fun _ _ _ _ => fun _ _ => nofun)
    (fun memobj _ hfile => ?_) fun t memobj _ _ ht => ?_
  · have hprivate : a.flags &&& mapPrivate ≠ 0 := hnew.resolve_left (by rw [hfile]; nofun)
    unfold finishMap
    rw [if_pos hprivate]
    exact .bind (privateObj_created hw memobj) hend
  · obtain ⟨hfresh, href⟩ := slabAlloc_ref hw ht
    have hgrows := anonCreate_grows ht
    refine (href.and (mmobjRef_grows (hgrows.wf hw) memobj)).imp fun u ⟨⟨hproc, hsize, hobj⟩, hu⟩ =>
      ?_
    have hanon : WithAnon s u memobj := ⟨hfresh, hproc, hsize, hobj⟩
    refine .bind (Q := fun r => Created s r.1 r.2) ?_ hend
    refine .ite (fun _ => ?_) fun _ => .ok hanon.created
    exact (privateObj_created (Grows.wf (hgrows.trans hu) hw) memobj).imp fun r hr =>
      hanon.then_created hr

/-! ## 6. Every call -/

/-- What has to be left out: new anonymous or private mappings and other areas for objects that are
counted, forks and exits of processes that share such an object, removals that free a shadow object
of another one, and pageout of their pages. -/
def CountsKept (n : Nat) (s : VmSys) : VmCall → Bool
  | .spawn p => p < n
  | .fault p vfn cause _ _ => (s.proc p).all fun x =>
      (vmmapLookup x.pVmmap vfn).isSome && cause &&& faultUser != 0 || exitSafe n s x
  | .map p a => (s.proc p).all fun x =>
      mapSafe s a && (a.lopage == 0 || removeSafe s x a.env a.lopage a.npages)
  | .unmap p lopage npages e => (s.proc p).all fun x => removeSafe s x e lopage npages
  | .fork p child _ => child < n && (s.proc p).all fun x => x.pVmmap.all fun vma =>
      vma.vmaFlags == mapShared && !s.counted vma.vmaObj
  | .exit p _ => (s.proc p).all (exitSafe n s)
  | .reap p => (s.areas p).isEmpty
  | .pageoutd => s.allocList.head?.all fun pf => (s.pframe pf).all fun f => !s.counted f.pfObj
  | _ => true

section
variable {n : Nat} {s t : VmSys}

theorem Exact.same (he : Exact n s) (hobj : t.mmobj = s.mmobj) (hsize : t.nmmobj = s.nmmobj)
    (hproc : t.proc = s.proc) : Exact n t := by
  rw [exact_iff, areaRefs_congr hproc]
  exact (exact_iff.mp he).same hobj hsize

theorem Exact.upds (he : Exact n s) (hu : Upds (fun _ => False) new s t) : Exact n t := by
  rw [exact_iff, areaRefs_congr (Upds.proc hu)]
  exact (exact_iff.mp he).upds hu

theorem Exact.puts (he : Exact n s) (hp : Puts o s t) (hc : s.counted o = false) : Exact n t := by
  rw [exact_iff, areaRefs_congr (Upds.proc hp)]
  exact (exact_iff.mp he).puts hp hc

theorem not_counted_of_isVnode (h : s.isVnode o = true) : s.counted o = false := by
  unfold isVnode at h
  unfold counted
  cases hx : s.mmobj o with
  | none => rfl
  | some x =>
    rw [hx, Option.any_some, beq_iff_eq] at h
    rw [Option.any_some, h]
    rfl

theorem Exact.vget (he : Exact n s) (hw : Wf s) :
    Exact n (((slabAlloc s { mmobjInit .vnode with mmoRefcount := 1 }).map Prod.fst).getD s) := by
  rw [exact_iff, areaRefs_congr (vget_grows s).proc]
  unfold slabAlloc
  split
  case h_1 => exact he
  case h_2 c rest hslab =>
    have hnone := (hw.objSlab c (hslab ▸ .head _)).2
    refine (exact_iff.mp he).other (o := c) rfl (fun q hq => update_of_ne hq ..) ?_ ?_
    · rw [counted, hnone]
      rfl
    · refine not_counted_of_isVnode ?_
      change Option.any _ (Function.update s.mmobj c _ c) = true
      rw [update_self]
      rfl

theorem Faulted.exact (he : Exact n s) {vfn cause : Nat} (hx : s.proc p = some x)
    (hp : p < n) {r : VmSys × FaultResult} (h : Faulted s p vfn cause x r)
    (hk : vmmapLookup x.pVmmap vfn = none ∨ cause &&& faultUser = 0 → exitSafe n s x = true) :
    Exact n r.1 := by
  have hareas : ∀ {t : VmSys}, t.proc = s.proc → t.areas p = x.pVmmap :=
    fun ht => areas_of (ht ▸ hx)
  cases h with
  | killed hkill => exact (exitProc_exact_iff hx hp he rfl).mpr (hk hkill)
  | stuck _ _ hg =>
    refine Exact.update (s := _)
      (x := some { x with pState := .stuck }) ?_ rfl (hareas hg.upds.proc).symm
    exact (exact_iff.mp (he.upds hg.upds)).same rfl rfl
  | nomem _ _ hg => exact he.upds hg.upds
  | mapped _ _ hg _ =>
    refine Exact.update (s := _)
      (x := some { x with pPagedir := _ }) ?_ rfl (hareas hg.upds.proc).symm
    exact (exact_iff.mp (he.upds hg.upds)).same rfl rfl

/-- New processes are among the first `n`. -/
def pidsBelow (n : Nat) : VmCall → Bool
  | .spawn p => p < n
  | .fork _ child _ => child < n
  | _ => true

theorem bounded_step (hw : Wf s) (hb : Bounded n s) (hl : VmLegal s c)
    (hpid : pidsBelow n c = true) (h : vmStep s c = .ok t) : Bounded n t := by
  have hstep := (vmStep_spec hw c hl h).2
  generalize hproc : t.proc = procs at hstep
  cases hstep with
  | same => exact hb.congr hproc
  | spawn => exact hb.update (of_decide_eq_true hpid) hproc
  | reap hx | ended hx | stuck hx | entry hx | map hx | unmap hx =>
    exact hb.update (hb _ _ hx) hproc
  | @fork p child _ x _ _ _ hx =>
    intro q y hy
    rw [hproc, update_apply, update_apply] at hy
    split_ifs at hy with hq hq'
    · exact hq ▸ of_decide_eq_true hpid
    · exact hq' ▸ hb p x hx
    · exact hb q y hy

theorem CountsKept.pidsBelow (h : CountsKept n s c = true) : pidsBelow n c = true := by
  cases c with
  | spawn => exact h
  | fork => exact (Bool.and_eq_true _ _ ▸ h).1
  | _ => rfl

/-- **One call** that is not left out keeps the balance. -/
theorem exact_step (hw : Wf s) (hb : Bounded n s) (he : Exact n s) (hl : VmLegal s c)
    (hk : CountsKept n s c = true) (h : vmStep s c = .ok t) : Exact n t := by
  cases c with
  | load | store | link | takePage | givePage | scribble | slabs =>
    cases h
    exact he.same rfl rfl rfl
  | spawn p =>
    cases h
    refine Exact.update (s := s) ((exact_iff.mp he).same rfl rfl) rfl ?_
    rw [areas, Option.isNone_iff_eq_none.mp hl]
    rfl
  | reap p =>
    cases h
    refine Exact.update (s := s) ((exact_iff.mp he).same rfl rfl) rfl ?_
    exact (isEmpty_iff.mp hk).symm
  | exit p status =>
    obtain ⟨x, hx⟩ := exists_of_runs hl
    rw [CountsKept, hx, Option.all_some] at hk
    exact (exitProc_exact_iff hx (hb p x hx) he (exitProc_yields hx status t h)).mpr hk
  | fault p vfn cause disk ptPage =>
    obtain ⟨x, hx⟩ := exists_of_runs hl
    rw [CountsKept, hx, Option.all_some, Bool.or_eq_true, Bool.and_eq_true, bne_iff_ne] at hk
    refine fst_yields h ((handlePagefault_faulted hw hx disk ptPage vfn cause).imp fun r hr =>
      hr.exact he hx (hb p x hx) fun hkill => hk.resolve_left fun hgo => ?_)
    obtain hnone | huser := hkill
    · rw [hnone] at hgo
      cases hgo.1
    · exact hgo.2 huser
  | map p a =>
    obtain ⟨x, hx⟩ := exists_of_runs hl
    rw [CountsKept, hx, Option.all_some, Bool.and_eq_true, Bool.or_eq_true, beq_iff_eq] at hk
    exact fst_yields h (vmmapMap_exact hw hx (hb p x hx) he hk.1 fun hpos => hk.2.resolve_left hpos)
  | unmap p lopage npages e =>
    obtain ⟨x, hx⟩ := exists_of_runs hl
    rw [CountsKept, hx, Option.all_some] at hk
    exact fst_yields h ((vmmapRemove_exact hw hx (hb p x hx) he hk).imp fun _ hr => hr.1)
  | fork p child stale =>
    obtain ⟨x, hx⟩ := exists_of_runs hl.1
    rw [CountsKept, hx, Option.all_some, Bool.and_eq_true, decide_eq_true_eq, all_eq_true] at hk
    refine doFork_exact hx (hb p x hx)
      (Option.isNone_iff_eq_none.mp hl.2) hk.1 he (fun vma hvma => ?_) t h
    have hvma := hk.2 vma hvma
    rw [Bool.and_eq_true, beq_iff_eq, Bool.not_eq_true'] at hvma
    exact hvma
  | pageoutd =>
    obtain rfl | rfl | ⟨pf, f, hhead, hf, hputs⟩ := pageoutdRun_yields hw t h
    · exact he.same rfl rfl rfl
    · exact he
    · rw [CountsKept, hhead, Option.all_some, hf, Option.all_some, Bool.not_eq_true'] at hk
      exact he.puts hputs hk
  | vget =>
    cases h
    exact he.vget hw
  | vput o => exact he.puts ((putSpec _).put hw t h) (not_counted_of_isVnode hl)
  | filePage o k disk =>
    exact fst_yields h ((pframeGet_got disk 3 o k hw).imp fun _ hr => he.upds hr.upds)
  | fileDirty o k =>
    have hu : Upds (fun _ => False) false s t := fileDirty_upds o k t h
    exact he.upds hu

end

/-! ## 7. Runs -/

/-- **The balance of references along runs.**  It is kept by every run whose calls are not left out,
from any state that has it.  Every new anonymous or private mapping upsets it, and so does every
fork of a process with an area of an anonymous or shadow object; an exit keeps it exactly if no
object of the process is in use elsewhere. -/
theorem object_counts (n : Nat) : (∀ s t, Wf s → Bounded n s → Exact n s →
      Lts.Run (fun u c => VmLegal u c ∧ CountsKept n u c = true) vmStep s t → Exact n t) ∧
    (∀ s p x a lopage t, Wf s → s.proc p = some x → p < n →
      (∀ o, s.mmobj o = none → s.refs n o = 0) → (a.file = none ∨ a.flags &&& mapPrivate ≠ 0) →
      mapArea s p a lopage = .ok (t, 0) → ¬ Exact n t) ∧
    (∀ s p x child stale vma t, Wf s → s.proc p = some x → p < n → s.proc child = none → child < n →
      Exact n s → vma ∈ x.pVmmap → s.counted vma.vmaObj = true → copied vma = true →
      doFork s p child stale = .ok t → ¬ Exact n t) ∧
    (∀ s p x status t, s.proc p = some x → p < n → Exact n s → exitProc s p status = .ok t →
      (Exact n t ↔ exitSafe n s x = true)) := by
  refine ⟨fun s t hw hb he hrun => ?_, ?_, ?_, ?_⟩
  · have hinv : Wf t ∧ Exact n t ∧ Bounded n t := by
      refine hrun.invariant (I := fun u => Wf u ∧ Exact n u ∧ Bounded n u) ⟨hw, he, hb⟩ ?_
      rintro u c v ⟨hwu, heu, hbu⟩ ⟨hl, hk⟩ hs
      exact ⟨(vmStep_spec hwu c hl hs).1, exact_step hwu hbu heu hl hk hs,
        bounded_step hwu hbu hl (CountsKept.pidsBelow hk) hs⟩
    exact hinv.2.1
  · intro s p x a lopage t hw hx hp hfree hnew h
    exact mapArea_inexact hw hx hp hfree hnew lopage _ h rfl
  · intro s p x child stale vma t hw hx hp hnone hchild he hvma hc hcopied h
    exact doFork_inexact hw hx hp hnone hchild he hvma hc hcopied h
  · intro s p x status t hx hp he h
    exact exitProc_exact_iff hx hp he (exitProc_yields hx status t h)

/-- The test for `Exact`. -/
def VmSys.exact (s : VmSys) (n : Nat) : Bool :=
  (List.range s.nmmobj).all fun o => (s.mmobj o).all fun x =>
    x.mmoOps == .vnode || s.refs n o == 0 || x.mmoRefcount - x.mmoNrespages == (s.refs n o : Int)

theorem exact_of_test (hw : Wf s) (h : s.exact n = true) : Exact n s := by
  intro o x hx hops hpos
  have hall := all_eq_true.mp h o (mem_range.mpr (hw.objLt hx))
  rw [hx, Option.all_some, Bool.or_eq_true, Bool.or_eq_true, beq_iff_eq, beq_iff_eq,
    beq_iff_eq] at hall
  obtain (hv | hz) | heq := hall
  · exact absurd hv hops
  · omega
  · exact heq

theorem bounded_of_run {nmmobj npframe target : Nat}
    (h : Lts.Run (fun u c => VmLegal u c ∧ pidsBelow n c = true) vmStep
      (bootVm nmmobj npframe npages target) s) : Wf s ∧ Bounded n s := by
  refine h.invariant (I := fun u => Wf u ∧ Bounded n u) ⟨bootVm_wf .., nofun⟩ ?_
  rintro u c v ⟨hw, hb⟩ ⟨hl, hpid⟩ hs
  exact ⟨(vmStep_spec hw c hl hs).1, bounded_step hw hb hl hpid hs⟩

/-- A process maps a file privately and forks: the two shadow objects of the areas and the one below
them are in balance. -/
def forkedFile : List VmCall :=
  [.vget, .spawn 1, .map 1 { MapArgs.onePage 0x400 3 mapPrivate with file := some (.sets 0) },
    .fork 1 2 (fun _ => 0)]

def twoRefs (s : VmSys) : Bool := s.counted 1 && s.refs 3 1 == 2

/-- The child removes its area, and everything is still in balance. -/
theorem object_counts_forked : ∃ s t, Lts.Run VmLegal vmStep (bootVm 8 8 4 2) s ∧
    Lts.Run (fun u c => VmLegal u c ∧ CountsKept 3 u c = true) vmStep s t ∧
    t.areas 2 = [] ∧ twoRefs t = true ∧ Exact 3 t := by
  have hdrive : (Lts.drive (fun u c => VmLegal u c ∧ pidsBelow 3 c = true) vmStep forkedFile
      (bootVm 8 8 4 2)).any (fun s => s.exact 3 &&
        (Lts.drive (fun u c => VmLegal u c ∧ CountsKept 3 u c = true) vmStep
          [.unmap 2 0x400 1 ⟨none, fun _ => 0⟩] s).any fun t => (t.areas 2).isEmpty && twoRefs t)
      = true := by
    decide +kernel
  obtain ⟨s, hrun, htest⟩ := Lts.Run.of_drive_any hdrive
  rw [Bool.and_eq_true] at htest
  obtain ⟨t, hunmap, hrefs⟩ := Lts.Run.of_drive_any htest.2
  rw [Bool.and_eq_true, List.isEmpty_iff] at hrefs
  obtain ⟨hw, hb⟩ := bounded_of_run hrun
  exact ⟨s, t, hrun.mono fun _ _ h => h.1, hunmap, hrefs.1, hrefs.2,
    (object_counts 3).1 s t hw hb (exact_of_test hw htest.1) hunmap⟩

/-! ## 8. One reference too many -/

/-- After an anonymous mapping of one process: two references on the account of the object, and one
area. -/
theorem anonymous_mapping_counted_twice : ∃ s x, Lts.Run VmLegal vmStep (bootVm 8 8 4 2) s ∧
    Bounded 2 s ∧ s.mmobj 0 = some x ∧ x.mmoOps = .anon ∧ x.mmoRefcount = 2 ∧ x.mmoNrespages = 0 ∧
    s.refs 2 0 = 1 ∧ ¬ Exact 2 s := by
  obtain ⟨s, hrun, hone, x, hx, hops, href, hres⟩ : ∃ s, Lts.Run (fun u c => VmLegal u c ∧
      pidsBelow 2 c = true) vmStep (bootVm 8 8 4 2) s ∧ s.refs 2 0 = 1 ∧ ∃ x ∈ s.mmobj 0,
        x.mmoOps = .anon ∧ x.mmoRefcount = 2 ∧ x.mmoNrespages = 0 :=
    Lts.exists_run [.spawn 1, .map 1 (.onePage 0x400 3 mapShared)] (by decide +kernel)
  refine ⟨s, x, hrun.mono fun _ _ h => h.1, (bounded_of_run hrun).2, hx, hops, href, hres,
    hone, fun he => ?_⟩
  have := he 0 x hx (by rw [hops]; nofun) (by omega)
  omega

end Weenix.Pageout
