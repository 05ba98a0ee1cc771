/-
# What the calls do

One fact for each function of `Pageout/Calls.lean`: which updates of the object layer it makes
(`Upds`), and what becomes of the process.  A call never takes an entry out of a page table other
than its own, and `do_fork` is the only one that takes out any.

`vmStep_spec` puts these together: every state of every run from boot is well-formed,
and what a call does to the processes is one of a few things.
-/
import Weenix.Lib.Run
import Weenix.Pageout.ObjectsSpec
import Weenix.Vm.Cow
import Weenix.Vm.VmmapInsert

namespace Weenix.Pageout

open List Option VmSys Upds

open Relation (ReflTransGen)
open Weenix.Vm (Vmarea efault vmmapLookup insertArea vmmapClone)

variable {new : Bool} {cause o p vfn : Nat} {P : Nat → Prop} {x : Proc} {c : VmCall} {s t : VmSys}
  {Q : VmSys × Int → Prop}
  {r : VmSys × FaultResult}

/-! ## 1. Page faults -/

/-- The ways a page fault ends.  Up to the entry, everything is done by `pframe_get`. -/
inductive Faulted (s : VmSys) (p vfn cause : Nat) (x : Proc) : VmSys × FaultResult → Prop
  | killed (h : vmmapLookup x.pVmmap vfn = none ∨ cause &&& faultUser = 0) :
      Faulted s p vfn cause x (s.setProc p { x with pVmmap := [], pState := .dead efault }, .killed)
  | stuck {vma : Vmarea} {t : VmSys} (hl : vmmapLookup x.pVmmap vfn = some vma)
      (hc : cause &&& faultUser ≠ 0) (hg : Got s vma.vmaObj (vma.pagenum vfn) (t, none)) :
      Faulted s p vfn cause x (t.setProc p { x with pState := .stuck }, .stuck)
  | nomem {vma : Vmarea} {t : VmSys} {pf : Nat} (hl : vmmapLookup x.pVmmap vfn = some vma)
      (hc : cause &&& faultUser ≠ 0) (hg : Got s vma.vmaObj (vma.pagenum vfn) (t, some pf)) :
      Faulted s p vfn cause x (t, .nomem)
  | mapped {vma : Vmarea} {t : VmSys} {pf : Nat} {f : Pframe}
      (hl : vmmapLookup x.pVmmap vfn = some vma) (hc : cause &&& faultUser ≠ 0)
      (hg : Got s vma.vmaObj (vma.pagenum vfn) (t, some pf)) (hf : t.pframe pf = some f) :
      Faulted s p vfn cause x
        (t.setProc p { x with pPagedir := update x.pPagedir vfn (some (faultEntry f.pfAddr)) },
          .mapped (faultEntry f.pfAddr))

theorem handlePagefault_faulted (hw : Wf s) (hx : s.proc p = some x)
    (disk : Nat → UInt8) (ptPage : Bool) (vfn cause : Nat) :
    Yields (handlePagefault disk ptPage s p vfn cause) (Faulted s p vfn cause x) := by
  have hthe : ∀ {t : VmSys}, t.proc = s.proc → Yields (t.theProc p) fun y => x = y := by
    intro t ht y hy
    rw [theProc_eq_ok, ht, hx] at hy
    exact some.inj hy
  have hexit : Yields (exitProc s p efault) fun t =>
      s.setProc p { x with pVmmap := [], pState := .dead efault } = t := by
    refine .bind (hthe rfl) ?_
    rintro _ rfl
    exact .pure rfl
  refine .bind (hthe rfl) ?_
  rintro _ rfl
  split
  case h_1 hl => exact .bind hexit fun t ht => .pure (ht ▸ .killed (.inl hl))
  case h_2 vma hl =>
    refine .ite (fun hc => .bind hexit fun t ht => .pure (ht ▸ .killed (.inr hc))) fun hc => ?_
    refine .bind (pframeGet_got disk 3 vma.vmaObj (vma.pagenum vfn) hw) fun r hr => ?_
    obtain ⟨t, found⟩ := r
    have hproc := hthe hr.upds.proc
    cases found with
    | none =>
      refine .bind hproc ?_
      rintro _ rfl
      exact .pure (.stuck hl hc hr)
    | some pf =>
      refine .bind (theFrame_yields t pf) fun f hf => .seq fun _ => .bind hproc ?_
      rintro _ rfl
      exact .ite (fun _ => .pure (.mapped hl hc hr hf)) fun _ => .pure (.nomem hl hc hr)

/-! ## 2. Removing a range -/

/-- Updates that may drop references to any object. -/
abbrev AllPuts : VmSys → VmSys → Prop := Upds (fun _ => True) false

theorem mmobjPut_all (hw : Wf s) (fuel o : Nat) : Yields (mmobjPut fuel s o) (AllPuts s) :=
  ((putSpec fuel).put hw).imp fun _ h => mono h (fun _ _ => trivial) id

/-- On the list of areas the loop is the one of `Vm/Vmmap.lean`. -/
theorem removeLoop_yields (fresh : Option Vmarea) (pagenumAt : Nat → Nat) (lo hi : Nat) :
    ∀ (fuel : Nat) {s : VmSys} (passed : Bool) (before rest : List Vmarea), Wf s →
      Yields (removeLoop fresh pagenumAt lo hi fuel s passed before rest) fun r => AllPuts s r.1 ∧
        Vm.removeLoop fresh pagenumAt lo hi fuel passed before rest = .ok r.2 := by
  intro fuel
  induction fuel with
  | zero => exact fun _ _ _ _ => .error _
  | succ fuel ih =>
    intro s passed before rest hw
    cases rest with
    | nil => exact .ok ⟨.refl, rfl⟩
    | cons vma rest =>
      unfold removeLoop Vm.removeLoop
      split
      case isTrue =>
        split
        case h_1 => exact .ok ⟨.refl, rfl⟩
        case h_2 stale =>
          refine .bind (Q := fun u => Vm.insertChecks _ = .ok u) (fun _ h => h) fun u hu => ?_
          refine (ih _ _ _ hw).imp fun r hr => ⟨hr.1, ?_⟩
          change (Vm.insertChecks _ >>= fun _ => _) = _
          rw [hu]
          exact hr.2
      case isFalse =>
        refine .bind (Q := AllPuts s) ?_ fun t ht => ?_
        · exact .ite (fun _ => mmobjPut_all hw _ _) fun _ => .ok .refl
        · exact (ih _ _ _ (ht.wf hw)).imp fun r hr => ⟨ht.trans hr.1, hr.2⟩

/-! ## 3. Creating objects -/

/-- An object changes and keeps its pages, or a new one is made. -/
inductive Grow : VmSys → VmSys → Prop
  | obj {s : VmSys} {o : Nat} {x x' : Mmobj} (hx : s.mmobj o = some x)
      (hops : x'.mmoOps = x.mmoOps) (hres : x'.mmoRespages = x.mmoRespages)
      (hun : ∀ l, x'.mmoUn = .mmoVmas l → l = []) : Grow s (s.setObj o x')
  | create {s : VmSys} {o : Nat} {rest : List Nat} {x : Mmobj} (hslab : s.mmobjSlab = o :: rest)
      (hres : x.mmoRespages = []) (hun : ∀ l, x.mmoUn = .mmoVmas l → l = []) :
      Grow s { s.setObj o x with mmobjSlab := rest }

abbrev Grows : VmSys → VmSys → Prop := ReflTransGen Grow

theorem Grows.wf (h : Grows s t) (hw : Wf s) : Wf t := by
  induction h with
  | refl => exact hw
  | tail _ hg ih =>
    cases hg with
    | obj hx _ hres hun => exact ih.setObj hx hres hun
    | create hslab hres hun => exact ih.create hslab hres hun

/-- Neither touches a process or gives a page back. -/
theorem Grows.rest (h : Grows s t) : t.proc = s.proc ∧ t.released = s.released := by
  induction h with
  | refl => exact ⟨rfl, rfl⟩
  | tail _ hg ih => cases hg <;> exact ih

theorem Grows.proc (h : Grows s t) : t.proc = s.proc := h.rest.1

theorem slabAlloc_grows {x : Mmobj} (hres : x.mmoRespages = [])
    (hun : ∀ l, x.mmoUn = .mmoVmas l → l = []) (h : slabAlloc s x = some (t, o)) : Grows s t := by
  unfold slabAlloc at h
  split at h
  case h_1 => cases h
  case h_2 hslab =>
    cases h
    exact .single (.create hslab hres hun)

theorem anonCreate_grows (h : anonCreate s = some (t, o)) : Grows s t :=
  slabAlloc_grows rfl (fun _ hl => by cases hl; rfl) h

theorem shadowCreate_grows (h : shadowCreate s = some (t, o)) : Grows s t :=
  slabAlloc_grows rfl (fun _ hl => by cases hl) h

theorem setObj_grows {x y : Mmobj} (hx : s.mmobj o = some x)
    (hops : y.mmoOps = x.mmoOps) (hres : y.mmoRespages = x.mmoRespages)
    (hun : ∀ l, y.mmoUn = .mmoVmas l → l = []) : Grows s (s.setObj o y) :=
  .single (.obj hx hops hres hun)

theorem mmobjRef_grows (hw : Wf s) (o : Nat) : Yields (mmobjRef s o) (Grows s) :=
  .bind (theObj_yields s o) fun _ hx => .seq fun _ =>
    .pure (setObj_grows hx rfl rfl fun _ hl => hw.vmas hx hl)

theorem privateObj_grows (hw : Wf s) (memobj : Nat) :
    Yields (privateObj s memobj) fun r => Grows s r.1 := by
  unfold privateObj
  split
  case h_1 => exact .error _
  case h_2 t o ht =>
    have h1 := shadowCreate_grows ht
    refine .bind (mmobjRef_grows (h1.wf hw) o) fun u hu => ?_
    have h2 := h1.trans hu
    refine .bind (theObj_yields u o) fun x hx => ?_
    have h3 : Grows s _ :=
      h2.trans (setObj_grows (y := { x with mmoShadowed := some memobj }) hx rfl rfl
      fun _ hl => (Grows.wf h2 hw).vmas hx hl)
    refine .bind (theObj_yields _ memobj) fun y hy => ?_
    have h4 : Grows s _ := h3.trans (setObj_grows (y := { y with mmoShadowed := none }) hy rfl rfl
      fun _ hl => (h3.wf hw).vmas hy hl)
    refine .bind (theObj_yields _ o) fun z hz => .pure ?_
    exact h4.trans (setObj_grows hz rfl rfl fun _ hl => by cases hl)

/-! ## 4. Mapping a range -/

/-- Growth, and other areas for a process. -/
inductive Alter : VmSys → VmSys → Prop
  | grow {s t : VmSys} (h : Grow s t) : Alter s t
  | areas {s : VmSys} {p : Nat} {x : Proc} (map : List Vmarea) (hx : s.proc p = some x) :
      Alter s (s.setProc p { x with pVmmap := map })

abbrev Alters : VmSys → VmSys → Prop := ReflTransGen Alter

theorem Grows.alters (h : Grows s t) : Alters s t := by
  induction h with
  | refl => exact .refl
  | tail _ hg ih => exact ih.tail (.grow hg)

theorem Alters.wf (h : Alters s t) (hw : Wf s) : Wf t := by
  induction h with
  | refl => exact hw
  | tail _ ha ih =>
    cases ha with
    | grow hg => exact Grows.wf (.single hg) ih
    | areas map hx => exact ih.setProc _ _

theorem pte_setProc (s : VmSys) (p : Nat) (x : Proc) (q vfn : Nat) :
    (s.setProc p x).pte q vfn = if q = p then x.pPagedir vfn else s.pte q vfn := by
  rw [VmSys.pte, VmSys.setProc_proc, update_apply]
  split <;> rfl

theorem pte_of_proc (hx : s.proc p = some x) (vfn : Nat) : s.pte p vfn = x.pPagedir vfn := by
  rw [VmSys.pte, hx]
  rfl

theorem Alters.released (h : Alters s t) : t.released = s.released := by
  induction h with
  | refl => rfl
  | tail _ ha ih =>
    cases ha with
    | areas => exact ih
    | grow hg => exact (Grows.rest (.single hg)).2.trans ih

/-- Areas may be removed first, which gives up their objects. -/
def Remaps (s t : VmSys) : Prop := ∃ u, AllPuts s u ∧ Alters u t

theorem Remaps.wf (h : Remaps s t) (hw : Wf s) : Wf t := by
  obtain ⟨u, hsu, hut⟩ := h
  exact hut.wf (hsu.wf hw)

/-- `vmmap_remove` changes the process's list of areas as `Vm/Vmmap.lean` says. -/
theorem vmmapRemove_alters (hw : Wf s) (hx : s.proc p = some x) (e : RemoveEnv)
    (lopage npages : Nat) :
    Yields (vmmapRemove e s p lopage npages) fun r => Remaps s r.1 ∧
      ∃ map, Vm.vmmapRemove e.fresh e.pagenumAt x.pVmmap lopage npages = .ok (r.2, map) ∧
        r.1.proc = update s.proc p (some { x with pVmmap := map }) := by
  refine theProc_bind hx ?_
  refine .bind (removeLoop_yields _ _ _ _ _ _ _ _ hw) fun r hr => ?_
  obtain ⟨t, passed, map⟩ := r
  refine .bind (theProc_yields t p) fun y hy => .pure ⟨?_, map, hr.2, ?_⟩
  · exact ⟨t, hr.1, .single (.areas map hy)⟩
  · rw [setProc_proc, proc hr.1]
    rw [proc hr.1, hx] at hy
    cases hy
    rfl

/-- Where `vmmap_map` puts the area. -/
def mapPlace (x : Proc) (a : MapArgs) : Option Nat :=
  if a.lopage = 0 then vmmapFindRange x.pVmmap a.npages a.hilo else some a.lopage

/-- The areas after the new one, if there is one. -/
def WithArea (x : Proc) (a : MapArgs) (map map' : List Vmarea) : Prop :=
  map' = map ∨ ∃ lopage obj, mapPlace x a = some lopage ∧ map' = insertArea (a.area lopage obj) map

/-- The areas `vmmap_map` leaves. -/
def MapEnd (x : Proc) (a : MapArgs) (map' : List Vmarea) : Prop :=
  WithArea x a x.pVmmap map' ∨ a.lopage ≠ 0 ∧ ∃ passed map,
    Vm.vmmapRemove a.env.fresh a.env.pagenumAt x.pVmmap a.lopage a.npages = .ok (passed, map) ∧
      WithArea x a map map'

theorem insertInto_alters (hx : s.proc p = some x) (vma : Vmarea) :
    Yields (insertInto s p vma) fun t => Alters s t ∧
      t.proc = update s.proc p (some { x with pVmmap := insertArea vma x.pVmmap }) := by
  refine .bind (theProc_yields s p) fun y hy => .pure ⟨.single (.areas _ hy), ?_⟩
  obtain rfl : x = y := some.inj (hx.symm.trans hy)
  rfl

/-- The ways through `vmmap_map` from where the range is known. -/
theorem mapArea_yields {a : MapArgs} {lopage : Nat} (hnone : Q (s, -1))
    (hfails : ∀ stale errno, a.newvma = some stale → a.file = some (.fails errno) →
      Yields (insertInto s p (a.area lopage stale)) fun t => Q (t, .negSucc errno))
    (hsets : ∀ memobj, a.newvma.isSome →
      a.file = some (.sets memobj) → Yields (finishMap s p a lopage memobj) Q)
    (hanon : ∀ t memobj, a.newvma.isSome → a.file = none → anonCreate s = some (t, memobj) →
      Yields (mmobjRef t memobj) fun u => Yields (finishMap u p a lopage memobj) Q) :
    Yields (mapArea s p a lopage) Q := by
  unfold mapArea
  split
  case h_1 => exact .ok hnone
  case h_2 stale hnew =>
    have hsome : a.newvma.isSome := by rw [hnew]; rfl
    split
    case h_1 hfile =>
      split
      case h_1 => exact .ok hnone
      case h_2 t memobj ht => exact .bind (hanon t memobj hsome hfile ht) fun u hu => .seq fun _ =>
        hu
    case h_2 op hfile =>
      refine .seq fun _ => ?_
      cases op with
      | null => exact .error _
      | fails errno => exact .bind (hfails stale errno hnew hfile) fun t ht => .pure ht
      | sets memobj => exact hsets memobj hsome hfile

theorem vmmapMap_yields {a : MapArgs} (hx : s.proc p = some x) (hnone : a.lopage = 0 → Q (s, -1))
    (hempty : ∀ lopage, mapPlace x a = some lopage →
      a.lopage = 0 ∨ vmmapIsRangeEmpty x.pVmmap a.lopage a.npages = .ok true →
      Yields (mapArea s p a lopage) Q)
    (hfull : a.lopage ≠ 0 → vmmapIsRangeEmpty x.pVmmap a.lopage a.npages = .ok false →
      Yields (vmmapRemove a.env s p a.lopage a.npages) fun r => Yields
        (mapArea r.1 p a a.lopage) Q) :
    Yields (vmmapMap s p a) Q := by
  refine theProc_bind hx (.seq fun _ => ?_)
  refine .ite (fun hzero => ?_) fun hpos => .bind (.self _) fun empty he => ?_
  · split
    case h_1 => exact .pure (hnone hzero)
    case h_2 lopage hfind =>
      exact hempty lopage (by rw [mapPlace, if_pos hzero, hfind]) (.inl hzero)
  · cases empty with
    | true => exact hempty a.lopage (by rw [mapPlace, if_neg hpos]) (.inr he)
    | false => exact .bind (.map (hfull hpos he)) fun t ht => ht

section
variable (hw : Wf s) (hx : s.proc p = some x) (a : MapArgs)
include hw hx a

theorem finishMap_alters (lopage memobj : Nat) :
    Yields (finishMap s p a lopage memobj) fun r => Alters s r.1 ∧ ∃ obj, r.1.proc
      = update s.proc p (some { x with pVmmap := insertArea (a.area lopage obj) x.pVmmap }) := by
  refine .bind (Q := fun r => Grows s r.1) ?_ fun r hr => ?_
  · exact .ite (fun _ => privateObj_grows hw memobj) fun _ => .ok .refl
  · obtain ⟨t, obj⟩ := r
    have hproc := Grows.proc hr
    refine .bind (insertInto_alters (hproc ▸ hx) _) fun u hu => .pure ⟨?_, obj, ?_⟩
    · exact (Grows.alters hr).trans hu.1
    · rw [hu.2, hproc]

theorem mapArea_alters (lopage : Nat) :
    Yields (mapArea s p a lopage) fun r => Alters s r.1 ∧ (r = (s, -1) ∨ ∃ obj, r.1.proc
      = update s.proc p (some { x with pVmmap := insertArea (a.area lopage obj) x.pVmmap })) := by
  refine mapArea_yields ⟨.refl, .inl rfl⟩ (fun stale errno _ _ => ?_) (fun memobj _ _ => ?_)
    fun t memobj _ _ ht => ?_
  · exact (insertInto_alters hx _).imp fun u hu => ⟨hu.1, .inr ⟨stale, hu.2⟩⟩
  · exact (finishMap_alters hw hx a lopage memobj).imp fun r hr => ⟨hr.1, .inr hr.2⟩
  · have h1 := anonCreate_grows ht
    refine (mmobjRef_grows (h1.wf hw) memobj).imp fun u hu => ?_
    have h2 : Grows s u := h1.trans hu
    refine (finishMap_alters (h2.wf hw) (h2.proc ▸ hx) a lopage memobj).imp fun r hr => ?_
    exact ⟨h2.alters.trans hr.1, .inr (h2.proc ▸ hr.2)⟩

/-- **What `vmmap_map` does to the areas of the process**, and nothing else to any process. -/
theorem vmmapMap_alters : Yields (vmmapMap s p a) fun r => Remaps s r.1 ∧
      ∃ map, MapEnd x a map ∧ r.1.proc = update s.proc p (some { x with pVmmap := map }) := by
  have hself : s.proc = update s.proc p (some { x with pVmmap := x.pVmmap }) :=
    (update_eq_self_iff.mpr hx.symm).symm
  refine vmmapMap_yields hx (fun _ => ⟨⟨s, .refl, .refl⟩, x.pVmmap, .inl (.inl rfl), hself⟩)
    (fun lopage hplace _ => ?_) fun hpos _ => ?_
  · refine (mapArea_alters hw hx a lopage).imp fun r hr => ⟨⟨s, .refl, hr.1⟩, ?_⟩
    obtain rfl | ⟨obj, hobj⟩ := hr.2
    · exact ⟨x.pVmmap, .inl (.inl rfl), hself⟩
    · exact ⟨_, .inl (.inr ⟨lopage, obj, hplace, rfl⟩), hobj⟩
  · refine (vmmapRemove_alters hw hx a.env a.lopage a.npages).imp fun r ⟨hst, map, hmap, hproc⟩ =>
      ?_
    have hxt : r.1.proc p = some { x with pVmmap := map } := by rw [hproc, update_self]
    obtain ⟨t, hputs, halters⟩ := hst
    refine (mapArea_alters (halters.wf (hputs.wf hw)) hxt a a.lopage).imp fun u hu =>
      ⟨⟨t, hputs, halters.trans hu.1⟩, ?_⟩
    have hend : ∀ map', WithArea x a map map' → MapEnd x a map' := fun map' h =>
      .inr ⟨hpos, r.2, map, hmap, h⟩
    obtain rfl | ⟨obj, hobj⟩ := hu.2
    · exact ⟨map, hend map (.inl rfl), hproc⟩
    · refine ⟨_, hend _ (.inr ⟨a.lopage, obj, by rw [mapPlace, if_neg hpos], rfl⟩), ?_⟩
      rw [hobj, hproc, update_idem]

end

/-! ## 5. Fork -/

theorem forkShadow_grows (hw : Wf s) (obj : Nat) :
    Yields (forkShadow s obj) fun r => Grows s r.1 := by
  unfold forkShadow
  split
  case h_1 => exact .error _
  case h_2 t o ht =>
    have h := shadowCreate_grows ht
    refine .bind (theObj_yields t o) fun x hx => .pure ?_
    exact h.trans (setObj_grows hx rfl rfl fun _ hl => (h.wf hw).vmas hx hl)

/-- The entries of a page table after some were removed. -/
def Shrinks (pd pd' : Nat → Option Pte) : Prop := ∀ vfn e, pd' vfn = some e → pd vfn = some e

theorem ptUnmapRange_shrinks (pd : Nat → Option Pte) (vlow vhigh : Nat) :
    Yields (ptUnmapRange pd vlow vhigh) (Shrinks pd) := by
  refine .seq fun _ => .seq fun _ => .pure fun vfn e h => ?_
  split at h
  case isTrue => cases h
  case isFalse => exact h

/-- What the loop of `do_fork` leaves: new objects, fewer entries in the parent's page table, and
the areas in the same places. -/
structure ForkedTo (s : VmSys) (pd : Nat → Option Pte) (parents children : List Vmarea)
    (r : VmSys × (Nat → Option Pte) × List Vmarea × List Vmarea) : Prop where
  grows : Grows s r.1
  pagedir : Shrinks pd r.2.1
  parents : r.2.2.1.map Vmarea.shape = parents.map Vmarea.shape
  children : r.2.2.2.map Vmarea.shape = children.map Vmarea.shape

theorem forkLoop_forkedTo : ∀ (parents children : List Vmarea) {s : VmSys} (pd : Nat → Option Pte),
    Wf s → Yields (forkLoop s pd parents children) (ForkedTo s pd parents children) := by
  intro parents children s pd hw
  fun_induction forkLoop s pd parents children with
  | case1 s pd aParent parents aChild children hflags ih =>
    refine .bind (forkShadow_grows hw _) fun r hr => ?_
    refine .bind (forkShadow_grows (Grows.wf hr hw) _) fun r' hr' => ?_
    have hg : Grows s r'.1 := hr.trans hr'
    refine .bind (ptUnmapRange_shrinks pd _ _) fun pd' hpd => ?_
    refine .bind (ih r'.1 pd' (hg.wf hw)) fun u hu => .pure ⟨hg.trans hu.grows, ?_, ?_, ?_⟩
    · exact fun vfn e he => hpd vfn e (hu.pagedir vfn e he)
    · exact congrArg (aParent.shape :: ·) hu.parents
    · exact congrArg (aChild.shape :: ·) hu.children
  | case2 s pd aParent parents aChild children hflags aChild' ih =>
    refine .bind (ih hw) fun u hu => .pure ⟨hu.grows, hu.pagedir, ?_, ?_⟩
    · exact congrArg (aParent.shape :: ·) hu.parents
    · refine Eq.trans ?_ (congrArg (aChild.shape :: ·) hu.children)
      unfold aChild'
      split <;> rfl
  | case3 => exact .ok ⟨.refl, fun _ _ h => h, rfl, rfl⟩

theorem doFork_yields (hw : Wf s) (hx : s.proc p = some x)
    (child : Nat) (stale : Vmarea → Nat) :
    Yields (doFork s p child stale) fun u => ∃ t pd parents children,
      ForkedTo s x.pPagedir x.pVmmap (vmmapClone stale x.pVmmap) (t, pd, parents, children) ∧
      u = (t.setProc p { x with pVmmap := parents, pPagedir := pd }).setProc child
        ⟨children, fun _ => none, .running⟩ := by
  refine theProc_bind hx ?_
  exact .bind (forkLoop_forkedTo _ _ _ hw) fun r hr => .pure ⟨_, _, _, _, hr, rfl⟩

/-! ## 6. The daemon, and files -/

theorem pageoutdRun_yields (hw : Wf s) : Yields (pageoutdRun s) fun t =>
    t = { s with pageoutdAwake := false } ∨ t = s ∨
      ∃ pf f, s.allocList.head? = some pf ∧ s.pframe pf = some f ∧ Puts f.pfObj s t := by
  refine .ite (fun _ => ?_) fun _ => .ok (.inl rfl)
  split
  case h_1 => exact .ok (.inl rfl)
  case h_2 pf rest hlist =>
    refine .bind (theFrame_yields s pf) fun f hf => ?_
    have hof : OfObj s f.pfObj pf := fun i hi => by
      rw [ident_of hf] at hi
      cases hi
      rfl
    have hhead : s.allocList.head? = some pf := by rw [hlist, head?_cons]
    refine .ite (fun _ => .pure (.inr (.inl rfl))) fun _ => .ite (fun _ => ?_) fun _ => ?_
    · exact ((putSpec _).clean hw hof).imp fun t ht => .inr (.inr ⟨pf, f, hhead, hf, ht⟩)
    · exact ((putSpec _).free hw hof).imp fun t ht => .inr (.inr ⟨pf, f, hhead, hf, ht⟩)

theorem fileDirty_upds (o k : Nat) : Yields (vmStep s (.fileDirty o k)) (Upds P new s) := by
  simp only [vmStep]
  split
  case h_1 => exact .pure .refl
  case h_2 pf _ =>
    exact .bind (theFrame_yields s pf) fun f hf => .pure (.single (.flags hf rfl id))

theorem fst_yields {α : Type} {x : Except Halt (VmSys × α)} {Q : VmSys → Prop}
    (h : (Prod.fst <$> x) = .ok t) (hx : Yields x fun r => Q r.1) : Q t := (Yields.map hx) t h

/-- The calls that only make updates of the object layer. -/
def VmCall.onObjects : VmCall → Bool
  | .pageoutd | .vput _ | .filePage .. | .fileDirty .. => true
  | _ => false

theorem vmStep_onObjects (hw : Wf s) (hc : c.onObjects = true) (h : vmStep s c = .ok t) :
    t = { s with pageoutdAwake := false } ∨ Upds (fun _ => True) true s t := by
  cases c with
  | pageoutd =>
    obtain rfl | rfl | ⟨pf, f, -, -, hp⟩ := pageoutdRun_yields hw t h
    · exact .inl rfl
    · exact .inr .refl
    · exact .inr (mono hp (fun _ _ => trivial) nofun)
  | vput o => exact .inr (mono ((putSpec _).put hw t h) (fun _ _ => trivial) nofun)
  | filePage o k disk =>
    have hu : Yields (pframeGet disk 3 s o k) fun r => Upds (fun _ => True) true s r.1 :=
      (pframeGet_got disk 3 o k hw).imp fun _ hr => mono hr.upds nofun id
    exact .inr (fst_yields h hu)
  | fileDirty o k => exact .inr (fileDirty_upds o k t h)
  | _ => cases hc

/-! ## 7. Every call keeps the state well-formed -/

theorem Wf.of_unused (hw : Wf s) {a : Nat} (h : s.unused a = true) {pf k : Nat} :
    s.ident pf ≠ some (o, k, a) := by
  intro hi
  obtain ⟨f, hf, hid⟩ := exists_of_ident hi
  have hall := all_eq_true.mp h pf (mem_range.mpr (hw.frameLt hi))
  rw [hf] at hall
  cases hid
  simp at hall

/-- Other free pages: some of those there were, and pages no frame uses. -/
theorem Wf.setFree (hw : Wf s) {free : List Nat} (hnodup : free.Nodup)
    (hfree : ∀ a ∈ free, a ∈ s.freePages ∨ s.unused a = true) :
    Wf { s with freePages := free } := by
  refine { hw with free := ?_, freeNodup := hnodup }
  intro pf o k a hi ha
  obtain ha | ha := hfree a ha
  · exact hw.free hi ha
  · exact hw.of_unused ha hi

theorem Wf.setSlabs (hw : Wf s) {mmobjs pframes : List Nat}
    (hl : VmLegal s (.slabs mmobjs pframes)) :
    Wf { s with mmobjSlab := mmobjs, pframeSlab := pframes } := by
  obtain ⟨hnodup, hobjs, hnodup', hframes⟩ := hl
  refine { hw with frameSlab := ?_, frameSlabNodup := hnodup', objSlab := ?_, objSlabNodup :=
    hnodup }
  · intro pf hpf
    have h := all_eq_true.mp hframes pf hpf
    rw [Bool.and_eq_true, decide_eq_true_eq, isNone_iff_eq_none] at h
    exact ⟨h.1, by rw [ident]; exact congrArg _ h.2⟩
  · intro o ho
    have h := all_eq_true.mp hobjs o ho
    rwa [Bool.and_eq_true, decide_eq_true_eq, isNone_iff_eq_none] at h

theorem exists_of_runs (h : s.runs p = true) : ∃ x, s.proc p = some x := by
  unfold runs at h
  cases hx : s.proc p with
  | none =>
    rw [hx] at h
    cases h
  | some x => exact ⟨x, rfl⟩

theorem exitProc_yields (hx : s.proc p = some x) (status : Int) :
    Yields (exitProc s p status) fun t =>
      t = s.setProc p { x with pVmmap := [], pState := .dead status } := by
  refine theProc_bind hx (.pure ?_)
  rfl

theorem vget_grows (s : VmSys) :
    Grows s (((slabAlloc s { mmobjInit .vnode with mmoRefcount := 1 }).map Prod.fst).getD s) := by
  cases h : slabAlloc s { mmobjInit .vnode with mmoRefcount := 1 } with
  | none => exact .refl
  | some r => exact slabAlloc_grows (o := r.2) rfl (fun _ hl => by cases hl; rfl) h

theorem bootVm_wf (nmmobj npframe npages target : Nat) :
    Wf (bootVm nmmobj npframe npages target) where
  hash h := by cases h
  home h := by cases h
  frameLt h := by cases h
  addr h := by cases h
  free h := by cases h
  freeNodup := nodup_range
  frameSlab _ h := ⟨mem_range.mp h, rfl⟩
  frameSlabNodup := nodup_range
  objLt h := by cases h
  objSlab _ h := ⟨mem_range.mp h, rfl⟩
  objSlabNodup := nodup_range
  res h := by cases h
  resNodup h := by cases h
  vmas h := by cases h

/-! ## 8. The processes after a call -/

/-- What a call can do to the processes: one of them changes, or `do_fork` adds another. -/
inductive ProcStep (s : VmSys) : VmCall → (Nat → Option Proc) → Prop
  | same {c : VmCall} : ProcStep s c s.proc
  | spawn (p : Nat) : ProcStep s (.spawn p)
      (update s.proc p (some ⟨[], fun _ => none, .running⟩))
  | reap {p : Nat} {x : Proc} (hx : s.proc p = some x) : ProcStep s (.reap p)
      (update s.proc p none)
  | ended {c : VmCall} {p : Nat} {x : Proc} {status : Int} (hx : s.proc p = some x) : ProcStep s c
      (update s.proc p (some { x with pVmmap := [], pState := .dead status }))
  | stuck {c : VmCall} {p : Nat} {x : Proc} (hx : s.proc p = some x) : ProcStep s c
      (update s.proc p (some { x with pState := .stuck }))
  | entry {p vfn cause : Nat} {disk : Nat → UInt8} {ptPage : Bool} {x : Proc}
  (hx : s.proc p = some x)
      (hc : cause &&& faultUser ≠ 0) (e : Pte) : ProcStep s (.fault p vfn cause disk ptPage)
      (update s.proc p (some { x with pPagedir := update x.pPagedir vfn (some e) }))
  | map {p : Nat} {a : MapArgs} {x : Proc} {map : List Vmarea} (hx : s.proc p = some x)
      (hend : MapEnd x a map) : ProcStep s (.map p a)
      (update s.proc p (some { x with pVmmap := map }))
  | unmap {p lopage npages passed : Nat} {e : RemoveEnv} {x : Proc} {map : List Vmarea}
      (hx : s.proc p = some x)
      (hr : Vm.vmmapRemove e.fresh e.pagenumAt x.pVmmap lopage npages = .ok (passed, map)) :
      ProcStep s (.unmap p lopage npages e)
        (update s.proc p (some { x with pVmmap := map }))
  | fork {p child : Nat} {stale : Vmarea → Nat} {x : Proc} {pd : Nat → Option Pte}
  {parents children : List Vmarea}
      (hx : s.proc p = some x) (hpd : Shrinks x.pPagedir pd)
      (hparents : parents.map Vmarea.shape = x.pVmmap.map Vmarea.shape) :
      ProcStep s (.fork p child stale)
        (update (update s.proc p (some { x with pVmmap := parents, pPagedir := pd }))
          child (some ⟨children, fun _ => none, .running⟩))

theorem ProcStep.of_eq (h : t.proc = s.proc) : ProcStep s c t.proc :=
  h ▸ .same

theorem Faulted.spec (hw : Wf s) (hx : s.proc p = some x) (disk : Nat → UInt8) (ptPage : Bool)
    (h : Faulted s p vfn cause x r) :
    Wf r.1 ∧ ProcStep s (.fault p vfn cause disk ptPage) r.1.proc := by
  cases h with
  | killed _ => exact ⟨hw.setProc _ _, .ended hx⟩
  | stuck _ _ hg =>
    rw [setProc_proc, hg.upds.proc]
    exact ⟨(hg.upds.wf hw).setProc _ _, .stuck hx⟩
  | nomem _ _ hg => exact ⟨hg.upds.wf hw, .of_eq hg.upds.proc⟩
  | mapped _ hc hg _ =>
    rw [setProc_proc, hg.upds.proc]
    exact ⟨(hg.upds.wf hw).setProc _ _, .entry hx hc _⟩

/-- **Every call keeps the state well-formed** and does one of these things to the processes. -/
theorem vmStep_spec (hw : Wf s) (c : VmCall) (hl : VmLegal s c) (h : vmStep s c = .ok t) :
    Wf t ∧ ProcStep s c t.proc := by
  cases c with
  | load | store | link | scribble =>
    cases h
    exact ⟨hw.congr rfl rfl rfl rfl rfl rfl rfl rfl, .same⟩
  | takePage =>
    cases h
    exact ⟨hw.setFree (hw.freeNodup.tail) fun a ha => .inl (mem_of_mem_tail ha), .same⟩
  | givePage a =>
    cases h
    refine ⟨hw.setFree (nodup_cons.mpr ⟨hl.2, hw.freeNodup⟩) fun b hb => ?_, .same⟩
    obtain rfl | hb := mem_cons.mp hb
    · exact .inr hl.1
    · exact .inl hb
  | slabs mmobjs pframes =>
    cases h
    exact ⟨hw.setSlabs hl, .same⟩
  | spawn p =>
    cases h
    exact ⟨hw.setProc _ _, .spawn p⟩
  | reap p =>
    cases h
    obtain ⟨x, hx, -⟩ := (Option.any_eq_true ..).mp hl
    exact ⟨hw.congr rfl rfl rfl rfl rfl rfl rfl rfl, .reap hx⟩
  | exit p status =>
    obtain ⟨x, hx⟩ := exists_of_runs hl
    rw [exitProc_yields hx status t h]
    exact ⟨hw.setProc _ _, .ended hx⟩
  | fault p vfn cause disk ptPage =>
    obtain ⟨x, hx⟩ := exists_of_runs hl
    exact fst_yields (Q := fun u => Wf u ∧ ProcStep s _ u.proc) h
      ((handlePagefault_faulted hw hx disk ptPage vfn cause).imp fun _ =>
        Faulted.spec hw hx disk ptPage)
  | map p a =>
    obtain ⟨x, hx⟩ := exists_of_runs hl
    refine fst_yields (Q := fun u => Wf u ∧ ProcStep s _ u.proc) h
      ((vmmapMap_alters hw hx a).imp ?_)
    rintro r ⟨halters, map, hend, hproc⟩
    rw [hproc]
    exact ⟨halters.wf hw, .map hx hend⟩
  | unmap p lopage npages e =>
    obtain ⟨x, hx⟩ := exists_of_runs hl
    refine fst_yields (Q := fun u => Wf u ∧ ProcStep s _ u.proc) h
      ((vmmapRemove_alters hw hx e lopage npages).imp ?_)
    rintro r ⟨halters, map, hr, hproc⟩
    rw [hproc]
    exact ⟨halters.wf hw, .unmap hx hr⟩
  | fork p child stale =>
    obtain ⟨x, hx⟩ := exists_of_runs hl.1
    obtain ⟨u, pd, parents, children, hf, rfl⟩ := doFork_yields hw hx child stale t h
    refine ⟨((hf.grows.wf hw).setProc _ _).setProc _ _, ?_⟩
    rw [setProc_proc, setProc_proc, hf.grows.proc]
    exact .fork hx hf.pagedir hf.parents
  | vget =>
    cases h
    exact ⟨(vget_grows s).wf hw, .of_eq (vget_grows s).proc⟩
  | pageoutd | vput | filePage | fileDirty =>
    obtain rfl | hu := vmStep_onObjects hw rfl h
    · exact ⟨hw.congr rfl rfl rfl rfl rfl rfl rfl rfl, .same⟩
    · exact ⟨hu.wf hw, .of_eq hu.proc⟩

theorem wf_of_run {legal : VmSys → VmCall → Prop} (hw : Wf s)
    (himp : ∀ u c, legal u c → VmLegal u c) (h : Lts.Run legal vmStep s t) : Wf t :=
  h.invariant hw fun _ c _ hu hl hs => (vmStep_spec hu c (himp _ c hl) hs).1

/-- **A physical page has one use.**  In every state of every run: no page is free twice, and the
page of a frame is not free and is no other frame's; a frame is what the hash finds for its object
and page number, and the hash finds nothing else; and the list of the resident pages of an object
has only frames of the object, each once. -/
theorem pages_have_one_use {nmmobj npframe npages target : Nat}
    (hr : Lts.Run VmLegal vmStep (bootVm nmmobj npframe npages target) s) : s.freePages.Nodup ∧
    (∀ pf f, s.pframe pf = some f → f.pfAddr ∉ s.freePages ∧
      s.pframeHash f.pfObj f.pfPagenum = some pf ∧
      ∀ pf' f', s.pframe pf' = some f' → f'.pfAddr = f.pfAddr → pf' = pf) ∧
    (∀ o k pf, s.pframeHash o k = some pf → ∃ f, s.pframe pf = some f ∧ f.pfObj = o ∧
      f.pfPagenum = k) ∧
    ∀ o x, s.mmobj o = some x → x.mmoRespages.Nodup ∧ ∀ pf ∈ x.mmoRespages, ∃ f,
      s.pframe pf = some f ∧ f.pfObj = o := by
  have hw := wf_of_run (bootVm_wf nmmobj npframe npages target) (fun _ _ h => h) hr
  refine ⟨hw.freeNodup, fun pf f hf =>
    ⟨hw.free (ident_of hf), hw.home (ident_of hf), fun pf' f' hf' ha => ?_⟩, fun o k pf hh => ?_,
    fun o x hx => ⟨hw.resNodup hx, fun pf hpf => ?_⟩⟩
  · have hid' := ident_of hf'
    rw [Pframe.ident, ha] at hid'
    exact hw.addr (ident_of hf) hid'
  · obtain ⟨a, hid⟩ := hw.hash hh
    obtain ⟨f, hf, hfid⟩ := exists_of_ident hid
    cases hfid
    exact ⟨f, hf, rfl, rfl⟩
  · obtain ⟨k, a, hid⟩ := hw.res hx hpf
    obtain ⟨f, hf, hfid⟩ := exists_of_ident hid
    cases hfid
    exact ⟨f, hf, rfl⟩

/-- A process has written to its page. -/
theorem pages_have_one_use_written :
    ∃ s f, Lts.Run VmLegal vmStep (bootVm 8 8 4 2) s ∧ s.pframe 0 = some f ∧
    f.pfAddr ∉ s.freePages := by
  obtain ⟨s, hrun, hsome⟩ : ∃ s, Lts.Run VmLegal vmStep (bootVm 8 8 4 2) s ∧
    (s.pframe 0).isSome = true :=
    Lts.exists_run [.spawn 1, .map 1 (.onePage 0x400 3 2), .fault 1 0x400 6 (fun _ => 0) true]
      (by decide +kernel)
  obtain ⟨f, hf⟩ := isSome_iff_exists.mp hsome
  exact ⟨s, f, hrun, hf, ((pages_have_one_use hrun).2.1 0 f hf).1⟩

end Weenix.Pageout
