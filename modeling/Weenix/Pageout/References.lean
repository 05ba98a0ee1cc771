/-
# References to memory objects

A reference to an object is an area with the object in `vma_obj` or a live shadow object with it in
`mmo_shadowed`.  `mmo_refcount` counts those and the resident pages.  This file counts the
references (`VmSys.refs`), says what the object layer does to the counts, and follows them through
`vmmap_remove`, the one function that drops references.

* Getting pages raises `mmo_refcount` and `mmo_nrespages` together (`Upds.account`).
* Dropping a reference takes one off `mmo_refcount`, or frees the object (`mmobjPut_dropped`).  A
  shadow object that is freed does not drop its own reference to the object it shadows: `shadow_put`
  never calls `put` on `mmo_shadowed`.
* A shadow object without resident pages is not freed, with no reference left.
-/
import Mathlib.Algebra.BigOperators.Group.Finset.Basic
import Weenix.Lib.Refcount
import Weenix.Pageout.CallsSpec
import Weenix.Vm.VmmapParts

namespace Weenix.Pageout

open List Option VmSys Upds

open Refcount (census census_clear)
open Weenix.Vm (Vmarea Interior insertSplit insertSplit_perm removeTail)

variable {map : List Vmarea} {x : Mmobj} {hi lo n o o' p : Nat} {A pagenumAt : Nat → Nat}
  {s t : VmSys}

/-! ## 1. Counting -/

/-- The areas of a list that refer to the object. -/
def refsIn (map : List Vmarea) (o : Nat) : Nat := map.countP (·.vmaObj == o)

/-- What a live shadow object shadows. -/
def VmSys.shadows (s : VmSys) (o : Nat) : Option Nat :=
  (s.mmobj o).bind fun x => if x.mmoOps = .shadow then x.mmoShadowed else none

/-- The live shadow objects that shadow the object. -/
def VmSys.shadowRefs (s : VmSys) (o : Nat) : Nat := census (Finset.range s.nmmobj) s.shadows o

def VmSys.areas (s : VmSys) (p : Nat) : List Vmarea := ((s.proc p).map (·.pVmmap)).getD []

/-- The areas of the first `n` processes that refer to the object. -/
def VmSys.areaRefs (s : VmSys) (n o : Nat) : Nat := ∑ p ∈ Finset.range n, refsIn (s.areas p) o

/-- All references to the object. -/
def VmSys.refs (s : VmSys) (n o : Nat) : Nat := s.areaRefs n o + s.shadowRefs o

/-- The object is live, and anonymous or a shadow object. -/
def VmSys.counted (s : VmSys) (o : Nat) : Bool := (s.mmobj o).any (·.mmoOps != .vnode)

/-- Every anonymous or shadow object in use has as many references as its counts say, when the areas
that refer to each object are `areas`. -/
def ExactFor (s : VmSys) (areas : Nat → Nat) : Prop :=
  ∀ o x, s.mmobj o = some x → x.mmoOps ≠ .vnode → 0 < areas o + s.shadowRefs o →
    x.mmoRefcount - x.mmoNrespages = ((areas o + s.shadowRefs o : Nat) : Int)

/-- The same for the areas of the processes. -/
def Exact (n : Nat) (s : VmSys) : Prop :=
  ∀ o x, s.mmobj o = some x → x.mmoOps ≠ .vnode → 0 < s.refs n o →
    x.mmoRefcount - x.mmoNrespages = (s.refs n o : Int)

theorem exact_iff : Exact n s ↔ ExactFor s (s.areaRefs n) := Iff.rfl

theorem counted_iff : s.counted o = true ↔ ∃ x, s.mmobj o = some x ∧ x.mmoOps ≠ .vnode := by
  simp [counted, Option.any_eq_true]

/-- Only the counts of objects that are counted matter. -/
theorem ExactFor.congr {B : Nat → Nat} (h : ExactFor s A)
    (heq : ∀ o, s.counted o = true → B o = A o) : ExactFor s B := by
  intro o x hx hops
  rw [heq o (counted_iff.mpr ⟨x, hx, hops⟩)]
  exact h o x hx hops

/-! ### Lists of areas -/

@[simp] theorem refsIn_cons (vma : Vmarea) (map : List Vmarea) (o : Nat) :
    refsIn (vma :: map) o = refsIn map o + if vma.vmaObj = o then 1 else 0 := by
  simp [refsIn, countP_cons]

@[simp] theorem refsIn_append (map map' : List Vmarea) (o : Nat) :
    refsIn (map ++ map') o = refsIn map o + refsIn map' o := countP_append

theorem refsIn_perm {map' : List Vmarea} (h : map.Perm map') (o : Nat) :
    refsIn map o = refsIn map' o := h.countP_eq _

theorem refsIn_pos : 0 < refsIn map o ↔ ∃ vma ∈ map, vma.vmaObj = o := by
  simp [refsIn, countP_pos_iff]

/-! ### The areas of the processes -/

theorem areaRefs_split (hp : p < n) (s : VmSys) (o : Nat) : s.areaRefs n o
      = refsIn (s.areas p) o + ∑ q ∈ (Finset.range n).erase p, refsIn (s.areas q) o :=
  (Finset.add_sum_erase _ _ (Finset.mem_range.mpr hp)).symm

theorem areaRefs_update (hp : p < n) (h : ∀ q, q ≠ p → t.areas q = s.areas q)
    (o : Nat) : t.areaRefs n o + refsIn (s.areas p) o = s.areaRefs n o + refsIn (t.areas p) o := by
  have hrest : ∑ q ∈ (Finset.range n).erase p, refsIn (t.areas q) o
      = ∑ q ∈ (Finset.range n).erase p, refsIn (s.areas q) o :=
    Finset.sum_congr rfl fun q hq => by rw [h q (Finset.ne_of_mem_erase hq)]
  rw [areaRefs_split hp t, areaRefs_split hp s, hrest]
  omega

theorem areaRefs_congr (h : t.proc = s.proc) : t.areaRefs n = s.areaRefs n := by
  funext o
  unfold areaRefs areas
  rw [h]

theorem areas_of {x : Proc} (h : s.proc p = some x) : s.areas p = x.pVmmap := by
  rw [areas, h]
  rfl

/-! ## 2. What the object layer does to the counts -/

/-- What the balance reads of an object. -/
def VmSys.account (s : VmSys) (o : Nat) : Option (MmobjOps × Option Nat × Int) :=
  (s.mmobj o).map fun x => (x.mmoOps, x.mmoShadowed, x.mmoRefcount - x.mmoNrespages)

theorem account_of (h : s.mmobj o = some x) :
    s.account o = some (x.mmoOps, x.mmoShadowed, x.mmoRefcount - x.mmoNrespages) := by
  rw [account, h]
  rfl

theorem shadows_eq (h : t.account o = s.account o) : t.shadows o = s.shadows o := by
  unfold account at h
  unfold shadows
  cases hs : s.mmobj o with
  | none =>
    rw [hs] at h
    rw [map_eq_none_iff.mp h]
  | some x =>
    rw [hs, map_some, map_eq_some_iff] at h
    obtain ⟨y, hy, heq⟩ := h
    simp only [Prod.mk.injEq] at heq
    rw [hy, bind_some, bind_some, heq.1, heq.2.1]

theorem ExactFor.of_account (h : ExactFor s A)
    (hacc : t.account = s.account) (hsize : t.nmmobj = s.nmmobj) : ExactFor t A := by
  have hrefs : t.shadowRefs = s.shadowRefs := by
    funext o
    unfold shadowRefs
    rw [hsize, show t.shadows = s.shadows from funext fun o' => shadows_eq (congrFun hacc o')]
  intro o y hy hops
  have hsome := (congrFun hacc o).symm.trans (account_of hy)
  rw [account, map_eq_some_iff] at hsome
  obtain ⟨x, hx, heq⟩ := hsome
  simp only [Prod.mk.injEq] at heq
  rw [hrefs, ← heq.2.2]
  exact h o x hx (heq.1 ▸ hops)

section
variable {P : Nat → Prop} {new : Bool} {s t : VmSys}

theorem Upds.nmmobj (h : Upds P new s t) : t.nmmobj = s.nmmobj := by
  induction h with
  | refl => rfl
  | tail _ hu ih =>
    refine Eq.trans ?_ ih
    cases hu <;> rfl

/-- **Getting pages keeps every account**: a new frame raises both counts. -/
theorem Upds.account (h : Upds (fun _ => False) new s t) : t.account = s.account := by
  induction h with
  | refl => rfl
  | @tail t u _ hu ih =>
    refine Eq.trans ?_ ih
    cases hu with
    | requeue | wake | flags | fill => rfl
    | obj hp | dropObj hp | unlink hp => exact hp.elim
    | @enter o k pf a slab free x _ _ _ _ hx =>
      funext o'
      change Option.map _ (update t.mmobj o _ o') = _
      by_cases ho : o' = o
      · subst ho
        rw [update_self, account_of hx]
        simp only [map_some, some.injEq, Prod.mk.injEq, true_and]
        omega
      · rw [update_of_ne ho]
        rfl

/-- Objects of which no reference is dropped stay as they are. -/
theorem Upds.mmobj_other (h : Upds P false s t) (ho : ¬ P o) : t.mmobj o = s.mmobj o := by
  induction h with
  | refl => rfl
  | @tail t u _ hu ih =>
    refine Eq.trans ?_ ih
    have hne : ∀ {o'}, P o' → o ≠ o' := by
      rintro o' hp rfl
      exact ho hp
    cases hu with
    | requeue | wake | flags | fill => rfl
    | obj hp | dropObj hp | unlink hp => exact update_of_ne (hne hp) ..
    | enter hn => cases hn

theorem Upds.ops (h : Upds P new s t) {y : Mmobj} (hy : t.mmobj o = some y) :
    ∃ x, s.mmobj o = some x ∧ x.mmoOps = y.mmoOps := by
  induction h generalizing y with
  | refl => exact ⟨y, hy, rfl⟩
  | @tail t u _ hu ih =>
    have hupd : ∀ {o' z : _} {x : Mmobj}, t.mmobj o' = some x →
      (∀ z', z = some z' → z'.mmoOps = x.mmoOps) →
        update t.mmobj o' z o = some y → ∃ x, t.mmobj o = some x ∧ x.mmoOps = y.mmoOps := by
      intro o' z x hx hops hy
      rw [update_apply] at hy
      split at hy
      case isTrue heq =>
        subst heq
        exact ⟨x, hx, (hops y hy).symm⟩
      case isFalse => exact ⟨y, hy, rfl⟩
    have hback : ∃ x, t.mmobj o = some x ∧ x.mmoOps = y.mmoOps := by
      cases hu with
      | requeue | wake | flags | fill => exact ⟨y, hy, rfl⟩
      | obj _ hx hops => exact hupd hx (fun z hz => by cases hz; exact hops) hy
      | dropObj _ hx => exact hupd hx (fun z hz => by cases hz) hy
      | unlink _ _ hx => exact hupd hx (fun z hz => by cases hz; rfl) hy
      | enter _ _ _ _ hx => exact hupd hx (fun z hz => by cases hz; rfl) hy
    obtain ⟨x, hx, hops⟩ := hback
    obtain ⟨w, hw, hops'⟩ := ih hx
    exact ⟨w, hw, hops'.trans hops⟩

end

/-! ## 3. Dropping a reference -/

/-- What `put` does to the object: one reference less, or the object is freed.  That happens to the
last reference only, and to a shadow object only if it has resident pages. -/
structure Dropped (s : VmSys) (o : Nat) (t : VmSys) : Prop where
  live : ∃ x, s.mmobj o = some x
  size : t.nmmobj = s.nmmobj
  others : ∀ o', o' ≠ o → t.mmobj o' = s.mmobj o'
  vnode : ∀ {x y}, s.mmobj o = some x → t.mmobj o = some y → y.mmoOps = x.mmoOps
  self : ∀ {x}, s.mmobj o = some x → x.mmoOps ≠ .vnode →
    t.mmobj o = some { x with mmoRefcount := x.mmoRefcount - 1 } ∨
    t.mmobj o = none ∧ x.mmoRefcount - x.mmoNrespages = 1 ∧
      (x.mmoOps = .shadow → x.mmoRespages ≠ [])

theorem slabFree_yields (s : VmSys) (o : Nat) : Yields (slabFree s o) fun t => t.mmobj o = none :=
  .seq fun _ => .pure (update_self ..)

/-- The pages of an anonymous object lose their pins, and stay. -/
theorem putPage_anon (hanon : ∀ x, s.mmobj o = some x → x.mmoOps = .anon)
    (fuel : Nat) {pf : Nat} (hw : Wf s) (hof : OfObj s o pf) :
    Yields (putPage fuel s pf) (Upds (fun _ => False) false s) := by
  cases fuel with
  | zero => exact .error _
  | succ fuel =>
    rw [putPage]
    refine .seq fun f => .bind (Q := Upds (fun _ => False) false s)
      (unpinLoop_upds _ s) fun t ht => ?_
    refine .ite (fun _ => .error _) fun _ => .ite (fun _ => ?_) fun _ => .pure ht
    cases fuel with
    | zero => exact .error _
    | succ fuel =>
      refine andThen ht (pframeClean_upds (putSpec fuel) (ht.wf hw) (hof.upds ht) fun x hx hops =>
        ?_)
      obtain ⟨y, hy, heq⟩ := ops ht hx
      rw [hanon y hy, hops] at heq
      cases heq

theorem respagesLoop_anon (fuel : Nat) : ∀ {l : List Nat} {s : VmSys}, Wf s →
    (∀ x, s.mmobj o = some x → x.mmoOps = .anon) → (∀ pf ∈ l, OfObj s o pf) →
    Yields (respagesLoop (putPage fuel) l s) (Upds (fun _ => False) false s) := by
  intro l
  induction l with
  | nil => exact fun _ _ _ => .ok .refl
  | cons pf rest ih =>
    intro s hw hanon hl
    refine .bind (putPage_anon hanon fuel hw (hl pf (.head _))) fun t ht => andThen ht ?_
    refine ih (ht.wf hw) (fun x hx => ?_) fun q hq => (hl q (.tail _ hq)).upds ht
    exact hanon x (mmobj_other ht (fun h => h) ▸ hx)

/-- **What dropping a reference does.** -/
theorem mmobjPut_dropped (hw : Wf s) (o fuel : Nat) : Yields (mmobjPut fuel s o) (Dropped s o) := by
  have hlive : Yields (mmobjPut fuel s o) fun _ => ∃ x, s.mmobj o = some x := by
    cases fuel with
    | zero => exact .error _
    | succ fuel =>
      rw [mmobjPut]
      exact .bind (theObj_yields s o) fun x hx _ _ => ⟨x, hx⟩
  have hself : Yields (mmobjPut fuel s o) fun t => ∀ {x}, s.mmobj o = some x → x.mmoOps ≠ .vnode →
      t.mmobj o = some { x with mmoRefcount := x.mmoRefcount - 1 } ∨
      t.mmobj o = none ∧ x.mmoRefcount - x.mmoNrespages = 1 ∧
        (x.mmoOps = .shadow → x.mmoRespages ≠ []) := by
    cases fuel with
    | zero => exact .error _
    | succ fuel =>
      rw [mmobjPut]
      refine .bind (theObj_yields s o) fun x hx => ?_
      have hthe : ∀ {y}, s.mmobj o = some y → x = y := fun hy => some.inj (hx.symm.trans hy)
      split
      case h_1 hops =>
        have hanon : ∀ y, s.mmobj o = some y → y.mmoOps = .anon := fun y hy => hthe hy ▸ hops
        refine .seq fun _ => .bind (Q := Upds (fun _ => False) false s) ?_ fun t ht => ?_
        · exact .ite (fun _ => respagesLoop_anon fuel hw hanon (hw.ofObj hx)) fun _ => .ok .refl
        · refine .bind (theObj_yields t o) fun y hy => ?_
          rw [mmobj_other ht fun h => h] at hy
          obtain rfl := hthe hy
          refine .ite (fun hlast => (slabFree_yields _ o).imp fun u hu => ?_) fun _ => .pure ?_
          · intro y hy _
            obtain rfl := hthe hy
            exact .inr ⟨hu, by omega, fun h => by rw [hops] at h; cases h⟩
          · intro y hy _
            obtain rfl := hthe hy
            exact .inl (update_self ..)
      case h_2 hops =>
        refine .seq fun _ => .ite (fun hlast => .seq fun t => ?_) fun _ => .pure ?_
        · refine (slabFree_yields t o).imp fun u hu y hy _ => ?_
          obtain rfl := hthe hy
          exact .inr ⟨hu, by omega, fun _ => hlast.2⟩
        · intro y hy _
          obtain rfl := hthe hy
          exact .inl (update_self ..)
      case h_3 hops =>
        exact fun t _ y hy hne => absurd (hthe hy ▸ hops) hne
  refine (((putSpec fuel).put hw).and (hlive.and hself)).imp fun t ht => ?_
  obtain ⟨hputs, hlive, hself⟩ := ht
  refine ⟨hlive, nmmobj hputs, ?_, ?_, hself⟩
  · exact fun o' ho => mmobj_other hputs ho
  · intro x y hx hy
    obtain ⟨x', hx', hops⟩ := ops hputs hy
    obtain rfl : x = x' := some.inj (hx.symm.trans hx')
    exact hops.symm

/-- A reference that can be dropped without upsetting another object: a shadow object that may be
freed with it does not shadow an anonymous or shadow object. -/
def Puttable (s : VmSys) (o : Nat) : Prop :=
  ∀ x, s.mmobj o = some x → x.mmoOps = .shadow → x.mmoRespages = [] ∨ ∀ z, x.mmoShadowed = some z →
    s.counted z = false

section
variable {s t : VmSys} {o : Nat}

/-- Nothing becomes an anonymous or a shadow object. -/
theorem Dropped.counted (h : Dropped s o t) (hc : t.counted o' = true) : s.counted o' = true := by
  obtain ⟨y, hy, hops⟩ := counted_iff.mp hc
  rw [counted_iff]
  by_cases ho : o' = o
  · subst ho
    obtain ⟨x, hx⟩ := h.live
    exact ⟨x, hx, h.vnode hx hy ▸ hops⟩
  · exact ⟨y, h.others o' ho ▸ hy, hops⟩

theorem Dropped.not_counted (h : Dropped s o t) (hc : s.counted o' = false) :
    t.counted o' = false :=
  Bool.eq_false_iff.mpr fun hc' => by rw [h.counted hc'] at hc; cases hc

theorem Dropped.puttable (h : Dropped s o t) (hp : Puttable s o') : Puttable t o' := by
  intro y hy hops
  by_cases ho : o' = o
  · subst ho
    obtain ⟨x, hx⟩ := h.live
    have hne : x.mmoOps ≠ .vnode := by rw [← h.vnode hx hy, hops]; nofun
    obtain hx' | ⟨hnone, -⟩ := h.self hx hne
    · obtain rfl := some.inj (hx'.symm.trans hy)
      exact (hp x hx hops).imp_right fun hz z hs => h.not_counted (hz z hs)
    · rw [hnone] at hy
      cases hy
  · exact (hp y (h.others o' ho ▸ hy) hops).imp_right fun hz z hs => h.not_counted (hz z hs)

theorem shadowRefs_eq (hsize : t.nmmobj = s.nmmobj) (h : ∀ o, t.shadows o = s.shadows o) :
    t.shadowRefs = s.shadowRefs := by
  funext o
  unfold shadowRefs
  rw [hsize, show t.shadows = s.shadows from funext h]

theorem shadows_of (h : s.mmobj o = some x) :
    s.shadows o = if x.mmoOps = .shadow then x.mmoShadowed else none := by
  rw [shadows, h]
  rfl

/-- Among the links only that of the object itself can go away, and then the object is freed. -/
theorem Dropped.shadows (h : Dropped s o t) (hx : s.mmobj o = some x) :
    (∀ q, t.shadows q = s.shadows q) ∨
      t.mmobj o = none ∧ t.shadows = update s.shadows o none := by
  have hothers : ∀ q, q ≠ o → t.shadows q = s.shadows q := fun q hq => by
    rw [VmSys.shadows, h.others q hq]
    rfl
  cases hy : t.mmobj o with
  | none =>
    refine .inr ⟨rfl, funext fun q => ?_⟩
    by_cases hq : q = o
    · rw [hq, update_self, VmSys.shadows, hy]
      rfl
    · rw [update_of_ne hq, hothers q hq]
  | some y =>
    refine .inl fun q => ?_
    by_cases hq : q = o
    · rw [hq, shadows_of hx, shadows_of hy, h.vnode hx hy]
      by_cases hops : x.mmoOps = .vnode
      · rw [hops]
        rfl
      · obtain hx' | ⟨hnone, -⟩ := h.self hx hops
        · obtain rfl := some.inj (hx'.symm.trans hy)
          rfl
        · rw [hnone] at hy
          cases hy
    · exact hothers q hq

theorem Dropped.shadowRefs (hw : Wf s) (h : Dropped s o t) (hx : s.mmobj o = some x)
    (hput : Puttable s o) (hc : s.counted o' = true) : t.shadowRefs o' = s.shadowRefs o' := by
  obtain hsame | ⟨hnone, hupd⟩ := h.shadows hx
  · exact congrFun (shadowRefs_eq h.size hsame) o'
  · unfold VmSys.shadowRefs
    rw [h.size, hupd]
    cases hz : s.shadows o with
    | none => rw [← hz, update_eq_self]
    | some z =>
      rw [census_clear (Finset.mem_range.mpr (hw.objLt hx)) hz o', if_neg, Nat.add_zero]
      rintro rfl
      -- the link is that of a shadow object, which is freed only with resident pages
      rw [shadows_of hx] at hz
      split at hz
      case isTrue hops =>
        obtain hx' | ⟨-, -, hres⟩ := h.self hx (by rw [hops]; nofun)
        · rw [hnone] at hx'
          cases hx'
        · rw [(hput x hx hops).resolve_left (hres hops) z hz] at hc
          cases hc
      case isFalse => cases hz

/-- **Dropping the reference of an area keeps the balance.** -/
theorem ExactFor.put (hw : Wf s) (he : ExactFor s fun o' => A o' + if o = o' then 1 else 0)
    (h : Dropped s o t)
    (hput : Puttable s o) : ExactFor t A := by
  obtain ⟨x, hx⟩ := h.live
  intro o' y hy hops hpos
  have hc := h.counted (counted_iff.mpr ⟨y, hy, hops⟩)
  rw [h.shadowRefs hw hx hput hc] at hpos ⊢
  by_cases ho : o' = o
  · subst ho
    have hne : x.mmoOps ≠ .vnode := h.vnode hx hy ▸ hops
    have hbal := he o' x hx hne
    dsimp only at hbal
    rw [if_pos rfl] at hbal
    obtain hx' | ⟨hnone, -⟩ := h.self hx hne
    · obtain rfl := some.inj (hx'.symm.trans hy)
      change x.mmoRefcount - 1 - x.mmoNrespages = _
      omega
    · rw [hnone] at hy
      cases hy
  · have hbal := he o' y (h.others o' ho ▸ hy) hops
    dsimp only at hbal
    rw [if_neg (Ne.symm ho)] at hbal
    exact hbal hpos

end

/-! ## 4. `vmmap_remove` -/

theorem removeTail_obj {vma vma' : Vmarea} {passed : Bool}
    (h : (removeTail pagenumAt lo hi vma passed).1 = some vma') : vma'.vmaObj = vma.vmaObj := by
  unfold removeTail at h
  dsimp only at h
  split at h <;> split at h <;> split at h <;> cases h <;> rfl

theorem refsIn_removeTail (pagenumAt : Nat → Nat) (lo hi : Nat) (vma : Vmarea)
    (passed : Bool) (o : Nat) :
    refsIn (removeTail pagenumAt lo hi vma passed).1.toList o
      = if (removeTail pagenumAt lo hi vma passed).1.isNone then 0
        else if vma.vmaObj = o then 1 else 0 := by
  cases h : (removeTail pagenumAt lo hi vma passed).1 with
  | none => rfl
  | some vma' =>
    rw [toList_some, refsIn_cons, removeTail_obj h]
    simp [refsIn]

theorem puttable_of_not_counted (h : s.counted o = false) : Puttable s o := by
  intro x hx hops
  rw [counted_iff.mpr ⟨x, hx, by rw [hops]; nofun⟩] at h
  cases h

/-- The loop takes the area out of the list. -/
def dropsArea (pagenumAt : Nat → Nat) (lo hi : Nat) (vma : Vmarea) : Bool :=
  (removeTail pagenumAt lo hi vma false).1.isNone

theorem removeTail_passed (pagenumAt : Nat → Nat) (lo hi : Nat) (vma : Vmarea) (passed : Bool) :
    (removeTail pagenumAt lo hi vma passed).1 = (removeTail pagenumAt lo hi vma false).1 := by
  unfold removeTail
  dsimp only
  split <;> split <;> split <;> rfl

theorem mem_insertSplit_rest {newvma a : Vmarea} {before rest before' rest' : List Vmarea}
    (heq : insertSplit newvma before rest = (before', rest')) (h : a ∈ rest') :
    a = newvma ∨ a ∈ rest := by
  unfold insertSplit at heq
  split at heq
  case h_1 =>
    cases heq
    exact .inr h
  case h_2 =>
    cases heq
    cases h
  case h_3 vma rest _ =>
    split at heq
    · cases heq
      exact .inr h
    · cases heq
      obtain rfl | h := mem_cons.mp h
      · exact .inr (.head _)
      · exact (Vm.mem_insertArea.mp h).imp_right (mem_cons_of_mem _)

/-- **The loop of `vmmap_remove` keeps the balance**: an area that goes away gives up its reference,
one that is split gets one from the slab, which must not be to an object that is counted. -/
theorem removeLoop_exact {fresh : Option Vmarea} (A : Nat → Nat) :
    ∀ (fuel : Nat) {s : VmSys} (passed : Bool) {before rest : List Vmarea}, Wf s →
      ExactFor s (fun o => A o + refsIn (before ++ rest) o) →
      (∀ vma ∈ rest, dropsArea pagenumAt lo hi vma = true → Puttable s vma.vmaObj) →
      ((∀ stale, fresh = some stale → s.counted stale.vmaObj = false) ∨ ∀ vma ∈ rest,
        ¬ Interior lo hi vma) →
      Yields (removeLoop fresh pagenumAt lo hi fuel s passed before rest) fun r =>
        (∀ o, r.1.counted o = true → s.counted o = true) ∧
        ExactFor r.1 fun o => A o + refsIn r.2.2 o := by
  intro fuel s passed before rest hw he hput hsplit
  fun_induction removeLoop fresh pagenumAt lo hi fuel s passed before rest with
  | case1 => exact .error _
  | case2 => exact .ok ⟨fun _ h => h, by simpa using he⟩
  | case3 => exact .ok ⟨fun _ h => h, he.congr fun o _ => by simp⟩
  | case4 fuel s passed before vma rest hin stale hfresh newvma part ih =>
    subst hfresh
    have hstale := hsplit.resolve_right fun hno => hno vma (.head _) hin
    refine .seq fun _ => ?_
    split
    rename_i before' rest' heq
    refine ih _ _ hw (he.congr fun o ho => ?_) (fun a ha hgone => ?_) (.inl hstale)
    · have hne : ¬ stale.vmaObj = o := by
        rintro rfl
        rw [hstale stale rfl] at ho
        cases ho
      have hperm := insertSplit_perm newvma (before ++ [part]) rest
      rw [heq] at hperm
      rw [refsIn_perm hperm, refsIn_cons, if_neg hne]
      simp [part]
    · obtain rfl | ha := mem_insertSplit_rest heq ha
      · exact puttable_of_not_counted (hstale stale rfl)
      · exact hput a (.tail _ ha) hgone
  | case5 fuel s passed before vma rest hout ih =>
    have hkept := refsIn_removeTail pagenumAt lo hi vma passed
    have hrest : ∀ a ∈ rest, a ∈ vma :: rest := fun a ha => .tail _ ha
    by_cases hgone : (removeTail pagenumAt lo hi vma passed).1.isNone
    · -- the area goes away, and its reference is dropped
      have hvma := hput vma (.head _) (by rwa [dropsArea, ← removeTail_passed])
      rw [if_pos hgone]
      refine .bind (((putSpec _).put hw).and (mmobjPut_dropped hw _ _)) fun t ht => ?_
      obtain ⟨hputs, hdrop⟩ := ht
      have he' : ExactFor t fun o =>
          A o + refsIn (before ++ (removeTail pagenumAt lo hi vma passed).1.toList ++ rest) o := by
        refine ExactFor.put hw (he.congr fun o _ => ?_) hdrop hvma
        simp only [refsIn_append, refsIn_cons, hkept, if_pos hgone]
        omega
      refine (ih _ (hputs.wf hw) he' (fun a ha hd =>
        hdrop.puttable (hput a (hrest a ha) hd)) ?_).imp
        fun r hr => ⟨fun o ho => hdrop.counted (hr.1 o ho), hr.2⟩
      exact hsplit.imp (fun h stale hs => hdrop.not_counted (h stale hs)) fun h a ha =>
        h a (hrest a ha)
    · rw [if_neg hgone]
      refine ih _ hw (he.congr fun o _ => ?_) (fun a ha => hput a (hrest a ha))
        (hsplit.imp_right fun h a ha => h a (hrest a ha))
      simp only [refsIn_append, refsIn_cons, hkept, if_neg hgone]
      omega

end Weenix.Pageout
