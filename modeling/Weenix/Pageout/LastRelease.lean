/-
# The last reference to an anonymous or a shadow object (`vm/anon.c`, `vm/shadow.c`)

When the last reference to such an object goes, and only its resident pages are left, `put` has
to give back every page and then the object.  Each page given back calls `put` on the same
object again.

* `anon_put` unpins and cleans the pages and leaves them where they are; the object stays.
* `shadow_put` leaves the pages that are not dirty.  A dirty page is freed on the way, by
  `shadow_cleanpage`, and the `put` that follows takes itself for the last one too: unless that was
  the only page, it frees the object under the loop of the outer `put`.
* A shadow object without pages is never freed.

What is left of the property is `last_release`: it holds for an anonymous object without pages, for
a shadow object whose only page is dirty, and whenever other references are left.
-/
import Weenix.Pageout.ChainPages
import Weenix.Pageout.References

namespace Weenix.Pageout

open List VmSys Bool Upds

open Weenix.Vm (mapPrivate mapShared)

variable {o pf : Nat} {f : Pframe} {s t : VmSys}

/-! ## 1. What `put` has to do -/

/-- `o->mmo_refcount--` -/
def VmSys.dropRef (s : VmSys) (o : Nat) (x : Mmobj) : VmSys :=
  s.setObj o { x with mmoRefcount := x.mmoRefcount - 1 }

/-- The object's memory is free. -/
def VmSys.freeObj (s : VmSys) (o : Nat) : VmSys :=
  { s with mmobj := update s.mmobj o none, mmobjSlab := o :: s.mmobjSlab }

/-- `o` and its resident pages are gone, each once, and everything else is as it was. -/
structure Released (s t : VmSys) (o : Nat) (x : Mmobj) : Prop where
  gone : t.mmobj o = none
  slab : t.mmobjSlab = o :: s.mmobjSlab
  others : ∀ q, q ≠ o → t.mmobj q = s.mmobj q
  pages : ∀ pf ∈ x.mmoRespages, t.pframe pf = none
  frames : ∀ pf, pf ∉ x.mmoRespages → t.pframe pf = s.pframe pf
  pframeSlab : t.pframeSlab.Perm (x.mmoRespages ++ s.pframeSlab)
  freePages : t.freePages.Perm
    (x.mmoRespages.filterMap (fun pf => (s.pframe pf).map (·.pfAddr)) ++ s.freePages)
  dangling : ∀ pf f, t.pframe pf = some f → f.pfObj ≠ o

/-- The last reference takes the object and its pages along, any other one only itself. -/
def PutsRight (s : VmSys) (o : Nat) (x : Mmobj) (r : Except Halt VmSys) : Prop :=
  if x.mmoRefcount - 1 = x.mmoNrespages then ∃ t, r = .ok t ∧ Released s t o x
  else r = .ok (s.dropRef o x)

/-- Live object `o`, anonymous or a shadow object, with its counts in order, a reference to put, and
no page busy. -/
structure Held (s : VmSys) (o : Nat) (x : Mmobj) : Prop where
  live : s.mmobj o = some x
  kind : x.mmoOps ≠ .vnode
  count : x.mmoNrespages = x.mmoRespages.length
  held : x.mmoNrespages < x.mmoRefcount
  listed : ∀ pf f, s.pframe pf = some f → f.pfObj = o → pf ∈ x.mmoRespages
  idle : ∀ pf ∈ x.mmoRespages, ∀ f, s.pframe pf = some f → f.pfBusy = false

/-! ## 2. The functions on the way -/

section
variable {s : VmSys} {o pf : Nat} {f : Pframe} {x : Mmobj}

theorem unpinLoop_eq : ∀ {n : Nat} {s : VmSys} {f : Pframe}, s.pframe pf = some f →
    f.pfPincount = n → ∃ l, unpinLoop n s pf
      = .ok (s.relist l pf { f with pfPincount := 0 })
  | 0, s, f, hf, hn => by
    refine ⟨s.allocList, ?_⟩
    have hself : ({ f with pfPincount := 0 } : Pframe) = f := by rw [← hn]
    rw [hself]
    simp only [unpinLoop, setFrame, ← hf, update_eq_self]
  | n + 1, s, f, hf, hn => by
    have hpos : decide (0 < f.pfPincount) = true := by rw [hn]; exact decide_eq_true n.succ_pos
    obtain ⟨l, hl⟩ : ∃ l, pframeUnpin s pf = .ok (s.relist l pf { f with pfPincount := n }) := by
      rw [pframeUnpin, theFrame_eq_ok.mpr hf, ok_bind, kassert_of hpos, hn]
      by_cases hlast : n + 1 = 1
      · exact ⟨s.allocList ++ [pf], congrArg Except.ok (if_pos hlast)⟩
      · exact ⟨s.allocList, congrArg Except.ok (if_neg hlast)⟩
    obtain ⟨l', hl'⟩ := unpinLoop_eq (n := n) (s := s.relist l pf { f with pfPincount := n })
      (update_self ..) rfl
    refine ⟨l', ?_⟩
    rw [unpinLoop, hl, ok_bind, hl']
    simp only [setFrame, update_idem]

theorem unpinned_upds (hf : s.pframe pf = some f) (l : List Nat) : Upds (fun _ => False) false s
    (s.relist l pf { f with pfPincount := 0 }) :=
  (Relation.ReflTransGen.single (.requeue l)).tail (.flags hf rfl id)

/-- The loop body of `anon_put` and `shadow_put`, for a page that is not busy. -/
theorem putPage_eq (hf : s.pframe pf = some f) (hbusy : f.pfBusy = false) (fuel : Nat) :
    ∃ l, putPage (fuel + 1) s pf =
      if f.pfDirty then
        pframeClean fuel (s.relist l pf { f with pfPincount := 0 }) pf
      else .ok (s.relist l pf { f with pfPincount := 0 }) := by
  obtain ⟨l, hl⟩ := unpinLoop_eq hf rfl
  refine ⟨l, ?_⟩
  rw [putPage, VmSys.theFrame_eq_ok.mpr hf, ok_bind, hl, ok_bind, hbusy, if_neg Bool.false_ne_true]
  rfl

section
variable (hw : Wf s) (hf : s.pframe pf = some f) (hpin : f.pfPincount = 0)
  (hx : s.mmobj f.pfObj = some x)
include hw hf hpin hx

theorem pframeFree_eq (hbusy : f.pfBusy = false) (fuel : Nat) : pframeFree (fuel + 1) s pf =
      mmobjBottomVmas s f.pfObj >>= fun _ => mmobjPut fuel (unlinkFrame s pf f x) f.pfObj := by
  have hunpinned : (f.pfPincount == 0) = true := beq_iff_eq.mpr hpin
  have hidle : (!f.pfBusy) = true := by rw [hbusy]; rfl
  rw [pframeFree, theFrame_eq_ok.mpr hf, ok_bind, kassert_of hunpinned, ok_bind,
    kassert_of hidle, ok_bind, pframeRemoveFromPts_eq hw hf]
  cases mmobjBottomVmas s f.pfObj with
  | error e => rfl
  | ok vmas =>
    change (s.theObj f.pfObj >>= _) = _
    rw [theObj_eq_ok.mpr hx]
    rfl

theorem pframeClean_shadow (hdirty : f.pfDirty = true) (hops : x.mmoOps = .shadow) (fuel : Nat) :
    ∃ l, pframeClean (fuel + 1) s pf = mmobjBottomVmas s f.pfObj >>= fun _ =>
      pframeFree fuel (s.relist l pf f.cleaned) pf := by
  refine ⟨s.allocList.erase pf ++ [pf], ?_⟩
  rw [pframeClean_eq hw hf hdirty hpin hx, hops]

end

theorem unlinkFrame_self (s : VmSys) (pf : Nat) (f : Pframe) (x : Mmobj) :
    (unlinkFrame s pf f x).mmobj f.pfObj = some { x with
      mmoNrespages := x.mmoNrespages - 1
      mmoRespages := x.mmoRespages.erase pf } := update_self ..

variable (hx : s.mmobj o = some x)
include hx

theorem mmobjBottomVmas_dropRef (q : Nat) :
    mmobjBottomVmas (s.dropRef o x) q = mmobjBottomVmas s q := by
  refine mmobjBottomVmas_congr fun q => ?_
  change (update s.mmobj o _ q).map _ = _
  by_cases hq : q = o
  · rw [hq, update_self, hx]
    rfl
  · rw [update_of_ne hq]

theorem mmobjPut_shadow (hops : x.mmoOps = .shadow) (hpos : 0 < x.mmoRefcount) (fuel : Nat) :
    mmobjPut (fuel + 1) s o =
      if x.mmoRefcount - 1 = x.mmoNrespages ∧ x.mmoRespages ≠ [] then
        respagesLoop (putPage fuel) x.mmoRespages (s.dropRef o x) >>= fun t => slabFree t o
      else .ok (s.dropRef o x) := by
  obtain ⟨ops, _, _, _, _, _⟩ := x
  obtain rfl : ops = .shadow := hops
  rw [mmobjPut, theObj_eq_ok.mpr hx, ok_bind]
  dsimp only
  rw [kassert_of (decide_eq_true hpos)]
  rfl

theorem mmobjPut_anon (hops : x.mmoOps = .anon) (hpos : 0 < x.mmoRefcount) (fuel : Nat) :
    mmobjPut (fuel + 1) s o =
      (if x.mmoRefcount - x.mmoNrespages = 1 then respagesLoop (putPage fuel) x.mmoRespages s
        else .ok s) >>= fun t => t.theObj o >>= fun y =>
          if y.mmoRefcount - 1 = 0 ∧ y.mmoNrespages = 0 then slabFree (t.dropRef o y) o
          else .ok (t.dropRef o y) := by
  rw [mmobjPut, theObj_eq_ok.mpr hx, ok_bind, hops]
  rw [kassert_of (decide_eq_true hpos)]
  rfl

theorem slabFree_eq : slabFree s o = .ok (s.freeObj o) := by
  rw [slabFree, theObj_eq_ok.mpr hx]
  rfl

end

/-! ## 3. A shadow object with several pages -/

/-- Nothing takes a page away if no object may lose one. -/
theorem Upds.ident_kept (h : Upds (fun _ => False) false s t)
    {i : Nat × Nat × Nat} (hi : s.ident pf = some i) : t.ident pf = some i := by
  induction h with
  | refl => exact hi
  | tail _ hu ih =>
    cases hu with
    | requeue | wake | fill => exact ih
    | flags hf hid _ =>
      rw [ident_setFrame hf hid]
      exact ih
    | obj hp | dropObj hp | unlink hp => exact hp.elim
    | enter hn => cases hn

theorem Upds.gone {P : Nat → Prop} {new : Bool} (h : Upds P new s t) (hgone : s.mmobj o = none) :
    t.mmobj o = none := by
  cases ht : t.mmobj o with
  | none => rfl
  | some y =>
    obtain ⟨x, hx, -⟩ := Upds.ops h ht
    rw [hgone] at hx
    cases hx

section
variable {s : VmSys} {o : Nat} {x : Mmobj}

/-- The `put` after a page was freed takes itself for the last one. -/
theorem mmobjPut_last (hx : s.mmobj o = some x) (hops : x.mmoOps = .shadow)
    (hpos : 0 < x.mmoRefcount) (hlast : x.mmoRefcount - 1 = x.mmoNrespages)
    (hne : x.mmoRespages ≠ []) (fuel : Nat) :
    Yields (mmobjPut fuel s o) fun t => t.mmobj o = none := by
  cases fuel with
  | zero => exact .error _
  | succ fuel =>
    rw [mmobjPut_shadow hx hops hpos, if_pos ⟨hlast, hne⟩]
    exact .seq fun t => slabFree_yields t o

variable (hops : x.mmoOps = .shadow) (hcount : x.mmoNrespages = x.mmoRespages.length)
  (hlast : x.mmoRefcount = x.mmoNrespages) (htwo : 2 ≤ x.mmoRespages.length)
include hops hcount hlast htwo

theorem pframeClean_last (hw : Wf s) (hf : s.pframe pf = some f) (hdirty : f.pfDirty = true)
    (hpin : f.pfPincount = 0) (hx : s.mmobj f.pfObj = some x) (fuel : Nat) :
    Yields (pframeClean fuel s pf) fun t => t.mmobj f.pfObj = none := by
  cases fuel with
  | zero => exact .error _
  | succ fuel =>
    obtain ⟨l, hl⟩ := pframeClean_shadow hw hf hpin hx hdirty hops fuel
    rw [hl]
    refine .seq fun _ => ?_
    cases fuel with
    | zero => exact .error _
    | succ fuel =>
      have hu : Upds (fun _ => False) false s (s.relist l pf f.cleaned) := cleaned_upds hf l
      have hrest : 1 ≤ (x.mmoRespages.erase pf).length := by
        rw [length_erase]
        split <;> omega
      rw [pframeFree_eq (hu.wf hw) (update_self ..) hpin hx rfl fuel]
      refine .seq fun _ => mmobjPut_last (unlinkFrame_self _ pf f.cleaned x) hops ?_ ?_ ?_ fuel
      · change 0 < x.mmoRefcount
        omega
      · change x.mmoRefcount - 1 = x.mmoNrespages - 1
        omega
      · exact ne_nil_of_length_pos hrest

/-- A page of a shadow object with others: if it is dirty, the object is gone afterwards. -/
theorem putPage_shadow (hw : Wf s) (hx : s.mmobj o = some x) (hof : OfObj s o pf) (fuel : Nat) :
    Yields (putPage fuel s pf) fun t => t.mmobj o = none ∨ Upds (fun _ => False) false s t := by
  cases fuel with
  | zero => exact .error _
  | succ fuel =>
    cases hf : s.pframe pf with
    | none =>
      rw [putPage]
      refine .bind (theFrame_yields s pf) fun f hf' => ?_
      rw [hf] at hf'
      cases hf'
    | some f =>
      by_cases hbusy : f.pfBusy = true
      · rw [putPage, theFrame_eq_ok.mpr hf, ok_bind]
        refine .seq fun t => ?_
        rw [if_pos hbusy]
        exact .error _
      · obtain ⟨l, hl⟩ := putPage_eq hf (eq_false_of_not_eq_true hbusy) fuel
        rw [hl]
        have hu := unpinned_upds hf l
        refine .ite (fun hdirty => ?_) fun _ => .ok (.inr hu)
        obtain rfl := hof.eq hf
        refine (pframeClean_last hops hcount hlast htwo (hu.wf hw) (update_self ..) hdirty
          rfl hx fuel).imp fun _ h => .inl h

theorem respagesLoop_shadow (fuel : Nat) : ∀ {l : List Nat} {s : VmSys}, Wf s →
    s.mmobj o = some x → (∀ pf ∈ l, OfObj s o pf) →
    Yields (respagesLoop (putPage fuel) l s) fun t =>
      t.mmobj o = none ∨ Upds (fun _ => False) false s t := by
  intro l
  induction l with
  | nil => exact fun _ _ _ => .ok (.inr .refl)
  | cons pf rest ih =>
    intro s hw hx hl
    have hone := putPage_shadow hops hcount hlast htwo hw hx (hl pf (.head _)) fuel
    have hputs := (putSpec fuel).page hw (hl pf (.head _))
    refine .bind (hone.and hputs) fun t ⟨ht, hst⟩ => ?_
    have hrest : ∀ q ∈ rest, OfObj t o q := fun q hq => (hl q (.tail _ hq)).upds hst
    obtain hgone | hu := ht
    · exact (respagesLoop_upds (putSpec fuel).page (hst.wf hw) hrest).imp fun u h =>
        .inl (gone h hgone)
    · have hxt : t.mmobj o = some x := (mmobj_other hu fun h => h).trans hx
      exact (ih (hst.wf hw) hxt hrest).imp fun u h => h.imp_right fun h => hu.trans h

end

/-! ## 4. The cases -/

section
variable {s : VmSys} {o : Nat} {x : Mmobj}

section
variable (h : Held s o x)
include h

theorem Held.pos : 0 < x.mmoRefcount := by
  have := h.count
  have := h.held
  omega

theorem Held.anon_or_shadow : x.mmoOps = .anon ∨ x.mmoOps = .shadow := by
  have := h.kind
  generalize x.mmoOps = ops at *
  cases ops with
  | anon => exact .inl rfl
  | shadow => exact .inr rfl
  | vnode => exact absurd rfl this

theorem Held.put_other (hne : x.mmoRefcount - 1 ≠ x.mmoNrespages) (fuel : Nat) :
    mmobjPut (fuel + 1) s o = .ok (s.dropRef o x) := by
  obtain hops | hops := h.anon_or_shadow
  · rw [mmobjPut_anon h.live hops h.pos, if_neg (by omega), ok_bind, theObj_eq_ok.mpr h.live,
      ok_bind, if_neg (by omega)]
  · rw [mmobjPut_shadow h.live hops h.pos, if_neg fun hlast => hne hlast.1]

theorem Held.put_empty_anon (hops : x.mmoOps = .anon) (hempty : x.mmoRespages = [])
    (hlast : x.mmoRefcount - 1 = x.mmoNrespages) (fuel : Nat) :
    ∃ t, mmobjPut (fuel + 1) s o = .ok t ∧ Released s t o x := by
  have hcount := h.count
  rw [hempty, length_nil] at hcount
  refine ⟨(s.dropRef o x).freeObj o, ?_, ?_⟩
  · rw [mmobjPut_anon h.live hops h.pos, if_pos (by omega), hempty, respagesLoop, ok_bind,
      theObj_eq_ok.mpr h.live, ok_bind, if_pos (by omega)]
    exact slabFree_eq (update_self ..)
  · refine ⟨update_self .., rfl, fun q hq => ?_, ?_, fun _ _ => rfl, ?_, ?_, fun pf f hf ho => ?_⟩
    · exact (update_of_ne hq ..).trans (update_of_ne hq ..)
    · rw [hempty]
      exact nofun
    · rw [hempty]
      exact .refl _
    · rw [hempty]
      exact .refl _
    · have hmem := h.listed pf f hf ho
      rw [hempty] at hmem
      cases hmem

/-- An anonymous object with pages stays, and they stay with it. -/
theorem Held.put_anon (hw : Wf s) (hops : x.mmoOps = .anon) (hne : x.mmoRespages ≠ [])
    (fuel : Nat) :
    Yields (mmobjPut fuel s o) fun t => t.mmobj o ≠ none := by
  have hcount := h.count
  have hpos := length_pos_iff.mpr hne
  have hanon : ∀ y, s.mmobj o = some y → y.mmoOps = .anon := fun y hy =>
    Option.some.inj (h.live.symm.trans hy) ▸ hops
  cases fuel with
  | zero => exact .error _
  | succ fuel =>
    rw [mmobjPut_anon h.live hops h.pos]
    refine .bind (Q := Upds (fun _ => False) false s) ?_ fun t ht => ?_
    · exact .ite (fun _ => respagesLoop_anon fuel hw hanon (hw.ofObj h.live)) fun _ => .ok .refl
    · rw [theObj_eq_ok.mpr ((mmobj_other ht fun h => h).trans h.live), ok_bind, if_neg (by omega)]
      refine .ok ?_
      rw [show (t.dropRef o x).mmobj o = some _ from update_self ..]
      nofun

end

/-- The page of frame `f` has been freed. -/
structure PageFreed (s t : VmSys) (pf : Nat) (f : Pframe) : Prop where
  frame : t.pframe = update s.pframe pf none
  obj : ∃ y, t.mmobj = update s.mmobj f.pfObj (some y)
  slab : t.mmobjSlab = s.mmobjSlab
  pframeSlab : t.pframeSlab = pf :: s.pframeSlab
  freePages : t.freePages = f.pfAddr :: s.freePages

section
variable (hw : Wf s) (hf : s.pframe pf = some f) (hdirty : f.pfDirty = true)
  (hx : s.mmobj f.pfObj = some x)
  (hops : x.mmoOps = .shadow) (hpos : 0 < x.mmoRefcount) (hres : x.mmoRespages = [pf])
  {vmas : List (Option Nat × Vm.Vmarea)} (hvmas : mmobjBottomVmas s f.pfObj = .ok vmas)
include hw hf hdirty hx hops hpos hres hvmas

/-- Cleaning the only page frees it, and the `put` that follows finds nothing to do. -/
theorem pframeClean_only (hpin : f.pfPincount = 0) (fuel : Nat) :
    ∃ t, pframeClean (fuel + 3) s pf = .ok t ∧ PageFreed s t pf f := by
  obtain ⟨l, hclean⟩ := pframeClean_shadow hw hf hpin hx hdirty hops (fuel + 2)
  have hu : Upds (fun _ => False) false s (s.relist l pf f.cleaned) := cleaned_upds hf l
  have hsame : mmobjBottomVmas (s.relist l pf f.cleaned)
      f.cleaned.pfObj = .ok vmas := (mmobjBottomVmas_congr fun _ => rfl).trans hvmas
  have hnone : x.mmoRespages.erase pf = [] := by
    rw [hres]
    exact erase_cons_head ..
  rw [hclean, hvmas, ok_bind, pframeFree_eq (hu.wf hw) (update_self ..) hpin hx rfl, hsame,
    ok_bind, mmobjPut_shadow (unlinkFrame_self _ pf f.cleaned x) hops hpos fuel,
    if_neg fun hlast => hlast.2 hnone]
  exact ⟨_, rfl, update_idem .., ⟨_, update_idem ..⟩, rfl, rfl, rfl⟩

/-- The loop body for the only page, if it is dirty. -/
theorem putPage_only (hbusy : f.pfBusy = false) (fuel : Nat) :
    ∃ t, putPage (fuel + 4) s pf = .ok t ∧ PageFreed s t pf f := by
  obtain ⟨l, hpage⟩ := putPage_eq hf hbusy (fuel + 3)
  have hu := unpinned_upds hf l
  have hsame : mmobjBottomVmas (s.relist l pf
      { f with pfPincount := 0 }) f.pfObj =
        .ok vmas := (mmobjBottomVmas_congr fun _ => rfl).trans hvmas
  obtain ⟨t, ht, hfreed⟩ := pframeClean_only (hu.wf hw)
    (update_self ..) hdirty hx hops hpos hres hsame rfl fuel
  rw [hpage, if_pos hdirty, ht]
  exact ⟨t, rfl, hfreed.frame.trans (update_idem ..), hfreed.obj, hfreed.slab, hfreed.pframeSlab,
    hfreed.freePages⟩

end

theorem putPage_spared (hw : Wf s) (hf : s.pframe pf = some f)
    (hbusy : f.pfBusy = false) (hx : s.mmobj f.pfObj = some x) (hops : x.mmoOps = .shadow)
    (hnot : f.pfDirty = true → ∀ vmas, mmobjBottomVmas s f.pfObj ≠ .ok vmas) (fuel : Nat) :
    Yields (putPage fuel s pf) (Upds (fun _ => False) false s) := by
  cases fuel with
  | zero => exact .error _
  | succ fuel =>
    obtain ⟨l, hpage⟩ := putPage_eq hf hbusy fuel
    have hu := unpinned_upds hf l
    rw [hpage]
    refine .ite (fun hdirty => ?_) fun _ => .ok hu
    cases fuel with
    | zero => exact .error _
    | succ fuel =>
      obtain ⟨l', hclean⟩ := pframeClean_shadow (hu.wf hw) (update_self ..) rfl hx hdirty hops fuel
      have hsame : mmobjBottomVmas (s.relist l pf { f with pfPincount := 0 }) f.pfObj =
        mmobjBottomVmas s f.pfObj :=
        mmobjBottomVmas_congr fun _ => rfl
      rw [hclean, hsame]
      exact .bind (Q := fun _ => False) (fun vmas h => hnot hdirty vmas h) fun _ h => h.elim

theorem slabFree_exact (t : VmSys) (o : Nat) :
    Yields (slabFree t o) fun u => t.mmobj o ≠ none ∧ u = t.freeObj o := by
  refine .bind (theObj_yields t o) fun y hy => .pure ⟨?_, rfl⟩
  rw [hy]
  nofun

/-- If the loop leaves the pages, they are not released. -/
theorem Held.not_released (h : Held s o x) (hw : Wf s) (hne : x.mmoRespages ≠ [])
    (ht : Upds (fun _ => False) false (s.dropRef o x) t) : ¬ Released s (t.freeObj o) o x := by
  intro hr
  obtain ⟨pf, hpf⟩ := exists_mem_of_ne_nil _ hne
  obtain ⟨k, a, hk⟩ := hw.res h.live hpf
  obtain ⟨f, hf, -⟩ := exists_of_ident (ident_kept ht (show (s.dropRef o x).ident pf = _ from hk))
  have hgone : t.pframe pf = none := hr.pages pf hpf
  rw [hgone] at hf
  cases hf

section
variable (h : Held s o x) (hw : Wf s) (hops : x.mmoOps = .shadow)
  (hlast : x.mmoRefcount - 1 = x.mmoNrespages)
include h hw hops hlast

/-- The last reference to a shadow object whose only page is dirty. -/
theorem Held.put_one (hres : x.mmoRespages = [pf]) (hf : s.pframe pf = some f)
    (hdirty : f.pfDirty = true)
    {vmas : List (Option Nat × Vm.Vmarea)} (hvmas : mmobjBottomVmas s o = .ok vmas) (fuel : Nat) :
    ∃ t, mmobjPut (fuel + 5) s o = .ok t ∧ Released s t o x := by
  have hmem : pf ∈ x.mmoRespages := hres ▸ .head _
  have hpos : 0 < x.mmoRefcount - 1 := by
    have := h.count
    rw [hres, length_singleton] at this
    omega
  obtain rfl : f.pfObj = o := (hw.ofObj h.live pf hmem).eq hf
  obtain ⟨t, hpage, hfreed⟩ := putPage_only (s := s.dropRef f.pfObj x)
    ((dropRef_upds hw h.live).wf hw) hf hdirty (update_self ..) hops hpos hres
    ((mmobjBottomVmas_dropRef h.live _).trans hvmas) (h.idle pf hmem f hf) fuel
  obtain ⟨y, hobj⟩ := hfreed.obj
  refine ⟨t.freeObj f.pfObj, ?_, ?_⟩
  · rw [mmobjPut_shadow h.live hops h.pos, if_pos ⟨hlast, ne_nil_of_mem hmem⟩, hres, respagesLoop,
      hpage, ok_bind, respagesLoop, ok_bind]
    exact slabFree_eq ((congrFun hobj f.pfObj).trans (update_self ..))
  · have hframe : (t.freeObj f.pfObj).pframe = update s.pframe pf none := hfreed.frame
    refine ⟨update_self .., congrArg _ hfreed.slab, fun q hq => ?_, ?_, ?_, ?_, ?_, ?_⟩
    · refine (update_of_ne hq ..).trans ?_
      rw [hobj, update_of_ne hq]
      exact update_of_ne hq ..
    · intro q hq
      rw [hres, mem_singleton] at hq
      rw [hframe, hq, update_self]
    · intro q hq
      rw [hres, mem_singleton] at hq
      rw [hframe, update_of_ne hq]
    · rw [hres]
      exact .of_eq hfreed.pframeSlab
    · rw [hres, filterMap_cons, hf]
      exact .of_eq hfreed.freePages
    · intro q g hg
      rw [hframe] at hg
      obtain ⟨-, hg⟩ | ⟨hq, hg⟩ := of_update hg
      · cases hg
      · intro ho
        have hq' := h.listed q g hg ho
        rw [hres, mem_singleton] at hq'
        exact hq hq'

/-- The last reference to any other shadow object. -/
theorem Held.put_shadow
    (hnot : ¬ ∃ pf f vmas, x.mmoRespages = [pf] ∧ s.pframe pf = some f ∧ f.pfDirty = true ∧
      mmobjBottomVmas s o = .ok vmas)
    (fuel : Nat) : Yields (mmobjPut fuel s o) fun t => ¬ Released s t o x := by
  cases fuel with
  | zero => exact .error _
  | succ fuel =>
    rw [mmobjPut_shadow h.live hops h.pos]
    refine .ite (fun ⟨_, hne⟩ => ?_) fun _ => .ok fun hr => ?_
    · refine .bind (Q := fun t => t.mmobj o = none ∨
        Upds (fun _ => False) false (s.dropRef o x) t) ?_
        fun t ht => (slabFree_exact t o).imp ?_
      · have hw' : Wf (s.dropRef o x) := (dropRef_upds hw h.live).wf hw
        have hof : ∀ pf ∈ x.mmoRespages, OfObj (s.dropRef o x) o pf := hw.ofObj h.live
        by_cases htwo : 2 ≤ x.mmoRespages.length
        · exact respagesLoop_shadow (x := { x with mmoRefcount := x.mmoRefcount - 1 }) hops h.count
            hlast htwo fuel hw' (update_self ..) hof
        · obtain ⟨pf, hres⟩ : ∃ pf, x.mmoRespages = [pf] :=
            length_eq_one_iff.mp (by have := length_pos_iff.mpr hne; omega)
          have hmem : pf ∈ x.mmoRespages := hres ▸ .head _
          obtain ⟨k, a, hk⟩ := hw.res h.live hmem
          obtain ⟨f, hf, -⟩ := exists_of_ident hk
          obtain rfl : f.pfObj = o := (hof pf hmem).eq hf
          rw [hres]
          refine .bind (putPage_spared hw' hf (h.idle pf hmem f hf) (update_self ..) hops ?_ fuel)
            fun t ht => .ok (.inr ht)
          intro hdirty vmas hvmas
          rw [mmobjBottomVmas_dropRef h.live] at hvmas
          exact hnot ⟨pf, f, vmas, hres, hf, hdirty, hvmas⟩
      · rintro u ⟨hlive, rfl⟩
        obtain hgone | hu := ht
        · exact absurd hgone hlive
        · exact h.not_released hw hne hu
    · have hgone := hr.gone
      rw [show (s.dropRef o x).mmobj o = some _ from update_self ..] at hgone
      cases hgone

end

end

/-! ## 5. The last release -/

/-- **The last release of a memory object.**  A `put` does what it has to exactly if other
references are left, or the object is anonymous and has no pages, or it is a shadow object whose
only page is dirty (and `mmobj_bottom_vmas` finds the areas of its bottom object). -/
theorem last_release {s : VmSys} {o : Nat} {x : Mmobj} (hw : Wf s) (h : Held s o x) :
    PutsRight s o x (mmobjPut (putFuel s) s o) ↔
      x.mmoRefcount - 1 ≠ x.mmoNrespages ∨ x.mmoOps = .anon ∧ x.mmoRespages = [] ∨
      x.mmoOps = .shadow ∧ ∃ pf f vmas, x.mmoRespages = [pf] ∧ s.pframe pf = some f ∧
        f.pfDirty = true ∧ mmobjBottomVmas s o = .ok vmas := by
  unfold PutsRight
  by_cases hlast : x.mmoRefcount - 1 = x.mmoNrespages
  · rw [if_pos hlast]
    constructor
    · rintro ⟨t, hput, hr⟩
      obtain hops | hops := h.anon_or_shadow
      · by_cases hempty : x.mmoRespages = []
        · exact .inr (.inl ⟨hops, hempty⟩)
        · exact absurd hr.gone (h.put_anon hw hops hempty _ t hput)
      · refine .inr (.inr ⟨hops, ?_⟩)
        by_contra hnot
        exact h.put_shadow hw hops hlast hnot _ t hput hr
    · rintro (hne | ⟨hops, hempty⟩ | ⟨hops, pf, f, vmas, hres, hf, hdirty, hvmas⟩)
      · exact absurd hlast hne
      · exact h.put_empty_anon hops hempty hlast _
      · exact h.put_one hw hops hlast hres hf hdirty hvmas _
  · rw [if_neg hlast]
    exact iff_of_true (h.put_other hlast _) (.inl hlast)

/-! ## 6. Two objects -/

/-- `Held`, for the frames that there are. -/
def heldTest (s : VmSys) (o : Nat) (x : Mmobj) : Bool :=
  x.mmoOps != .vnode && x.mmoNrespages == x.mmoRespages.length &&
    decide (x.mmoNrespages < x.mmoRefcount) &&
    (List.range s.npframe).all (fun pf => (s.pframe pf).all fun f =>
      f.pfObj != o || x.mmoRespages.contains pf) &&
    x.mmoRespages.all fun pf => (s.pframe pf).all fun f => !f.pfBusy

theorem held_of_test (hw : Wf s) {x : Mmobj} (hx : s.mmobj o = some x) (h : heldTest s o x = true) :
    Held s o x := by
  simp only [heldTest, and_eq_true, bne_iff_ne, beq_iff_eq, decide_eq_true_eq, all_eq_true,
    mem_range, Option.all_eq_true, Bool.or_eq_true, contains_eq_mem,
    not_eq_true'] at h
  obtain ⟨⟨⟨⟨hkind, hcount⟩, hheld⟩, hlisted⟩, hidle⟩ := h
  refine ⟨hx, hkind, hcount, hheld, fun pf f hf ho => ?_, fun pf hpf f hf => hidle pf hpf f hf⟩
  exact (hlisted pf (hw.frameLt (ident_of hf)) f hf).resolve_left fun hne => hne ho

/-- A shadow object with one page, which is dirty: the last put frees both. -/
theorem last_release_dirty_page : ∃ s x t, Wf s ∧ Held s 1 x ∧ x.mmoOps = .shadow ∧
    x.mmoRespages = [0] ∧ mmobjPut (putFuel s) s 1 = .ok t ∧ Released s t 1 x := by
  obtain ⟨s₀, hrun, htest⟩ : ∃ s₀, Lts.Run VmLegal vmStep (bootVm 8 8 4 2) s₀ ∧
      (vmStep s₀ (.fileDirty 1 0)).toOption.any fun s => (∃ x ∈ s.mmobj 1, heldTest s 1 x ∧
        x.mmoOps = .shadow ∧ x.mmoRefcount - 1 = x.mmoNrespages ∧ x.mmoRespages = [0]) ∧
        (∃ f ∈ s.pframe 0, f.pfDirty = true) ∧ (mmobjBottomVmas s 1).toOption.any fun _ => true :=
    Lts.exists_run [.spawn 1, .map 1 (.onePage 0x400 3 mapPrivate),
      .fault 1 0x400 4 (fun _ => 0) true, .unmap 1 0x400 1 ⟨none, fun _ => 0⟩] (by decide +kernel)
  obtain ⟨s, hs, htest⟩ := ok_of_any htest
  obtain ⟨⟨x, hx, hheld, hops, hlast, hres⟩, ⟨f, hf, hdirty⟩, hvmas⟩ := of_decide_eq_true htest
  have hw : Wf s := (fileDirty_upds 1 0 s hs : Upds (fun _ => True) true s₀ s).wf
    (wf_of_run (bootVm_wf 8 8 4 2) (fun _ _ h => h) hrun)
  have h := held_of_test hw hx hheld
  obtain ⟨vmas, hvmas, -⟩ := ok_of_any hvmas
  have hright := (last_release hw h).mpr (.inr (.inr ⟨hops, 0, f, vmas, hres, hf, hdirty, hvmas⟩))
  rw [PutsRight, if_pos hlast] at hright
  obtain ⟨t, hput, hr⟩ := hright
  exact ⟨s, x, t, hw, h, hops, hres, hput, hr⟩

/-- A child gets one page of its private area and gives up the only reference to the shadow object:
the object is free, and the page's frame is still there and points to it. -/
theorem page_outlives_object : ∃ s x t f, Lts.Run VmLegal vmStep (bootVm 8 8 4 2) s ∧ Held s 2 x ∧
    x.mmoRefcount - 1 = x.mmoNrespages ∧ mmobjPut (putFuel s) s 2 = .ok t ∧ t.mmobj 2 = none ∧
    t.pframe 0 = some f ∧ f.pfObj = 2 ∧ ¬ PutsRight s 2 x (mmobjPut (putFuel s) s 2) := by
  obtain ⟨s, hrun, ⟨x, hx, hheld, hres⟩, hput⟩ : ∃ s, Lts.Run VmLegal vmStep (bootVm 8 8 4 2) s ∧
      (∃ x ∈ s.mmobj 2, heldTest s 2 x ∧ x.mmoRefcount - 1 = x.mmoNrespages) ∧
        (mmobjPut (putFuel s) s 2).toOption.any fun t => t.mmobj 2 = none ∧ ∃ f ∈ t.pframe 0,
          f.pfObj = 2 :=
    Lts.exists_run [.spawn 1, .map 1 (.onePage 0x400 3 mapPrivate), .fork 1 2 (fun _ => 0),
      .fault 2 0x400 4 (fun _ => 0) true] (by decide +kernel)
  have hw := wf_of_run (bootVm_wf 8 8 4 2) (fun _ _ h => h) hrun
  obtain ⟨t, ht, hgone⟩ := ok_of_any hput
  obtain ⟨hgone, f, hf, ho⟩ := of_decide_eq_true hgone
  refine ⟨s, x, t, f, hrun, held_of_test hw hx hheld, hres, ht, hgone, hf, ho, ?_⟩
  rw [PutsRight, if_pos hres, ht]
  rintro ⟨u, hu, hr⟩
  cases hu
  exact hr.dangling 0 f hf ho

end Weenix.Pageout
