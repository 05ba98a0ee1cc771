/-
# The functions of the object layer are updates

One lemma for each function of `Pageout/Objects.lean`: from a well-formed state, what it returns is
reached by updates.  The five functions that call each other while pages are given back are done
together (`PutSpec`), by induction on the nesting.
-/
import Weenix.Pageout.Updates

namespace Weenix.Pageout

open Option VmSys Upds

open Relation (ReflTransGen)

variable {new : Bool} {x : Mmobj} {o pf : Nat} {P : Nat → Prop} {f : Pframe} {s t u : VmSys}

/-! ## 1. Looking things up -/

theorem theObj_yields (s : VmSys) (o : Nat) : Yields (s.theObj o) fun x => s.mmobj o = some x :=
  fun _ h => theObj_eq_ok.mp h

theorem theFrame_yields (s : VmSys) (pf : Nat) :
    Yields (s.theFrame pf) fun f => s.pframe pf = some f :=
  fun _ h => theFrame_eq_ok.mp h

theorem theProc_yields (s : VmSys) (p : Nat) : Yields (s.theProc p) fun x => s.proc p = some x :=
  fun _ h => theProc_eq_ok.mp h

theorem theProc_bind {α : Type} {s : VmSys} {p : Nat} {x : Proc} {f : Proc → Except Halt α}
    {Q : α → Prop}
    (hx : s.proc p = some x) (h : Yields (f x) Q) : Yields (s.theProc p >>= f) Q := by
  rw [theProc_eq_ok.mpr hx, ok_bind]
  exact h

/-- The state differs in the order of `alloc_list` at most. -/
def Requeued (s t : VmSys) : Prop := ∃ l, t = { s with allocList := l }

theorem Requeued.refl (s : VmSys) : Requeued s s := ⟨s.allocList, rfl⟩

theorem Requeued.trans (h : Requeued s t) (h' : Requeued t u) : Requeued s u := by
  obtain ⟨l, rfl⟩ := h
  obtain ⟨l', rfl⟩ := h'
  exact ⟨l', rfl⟩

theorem Requeued.upds (h : Requeued s t) (P : Nat → Prop) (new : Bool) : Upds P new s t := by
  obtain ⟨l, rfl⟩ := h
  exact .single (.requeue l)

theorem pframeGetResident_yields (s : VmSys) (o k : Nat) :
    Yields (pframeGetResident s o k) fun r => Requeued s r.1 ∧ r.2 = s.pframeHash o k := by
  unfold pframeGetResident
  split
  case h_1 hnone => exact .ok ⟨.refl s, hnone.symm⟩
  case h_2 pf hpf =>
    refine .bind (theFrame_yields s pf) fun f hf => .pure ⟨?_, hpf.symm⟩
    split
    · exact ⟨_, rfl⟩
    · exact .refl s

theorem shadowWalk_yields (k : Nat) : ∀ (fuel : Nat) (s : VmSys) (o temp : Option Nat),
    Yields (shadowWalk k fuel s o temp) fun r => Requeued s r.1 := by
  intro fuel
  induction fuel with
  | zero =>
    intro s o temp
    cases o with
    | none => exact .ok (.refl s)
    | some o => exact .error _
  | succ fuel ih =>
    intro s o temp
    cases o with
    | none => exact .ok (.refl s)
    | some o =>
      refine .bind (pframeGetResident_yields s o k) fun r hr => ?_
      obtain ⟨t, found⟩ := r
      cases found with
      | some src => exact .pure hr.1
      | none => exact .seq fun x => (ih t _ _).imp fun r h => hr.1.trans h

/-! ## 2. Counts and flags -/

/-- First some updates, then a function that makes more. -/
theorem Upds.andThen {x : Except Halt VmSys}
    (h : Upds P new s t) (hx : Yields x (Upds P new t)) : Yields x (Upds P new s) :=
  hx.imp fun _ h' => h.trans h'

section
variable {P : Nat → Prop} {new : Bool} {s : VmSys} {o pf : Nat}

theorem slabFree_upds (hp : P o) : Yields (slabFree s o) (Upds P new s) :=
  .bind (theObj_yields s o) fun _ hx => .pure (.single (.dropObj hp hx))

theorem setObj_upds {x' : Mmobj} (hw : Wf s) (hp : P o) (hx : s.mmobj o = some x)
    (hops : x'.mmoOps = x.mmoOps) (hres : x'.mmoRespages = x.mmoRespages)
    (hun : x'.mmoUn = x.mmoUn) : Upds P new s (s.setObj o x') :=
  .single (.obj hp hx hops hres fun _ hl => hw.vmas hx (hun.symm.trans hl))

theorem pframePin_upds : Yields (pframePin s pf) (Upds P new s) := by
  refine .bind (theFrame_yields s pf) fun f hf => .pure ?_
  split
  · exact (ReflTransGen.single (.requeue _)).tail (.flags hf rfl id)
  · exact .single (.flags hf rfl id)

theorem pframeUnpin_upds : Yields (pframeUnpin s pf) (Upds P new s) := by
  refine .bind (theFrame_yields s pf) fun f hf => .seq fun _ => .pure ?_
  have hflags : Upds P new s (s.setFrame pf { f with pfPincount := f.pfPincount - 1 }) :=
    .single (.flags hf rfl id)
  split
  · exact hflags.tail (.requeue _)
  · exact hflags

theorem unpinLoop_upds : ∀ (n : Nat) (t : VmSys), Yields (unpinLoop n t pf) (Upds P new t)
  | 0, _ => .ok .refl
  | n + 1, _ => .bind pframeUnpin_upds fun u hu => (unpinLoop_upds n u).imp fun _ h => hu.trans h

end

/-! ## 3. `pframe_remove_from_pts` removes nothing -/

theorem mmobjBottomVmas_yields (hw : Wf s) (o : Nat) :
    Yields (mmobjBottomVmas s o) fun vmas => vmas = [] := by
  refine .bind (theObj_yields s o) fun x hx => ?_
  split
  case h_1 vmas _ hun => exact .pure (hw.vmas hx hun)
  case h_2 bottom _ _ =>
    refine .bind (theObj_yields s bottom) fun y hy => ?_
    split
    case h_1 vmas hun => exact .pure (hw.vmas hy hun)
    case h_2 => exact .error _
  case h_3 => exact .error _

/-- **No entry of any page table goes away with its page.** -/
theorem pframeRemoveFromPts_yields (hw : Wf s) (pf : Nat) :
    Yields (pframeRemoveFromPts s pf) fun t => t = s := by
  refine .seq fun f => .bind (mmobjBottomVmas_yields hw f.pfObj) ?_
  rintro vmas rfl
  exact .ok rfl

/-- Nothing is mapped that `pframe_remove_from_pts` knows of; it may still follow a bad pointer. -/
theorem pframeRemoveFromPts_eq (hw : Wf s) (hf : s.pframe pf = some f) :
    pframeRemoveFromPts s pf = (mmobjBottomVmas s f.pfObj).map fun _ => s := by
  rw [pframeRemoveFromPts, theFrame_eq_ok.mpr hf, ok_bind]
  cases h : mmobjBottomVmas s f.pfObj with
  | error e => rfl
  | ok vmas =>
    rw [mmobjBottomVmas_yields hw _ _ h]
    rfl

theorem mmobjBottomVmas_congr (h : ∀ q, (t.mmobj q).map (fun y => (y.mmoShadowed, y.mmoUn))
      = (s.mmobj q).map fun y => (y.mmoShadowed, y.mmoUn)) :
    mmobjBottomVmas t o = mmobjBottomVmas s o := by
  have hobj : ∀ q (k k' : Mmobj → Except Halt (List (Option Nat × Vm.Vmarea))),
      (∀ y y', y.mmoShadowed = y'.mmoShadowed → y.mmoUn = y'.mmoUn → k y = k' y') →
      t.theObj q >>= k = s.theObj q >>= k' := by
    intro q k k' hk
    have hq := h q
    rw [theObj, theObj]
    cases ht : t.mmobj q with
    | none =>
      rw [ht, map_none, eq_comm, map_eq_none_iff] at hq
      rw [hq]
      rfl
    | some y =>
      rw [ht, map_some, eq_comm, map_eq_some_iff] at hq
      obtain ⟨y', hy', hsame⟩ := hq
      rw [hy']
      exact hk y y' (congrArg Prod.fst hsame.symm) (congrArg Prod.snd hsame.symm)
  refine hobj o _ _ fun y y' hsh hun => ?_
  rw [hsh, hun]
  split
  · rfl
  · exact hobj _ _ _ fun z z' _ hun => by rw [hun]
  · rfl

/-! ## 4. Giving pages back -/

/-- If the frame is there, it is one of `o`. -/
def OfObj (s : VmSys) (o pf : Nat) : Prop := ∀ i, s.ident pf = some i → i.1 = o

theorem OfObj.eq (h : OfObj s o pf) (hf : s.pframe pf = some f) : f.pfObj = o := h _ (ident_of hf)

theorem OfObj.upds (h : OfObj s o pf) (hst : Upds P false s t) :
    OfObj t o pf := fun _ hi => h _ (hst.ident_old hi)

/-- Dropping references to `o`, and what follows from that. -/
abbrev Puts (o : Nat) : VmSys → VmSys → Prop := Upds (· = o) false

theorem respagesLoop_upds {one : VmSys → Nat → Except Halt VmSys}
    (hone : ∀ {t pf}, Wf t → OfObj t o pf → Yields (one t pf) (Puts o t)) :
    ∀ {l : List Nat} {s : VmSys}, Wf s → (∀ pf ∈ l, OfObj s o pf) →
      Yields (respagesLoop one l s) (Puts o s) := by
  intro l
  induction l with
  | nil => exact fun _ _ => .ok .refl
  | cons pf rest ih =>
    intro s hw hl
    refine .bind (hone hw (hl pf (.head _))) fun t ht => ?_
    exact andThen ht (ih (ht.wf hw) fun q hq => (hl q (.tail _ hq)).upds ht)

/-- The functions that give pages back, at one nesting depth. -/
structure PutSpec (fuel : Nat) : Prop where
  free : ∀ {s pf o}, Wf s → OfObj s o pf → Yields (pframeFree fuel s pf) (Puts o s)
  put : ∀ {s o}, Wf s → Yields (mmobjPut fuel s o) (Puts o s)
  page : ∀ {s pf o}, Wf s → OfObj s o pf → Yields (putPage fuel s pf) (Puts o s)
  vpage : ∀ {s pf o}, Wf s → OfObj s o pf → Yields (vputPage fuel s pf) (Puts o s)
  clean : ∀ {s pf o}, Wf s → OfObj s o pf → Yields (pframeClean fuel s pf) (Puts o s)

section
variable {fuel : Nat} {s : VmSys} {o pf : Nat}

theorem PutSpec.zero : PutSpec 0 where
  free _ _ := .error _
  put _ := .error _
  page _ _ := .error _
  vpage _ _ := .error _
  clean _ _ := .error _

theorem Wf.ofObj (hw : Wf s) (hx : s.mmobj o = some x) : ∀ q ∈ x.mmoRespages, OfObj s o q := by
  intro q hq i hi
  obtain ⟨k, a, hk⟩ := hw.res hx hq
  rw [hk] at hi
  cases hi
  rfl

theorem dropRef_upds (hw : Wf s) (hx : s.mmobj o = some x) :
    Puts o s (s.setObj o { x with mmoRefcount := x.mmoRefcount - 1 }) :=
  setObj_upds hw rfl hx rfl rfl rfl

theorem mmobjPut_succ (ih : PutSpec fuel) (hw : Wf s) :
    Yields (mmobjPut (fuel + 1) s o) (Puts o s) := by
  rw [mmobjPut]
  refine .bind (theObj_yields s o) fun x hx => ?_
  split
  case h_1 =>
    refine .seq fun _ => .bind (Q := Puts o s) ?_ fun t ht => ?_
    · exact .ite (fun _ => respagesLoop_upds ih.page hw (hw.ofObj hx)) fun _ => .ok .refl
    · refine .bind (theObj_yields t o) fun y hy => ?_
      have hcount := ht.trans (dropRef_upds (ht.wf hw) hy)
      exact .ite (fun _ => andThen hcount (slabFree_upds rfl)) fun _ => .pure hcount
  case h_2 =>
    have hcount := dropRef_upds hw hx
    refine .seq fun _ => .ite (fun _ => .bind (Q := Puts o s) ?_ fun t ht => ?_) fun _ =>
      .pure hcount
    · exact andThen hcount (respagesLoop_upds ih.page (hcount.wf hw) fun q hq =>
        (hw.ofObj hx q hq).upds hcount)
    · exact andThen ht (slabFree_upds rfl)
  case h_3 =>
    refine .seq fun _ => .seq fun _ => .bind (Q := Puts o s) ?_ fun t ht => ?_
    · refine .ite (fun _ => ?_) fun _ => .ok .refl
      refine .bind (respagesLoop_upds ih.vpage hw (hw.ofObj hx)) fun t ht => ?_
      exact .seq fun _ => .seq fun _ => .seq fun _ => .pure ht
    · refine .bind (theObj_yields t o) fun y hy => ?_
      have hcount := ht.trans (dropRef_upds (ht.wf hw) hy)
      refine .ite (fun _ => .pure hcount) fun _ => .seq fun _ => .seq fun _ => ?_
      exact andThen hcount (slabFree_upds rfl)

section
variable (ih : PutSpec fuel) (hw : Wf s) (hof : OfObj s o pf)
include ih hw hof

theorem pframeFree_succ : Yields (pframeFree (fuel + 1) s pf) (Puts o s) := by
  rw [pframeFree]
  refine .bind (theFrame_yields s pf) fun f hf => .seq fun _ => .seq fun _ => ?_
  refine .bind (pframeRemoveFromPts_yields hw pf) ?_
  rintro _ rfl
  refine .bind (theObj_yields _ _) fun x hx => ?_
  obtain rfl := hof.eq hf
  have hu : Puts f.pfObj _ _ := .single (.unlink rfl hf hx)
  exact andThen hu (ih.put (hu.wf hw))

theorem putPage_succ : Yields (putPage (fuel + 1) s pf) (Puts o s) := by
  rw [putPage]
  refine .seq fun f => .bind (Q := Puts o s) (unpinLoop_upds f.pfPincount s) fun t ht => ?_
  refine .ite (fun _ => .error _) fun _ => .ite (fun _ => ?_) fun _ => .pure ht
  exact andThen ht (ih.clean (ht.wf hw) (hof.upds ht))

theorem vputPage_succ : Yields (vputPage (fuel + 1) s pf) (Puts o s) := by
  rw [vputPage]
  exact .seq fun f => .ite (fun _ => .error _) fun _ => ih.free hw hof

end

@[simp] theorem setFrame_setFrame (s : VmSys) (pf : Nat) (f g : Pframe) :
    (s.setFrame pf f).setFrame pf g = s.setFrame pf g := by
  simp only [setFrame, update_idem]

def Pframe.cleaned (f : Pframe) : Pframe := { f with pfDirty := false, pfBusy := false }

def Pframe.cleaning (f : Pframe) : Pframe := { f with pfDirty := false, pfBusy := true }

/-- The list of allocated frames changes, and one of the frames. -/
abbrev VmSys.relist (s : VmSys) (l : List Nat) (pf : Nat) (f : Pframe) : VmSys :=
  VmSys.setFrame { s with allocList := l } pf f

theorem cleaned_upds (hf : s.pframe pf = some f) (l : List Nat) :
    Upds P new s (s.relist l pf f.cleaned) :=
  (ReflTransGen.single (.requeue l)).tail (.flags hf rfl nofun)

theorem cleaning_cleaned (s : VmSys) (pf : Nat) (f : Pframe) (l : List Nat) :
    VmSys.setPage (VmSys.setFrame { s.setFrame pf f.cleaning with allocList := l } pf f.cleaned)
      f.pfAddr (s.page f.pfAddr) = s.relist l pf f.cleaned := by
  simp only [setFrame, setPage, update_idem, update_eq_self]

/-- Cleaning a dirty page.  One of a shadow object is freed. -/
theorem pframeClean_eq (hw : Wf s) (hf : s.pframe pf = some f) (hdirty : f.pfDirty = true)
    (hpin : f.pfPincount = 0) (hx : s.mmobj f.pfObj = some x) :
    pframeClean (fuel + 1) s pf = mmobjBottomVmas s f.pfObj >>= fun _ => match x.mmoOps with
      | .vnode => .ok (s.setFrame pf f.cleaned)
      | .anon => .ok (s.relist (s.allocList.erase pf ++ [pf]) pf f.cleaned)
      | .shadow => pframeFree fuel
          (s.relist (s.allocList.erase pf ++ [pf]) pf f.cleaned) pf := by
  have hunpinned : (f.pfPincount == 0) = true := beq_iff_eq.mpr hpin
  have hw' : ∀ f', f'.ident = f.ident → Wf (s.setFrame pf f') := fun f' hid =>
    hw.congr (ident_setFrame hf hid) rfl rfl rfl rfl rfl rfl rfl
  have hself : ∀ f', (s.setFrame pf f').pframe pf = some f' := fun f' => update_self ..
  have hremove := pframeRemoveFromPts_eq (hw' { f with pfDirty := false } rfl) (hself _)
  rw [pframeClean, theFrame_eq_ok.mpr hf, ok_bind, kassert_of hdirty, ok_bind, kassert_of hunpinned,
    ok_bind, hremove]
  have hsame : mmobjBottomVmas (s.setFrame pf { f with pfDirty := false }) f.pfObj
      = mmobjBottomVmas s f.pfObj := mmobjBottomVmas_congr fun _ => rfl
  rw [hsame]
  cases hvmas : mmobjBottomVmas s f.pfObj with
  | error e => rfl
  | ok vmas =>
    rw [ok_bind]
    have hobj : (s.setFrame pf { f with pfDirty := false }).theObj f.pfObj = .ok x :=
      theObj_eq_ok.mpr hx
    have hframe : ∀ l, ({ s.setFrame pf f.cleaning with allocList := l } : VmSys).theFrame pf
        = .ok f.cleaning := fun l => theFrame_eq_ok.mpr (hself f.cleaning)
    have hcleaning : (s.setFrame pf { f with pfDirty := false }).setFrame pf
        { f with pfDirty := false, pfBusy := true } = s.setFrame pf f.cleaning :=
          setFrame_setFrame ..
    have hfound : pframeGetResident (s.setFrame pf f.cleaning) f.pfObj f.pfPagenum = .ok
        ({ s.setFrame pf f.cleaning with allocList := s.allocList.erase pf ++ [pf] }, some pf) := by
      rw [pframeGetResident,
        show (s.setFrame pf f.cleaning).pframeHash _ _ = _ from hw.home (ident_of hf)]
      change ((s.setFrame pf f.cleaning).theFrame pf >>= _) = _
      rw [theFrame_eq_ok.mpr (hself f.cleaning), ok_bind]
      exact congrArg Except.ok (congrArg (·, some pf) (if_pos hpin))
    change ((s.setFrame pf { f with pfDirty := false }).theObj f.pfObj >>= _) = _
    rw [hobj, ok_bind]
    dsimp only
    rw [hcleaning]
    cases x.mmoOps with
    | vnode => exact congrArg Except.ok (setFrame_setFrame ..)
    | anon =>
      rw [hfound, ok_bind]
      dsimp only
      rw [hframe, ok_bind]
      exact congrArg Except.ok (cleaning_cleaned ..)
    | shadow =>
      have hunpin : ∀ t, unpinLoop f.cleaning.pfPincount t pf = .ok t := fun t => by
        rw [show f.cleaning.pfPincount = 0 from hpin]
        rfl
      -- the walk starts at the object itself, which has the page
      rw [shadowWalk, hfound, ok_bind]
      change (theFrame _ pf >>= _) = _
      rw [hframe, ok_bind, hunpin, ok_bind]
      exact congrArg (pframeFree fuel · pf) (cleaning_cleaned ..)

/-- Cleaning a page leaves its frame with other flags, or frees it: the copy of an anonymous or a
private page goes to that page itself.  Only a private page is freed. -/
theorem pframeClean_upds (ih : PutSpec fuel) (hw : Wf s) (hof : OfObj s o pf)
    (hp : ∀ x, s.mmobj o = some x → x.mmoOps = .shadow → P o) :
    Yields (pframeClean (fuel + 1) s pf) (Upds P false s) := by
  intro t ht
  obtain ⟨f, hf, hdirty, hpin, x, hx⟩ :
    ∃ f, s.pframe pf = some f ∧ f.pfDirty = true ∧ f.pfPincount = 0 ∧
      ∃ x, s.mmobj f.pfObj = some x := by
    rw [pframeClean] at ht
    obtain ⟨f, hf, ht⟩ := bind_eq_ok ht
    have hf := theFrame_eq_ok.mp hf
    obtain ⟨_, hdirty, ht⟩ := bind_eq_ok ht
    obtain ⟨_, hpin, ht⟩ := bind_eq_ok ht
    obtain ⟨u, hu, ht⟩ := bind_eq_ok ht
    have hflags : Upds P false s (s.setFrame pf { f with pfDirty := false }) :=
      .single (.flags hf rfl id)
    obtain rfl := pframeRemoveFromPts_yields (hflags.wf hw) pf u hu
    obtain ⟨x, hx, -⟩ := bind_eq_ok ht
    exact ⟨f, hf, kassert_eq_ok hdirty, beq_iff_eq.mp (kassert_eq_ok hpin), x, theObj_eq_ok.mp hx⟩
  rw [pframeClean_eq hw hf hdirty hpin hx] at ht
  obtain ⟨-, -, ht⟩ := bind_eq_ok ht
  cases hops : x.mmoOps with
  | vnode =>
    rw [hops] at ht
    cases ht
    exact cleaned_upds hf s.allocList
  | anon =>
    rw [hops] at ht
    cases ht
    exact cleaned_upds hf _
  | shadow =>
    rw [hops] at ht
    have hu : Upds P false s _ := cleaned_upds hf (s.allocList.erase pf ++ [pf])
    have hpo : P o := hp x (hof.eq hf ▸ hx) hops
    exact hu.trans (mono (ih.free (hu.wf hw) (hof.upds hu) t ht) (fun _ heq => heq ▸ hpo) id)

theorem PutSpec.succ (ih : PutSpec fuel) : PutSpec (fuel + 1) where
  free := pframeFree_succ ih
  put := mmobjPut_succ ih
  page := putPage_succ ih
  vpage := vputPage_succ ih
  clean hw hof := pframeClean_upds ih hw hof fun _ _ _ => rfl

end

theorem putSpec : ∀ fuel, PutSpec fuel
  | 0 => .zero
  | fuel + 1 => (putSpec fuel).succ

/-! ## 5. `pframe_get` -/

/-- What `pframe_get` does for page `k` of `o`.  Frames that were there stay as they are; one that
it returns holds the page and is not busy. -/
structure Got (s : VmSys) (o k : Nat) (r : VmSys × Option Nat) : Prop where
  upds : Upds (fun _ => False) true s r.1
  old : ∀ {q f}, s.pframe q = some f → r.1.pframe q = some f
  page : ∀ {pf}, r.2 = some pf → ∃ f, r.1.pframe pf = some f ∧ f.pfObj = o ∧ f.pfPagenum = k ∧
    f.pfBusy = false

/-- A frame for the page has been entered since `s`, and is still busy. -/
structure Entered (s t : VmSys) (o k pf : Nat) : Prop where
  upds : Upds (fun _ => False) true s t
  old : ∀ {q f}, s.pframe q = some f → t.pframe q = some f
  none : s.pframe pf = none
  new : ∃ f, t.pframe pf = some f ∧ f.pfObj = o ∧ f.pfPagenum = k ∧ f.pfBusy = true

section
variable {s t : VmSys} {o k pf : Nat}

theorem Entered.requeued (h : Entered s t o k pf) (hq : Requeued t u) : Entered s u o k pf := by
  have hu := h.upds.trans (hq.upds _ _)
  obtain ⟨l, rfl⟩ := hq
  exact ⟨hu, h.old, h.none, h.new⟩

theorem Entered.got (h : Entered s t o k pf) {o' k' : Nat} {r : VmSys × Option Nat}
    (hg : Got t o' k' r) : Entered s r.1 o k pf := by
  obtain ⟨f, hf, hrest⟩ := h.new
  exact ⟨h.upds.trans hg.upds, fun hq => hg.old (h.old hq), h.none, f, hg.old hf, hrest⟩

/-- A frame that was not there before changes its flags. -/
theorem Got.of_new {g : Pframe} (hu : Upds (fun _ => False) true s u)
    (hold : ∀ {q f}, s.pframe q = some f → t.pframe q = some f) (hnone : s.pframe pf = none)
    (hpf : u.pframe = update t.pframe pf (some g)) (ho : g.pfObj = o)
    (hk : g.pfPagenum = k) (hbusy : g.pfBusy = false) : Got s o k (u, some pf) where
  upds := hu
  old := by
    intro q f hq
    have hne : q ≠ pf := by
      rintro rfl
      rw [hnone] at hq
      cases hq
    rw [hpf, update_of_ne hne]
    exact hold hq
  page := by
    rintro _ ⟨⟩
    exact ⟨g, by rw [hpf, update_self], ho, hk, hbusy⟩

theorem Entered.filled (h : Entered s t o k pf) (data : Nat → UInt8) :
    Yields (filled t pf data) fun u => Got s o k (u, some pf) := by
  obtain ⟨f, hf, ho, hk, hbusy⟩ := h.new
  refine .bind (theFrame_yields t pf) fun g hg =>
    .bind (theFrame_yields _ pf) fun g' hg' => .pure ?_
  obtain rfl : f = g := some.inj (hf.symm.trans hg)
  obtain rfl : f = g' := some.inj (hf.symm.trans hg')
  have hfill : Upds (fun _ => False) true s (t.setPage f.pfAddr data) :=
    h.upds.tail (.fill hf hbusy data)
  exact Got.of_new (hfill.tail (.flags hf rfl nofun)) h.old h.none rfl ho hk rfl

theorem Got.pin (h : Got s o k (t, some pf)) (hnone : s.pframe pf = none) :
    Yields (pframePin t pf) fun u => Got s o k (u, some pf) := by
  obtain ⟨f, hf, ho, hk, hbusy⟩ := h.page rfl
  refine fun u hu => ?_
  have hup : Upds (fun _ => False) true t u := pframePin_upds u hu
  obtain ⟨g, hg, hu⟩ := bind_eq_ok hu
  obtain rfl : f = g := some.inj (hf.symm.trans (theFrame_eq_ok.mp hg))
  cases hu
  refine Got.of_new (h.upds.trans hup) (fun hq => h.old hq) hnone
    (g := { f with pfPincount := f.pfPincount + 1 }) ?_ ho hk hbusy
  split <;> rfl

/-- `pframe_alloc`, with the busy bit that `pframe_fill` sets first. -/
theorem pframeAlloc_yields (hw : Wf s) (hhash : s.pframeHash o k = none) :
    Yields (pframeAlloc s o k) fun r => Yields (setBusy r.1 r.2 true) fun u =>
      Entered s u o k r.2 := by
  unfold pframeAlloc
  split
  case h_2 => exact .error _
  case h_1 pf slab a free hslab hfree =>
    refine fun r hr => ?_
    obtain ⟨t, ht, hr⟩ := bind_eq_ok hr
    obtain ⟨x, hx, ht⟩ := bind_eq_ok ht
    obtain ⟨-, -, ht⟩ := bind_eq_ok ht
    cases ht
    obtain ⟨y, hy, hr⟩ := bind_eq_ok hr
    cases hr
    have hx : s.mmobj o = some x := theObj_eq_ok.mp hx
    have hy := theObj_eq_ok.mp hy
    rw [setObj_mmobj, update_self] at hy
    cases hy
    refine .bind (theFrame_yields _ pf) fun f hf => .pure ?_
    obtain rfl : f = ⟨o, k, a, false, false, 0⟩ := by simpa [setObj] using hf.symm
    have hnone : s.pframe pf = none := by
      simpa [ident] using (hw.frameSlab pf (hslab ▸ .head _)).2
    have hu : Upds (fun _ => False) true s (enterFrame s o k pf a slab free x) :=
      .single (.enter rfl hhash hslab hfree hx)
    have hent : Entered s (enterFrame s o k pf a slab free x) o k pf := by
      refine ⟨hu, fun {q f} hq => ?_, hnone, newFrame o k a, update_self .., rfl, rfl, rfl⟩
      have hne : q ≠ pf := by
        rintro rfl
        rw [hnone] at hq
        cases hq
      rwa [enterFrame_pframe, update_of_ne hne]
    convert hent using 1
    simp only [setObj, setFrame, update_idem, enterFrame, newFrame]

/-- Filling a new frame, with whatever pages have to be gotten for it. -/
theorem pframeFill_got {get : VmSys → Nat → Nat → Except Halt (VmSys × Option Nat)} (hw : Wf s)
    (hget : ∀ {u} o' k', Wf u → Yields (get u o' k') (Got u o' k')) (disk : Nat → UInt8)
    (h : Yields (setBusy t pf true) fun u => Entered s u o k pf) :
    Yields (pframeFill get disk t o k pf) (Got s o k) := by
  refine .bind h fun u hu => .seq fun x => ?_
  cases x.mmoOps with
  | anon =>
    refine .bind (pframeGetResident_yields u o k) fun r hr => ?_
    refine .bind ((hu.requeued hr.1).filled _) fun v hv => ?_
    exact .bind (hv.pin hu.none) fun w hw => .pure hw
  | vnode => exact .bind (hu.filled disk) fun v hv => .pure hv
  | shadow =>
    refine .bind (shadowWalk_yields k _ u _ _) fun r hr => ?_
    obtain ⟨v, src, temp⟩ := r
    have hv := hu.requeued hr
    cases src with
    | some src => exact .seq fun g => .bind (hv.filled _) fun w hw => .pure hw
    | none =>
      cases temp with
      | none => exact .error _
      | some temp =>
        refine .bind (hget temp k (hv.upds.wf hw)) fun r hr => ?_
        obtain ⟨w, found⟩ := r
        cases found with
        | none => exact .pure ⟨hv.upds.trans hr.upds, fun hq => hr.old (hv.old hq), nofun⟩
        | some src => exact .seq fun g => .bind ((hv.got hr).filled _) fun z hz => .pure hz

end

/-- **`pframe_get` adds pages, and no more.**  The induction is on the nesting: the bottom of a
chain is asked for the page when no object on it has one. -/
theorem pframeGet_got (disk : Nat → UInt8) : ∀ (fuel : Nat) {s : VmSys} (o k : Nat), Wf s →
    Yields (pframeGet disk fuel s o k) (Got s o k) := by
  intro fuel
  induction fuel with
  | zero => exact fun _ _ _ => .error _
  | succ fuel ih =>
    intro s o k hw
    refine .bind (pframeGetResident_yields s o k) fun r hr => ?_
    obtain ⟨t, found⟩ := r
    obtain ⟨hq, rfl⟩ : Requeued s t ∧ found = s.pframeHash o k := hr
    have hup := hq.upds (fun _ => False) true
    have hold : ∀ {q f}, s.pframe q = some f → t.pframe q = some f := by
      obtain ⟨l, rfl⟩ := hq
      exact fun h => h
    cases hhash : s.pframeHash o k with
    | some pf =>
      refine .bind (theFrame_yields t pf) fun f hf => .pure ⟨hup, hold, ?_⟩
      intro q hres
      split at hres
      case isTrue => cases hres
      case isFalse hbusy =>
        cases hres
        obtain ⟨a, ha⟩ := hw.hash hhash
        obtain ⟨g, hg, hid⟩ := exists_of_ident ha
        obtain rfl : g = f := some.inj ((hold hg).symm.trans hf)
        cases hid
        exact ⟨g, hf, rfl, rfl, Bool.eq_false_iff.mpr hbusy⟩
    | none =>
      refine .ite (fun _ => .pure ⟨hup.tail .wake, hold, nofun⟩) fun _ => ?_
      have hhash' : t.pframeHash o k = none := by
        obtain ⟨l, rfl⟩ := hq
        exact hhash
      refine .bind (pframeAlloc_yields (hup.wf hw) hhash') fun r hr => ?_
      refine (pframeFill_got (hup.wf hw) ih disk hr).imp fun v hv => ?_
      exact ⟨hup.trans hv.upds, fun hq => hv.old (hold hq), hv.page⟩

end Weenix.Pageout
