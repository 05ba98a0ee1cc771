/-
# The page cache is consistent

`PframeInv` says that the three families of lists file every frame under what its fields say,
and that the counters count them.  Inside a call the lists and the fields do not agree; each
call is therefore followed to its end once, in a lemma that says that it returns where its
assertions hold and that the invariant holds again (`pframePin_spec` and so on).  A run is then
an induction over its calls.
-/
import Weenix.Lib.Run
import Weenix.Mm.Pframe

namespace Weenix.PageCache

variable {ret : Int} {dest o pf : Nat} {key : Nat → Option Nat} {f : Pframe} {c : PframeCall}
  {β : Type}

open Filing List Option

/-! ## 1. The invariant

A frame's keys are the chain and the list that its fields call for; `Filed` says that it is there. -/

/-- The hash chain of a frame. -/
def hashKey (f : Pframe) : Option Nat := f.pfObj.map fun o => hashPage o f.pfPagenum

/-- The list that `pf_link` of a frame is on. -/
def listKey (f : Pframe) : Option PfList :=
  f.pfObj.map fun _ => if f.pfPincount = 0 then .alloc else .pinned

/-- Resident frames differ in object or page number. -/
def UniquePages (frame : Nat → Pframe) : Prop :=
  ∀ x y o, (frame x).pfObj = some o → (frame y).pfObj = some o →
    (frame y).pfPagenum = (frame x).pfPagenum → y = x

/-- A resident frame's object exists; the frame is not busy between calls. -/
def FrameOk (objs : List Nat) (f : Pframe) : Prop :=
  ∀ o, f.pfObj = some o → o ∈ objs ∧ 0 ≤ f.pfPincount ∧ f.busy = false

structure PframeInv (s : PframeSys) : Prop where
  unique : UniquePages s.pframe
  frames : ∀ pf, FrameOk s.mmobjs (s.pframe pf)
  hash : Filed s.pframeHash fun pf => hashKey (s.pframe pf)
  respages : Filed s.mmoRespages fun pf => (s.pframe pf).pfObj
  lists : Filed s.lists fun pf => listKey (s.pframe pf)
  nallocated : s.nallocated = (s.lists .alloc).length
  nrespages : Tally s.mmoNrespages (fun _ => 0) s.mmoRespages
  refs : Tally s.mmoRefcount s.otherRefs s.mmoRespages

theorem pframeInv_init : PframeInv pframeInit where
  unique := by intro x y o h; cases h
  frames := by intro pf o h; cases h
  hash := ⟨fun k pf => by simp [pframeInit, hashKey], fun _ => .nil⟩
  respages := ⟨fun k pf => by simp [pframeInit], fun _ => .nil⟩
  lists := ⟨fun k pf => by simp [pframeInit, listKey], fun _ => .nil⟩
  nallocated := rfl
  nrespages _ := rfl
  refs _ := rfl

/-- How a call changes `alloc_list`: frames are taken off, and the frame that it uses, if that is on
the list then, is at the end. -/
def Requeued (used : Option Nat) (l l' : List Nat) : Prop :=
  ∃ k, k.Sublist l ∧ (∀ pf ∈ used, pf ∉ k) ∧ (l' = k ∨ ∃ pf ∈ used, l' = k ++ [pf])

section
variable {used : Option Nat} {l l' : List Nat} {s : PframeSys}

theorem Requeued.of_sublist (h : l'.Sublist l) : Requeued none l l' := ⟨l', h, nofun, .inl rfl⟩

theorem Requeued.refl : Requeued none l l := .of_sublist (List.Sublist.refl l)

theorem Requeued.to_tail (h : l.Nodup) : Requeued (some pf) l (l.erase pf ++ [pf]) := by
  refine ⟨l.erase pf, erase_sublist, ?_, .inr ⟨pf, rfl, rfl⟩⟩
  rintro _ ⟨⟩
  exact h.not_mem_erase

theorem PframeInv.requeued_off (h : PframeInv s) (hkey : listKey (s.pframe pf) ≠ some .alloc) :
    Requeued (some pf) (s.lists .alloc) (s.lists .alloc) := by
  refine ⟨_, List.Sublist.refl _, ?_, .inl rfl⟩
  rintro _ ⟨⟩ hmem
  exact hkey ((h.lists.mem .alloc pf).mp hmem)

end

/-! ## 2. The primitives

Removal finds its frame, since the frame is filed. -/

section
variable {s : PframeSys} {pf o : Nat}

theorem hashPage_lt (o n : Nat) : hashPage o n < pfHashSize := Nat.mod_lt _ (by decide)

theorem listKey_of_unpinned (hres : f.pfObj.isSome) (h : f.pfPincount = 0) :
    listKey f = some .alloc := by
  obtain ⟨o, ho⟩ := isSome_iff_exists.mp hres
  simp [listKey, ho, h]

theorem listKey_of_pinned (hres : f.pfObj.isSome) (h : f.pfPincount ≠ 0) :
    listKey f = some .pinned := by
  obtain ⟨o, ho⟩ := isSome_iff_exists.mp hres
  simp [listKey, ho, h]

theorem isSome_listKey : (listKey f).isSome = f.pfObj.isSome := by
  simp [listKey]

theorem removeLink_eq {lists : PfList → List Nat} {key : Nat → Option PfList} (h : Filed lists key)
    (hkey : (key pf).isSome) (hs : s.lists = lists) :
    s.removeLink pf = .ok { s with lists := unfile lists pf } := by
  subst hs
  obtain ⟨l, hl⟩ := isSome_iff_exists.mp hkey
  have hmem := (h.mem l pf).mpr hl
  refine if_pos ?_
  cases l with
  | alloc => exact .inl hmem
  | pinned => exact .inr hmem

theorem removeHlink_eq {chains : Nat → List Nat} (h : Filed chains key) {i : Nat}
    (hi : i < pfHashSize) (hkey : key pf = some i) (hs : s.pframeHash = chains) :
    s.removeHlink pf = .ok { s with pframeHash := unfile chains pf } := by
  subst hs
  exact if_pos ⟨i, hi, (h.mem i pf).mpr hkey⟩

theorem removeOlink_eq {respages : Nat → List Nat} (h : Filed respages key)
    (hkey : key pf = some o) (hs : s.mmoRespages = respages) (ho : o ∈ s.mmobjs) :
    s.removeOlink pf = .ok { s with mmoRespages := unfile respages pf } := by
  subst hs
  exact if_pos ⟨o, ho, (h.mem o pf).mpr hkey⟩

end

/-! ## 3. Changes to one frame

Each moves the frame on the lists whose keys change (`edit`, `relist`, `drop`, `add`, `reown`); all
other frames keep their keys. -/

section
variable {s : PframeSys} {pf : Nat} {f : Pframe} {frame : Nat → Pframe}

theorem update_field (g : Pframe → β) (hg : g f = g (frame pf)) (y : Nat) :
    g (update frame pf f y) = g (frame y) := by
  obtain rfl | hne := eq_or_ne y pf
  · rw [update_self, hg]
  · rw [update_of_ne hne]

theorem update_other (g : Pframe → β) (y : Nat) (hne : y ≠ pf) :
    g (update frame pf f y) = g (frame y) := by
  rw [update_of_ne hne]

theorem forall_frameOk {objs : List Nat} (h : ∀ y, FrameOk objs (frame y))
    (hf : FrameOk objs f) (y : Nat) :
    FrameOk objs (update frame pf f y) :=
  (Function.forall_update_iff frame fun _ g => FrameOk objs g).mpr ⟨hf, fun y _ => h y⟩ y

theorem UniquePages.edit (h : UniquePages frame) (hobj : f.pfObj = (frame pf).pfObj)
    (hnum : f.pfPagenum = (frame pf).pfPagenum) : UniquePages (update frame pf f) := by
  intro x y o
  simp only [update_field (·.pfObj) hobj, update_field (·.pfPagenum) hnum]
  exact h x y o

theorem UniquePages.clear (h : UniquePages frame) (hf : f.pfObj = none) :
    UniquePages (update frame pf f) := by
  intro x y o hx hy
  obtain rfl | hxne := eq_or_ne x pf
  · rw [update_self, hf] at hx
    cases hx
  obtain rfl | hyne := eq_or_ne y pf
  · rw [update_self, hf] at hy
    cases hy
  rw [update_of_ne hxne] at hx ⊢
  rw [update_of_ne hyne] at hy ⊢
  exact h x y o hx hy

theorem UniquePages.set (h : UniquePages frame) (hf : f.pfObj = some o)
    (hnew : ∀ y, (frame y).pfObj = some o → (frame y).pfPagenum ≠ f.pfPagenum) :
    UniquePages (update frame pf f) := by
  intro x y o' hx hy hnum
  obtain rfl | hxne := eq_or_ne x pf
  · obtain rfl | hyne := eq_or_ne y x
    · rfl
    rw [update_self] at hx hnum
    rw [update_of_ne hyne] at hy hnum
    cases hf.symm.trans hx
    exact absurd hnum (hnew y hy)
  rw [update_of_ne hxne] at hx hnum
  obtain rfl | hyne := eq_or_ne y pf
  · rw [update_self] at hy hnum
    cases hf.symm.trans hy
    exact absurd hnum.symm (hnew x hx)
  rw [update_of_ne hyne] at hy hnum
  exact h x y o' hx hy hnum

section
variable (h : PframeInv s) (hf : FrameOk s.mmobjs f) (hobj : f.pfObj = (s.pframe pf).pfObj)
  (hnum : f.pfPagenum = (s.pframe pf).pfPagenum)
include h hf hobj hnum

/-- The frame stays where it is. -/
theorem PframeInv.edit (hkey : listKey f = listKey (s.pframe pf)) (np : Int) :
    PframeInv { s.setPframe pf f with npinned := np } where
  __ := h
  unique := h.unique.edit hobj hnum
  frames := forall_frameOk h.frames hf
  hash := by
    have hk : hashKey f = hashKey (s.pframe pf) := by rw [hashKey, hashKey, hobj, hnum]
    simp only [PframeSys.setPframe, update_field hashKey hk]
    exact h.hash
  respages := by
    simp only [PframeSys.setPframe, update_field (·.pfObj) hobj]
    exact h.respages
  lists := by
    simp only [PframeSys.setPframe, update_field listKey hkey]
    exact h.lists

/-- The frame is moved to the tail of one of the lists for `pf_link`. -/
theorem PframeInv.relist (hres : (s.pframe pf).pfObj.isSome) {l : PfList}
    (hkey : listKey f = some l) {n : Int}
    (hn : n = s.nallocated - (if (s.pframe pf).pfPincount = 0 then 1 else 0) +
      if l = .alloc then 1 else 0) (np : Int) :
    PframeInv { s with
      pframe := update s.pframe pf f
      lists := update (unfile s.lists pf) l (unfile s.lists pf l ++ [pf])
      nallocated := n
      npinned := np } where
  __ := h
  unique := h.unique.edit hobj hnum
  frames := forall_frameOk h.frames hf
  hash := by
    have hk : hashKey f = hashKey (s.pframe pf) := by rw [hashKey, hashKey, hobj, hnum]
    simp only [update_field hashKey hk]
    exact h.hash
  respages := by
    simp only [update_field (·.pfObj) hobj]
    exact h.respages
  lists := by
    refine h.lists.move ?_ (update_other listKey) (perm_append_singleton _ _)
    rw [update_self, hkey]
  nallocated := by
    -- an unpinned frame leaves `alloc_list`, a pinned one was not on it
    have hout : ((unfile s.lists pf .alloc).length : Int) =
        s.nallocated - if (s.pframe pf).pfPincount = 0 then 1 else 0 := by
      rw [h.nallocated]
      split
      · have hlen := h.lists.length_unfile (listKey_of_unpinned hres ‹_›)
        omega
      · rw [h.lists.unfile_of_ne (by rw [listKey_of_pinned hres ‹_›]; simp)]
        omega
    subst hn
    cases l with
    | alloc => simp [hout]
    | pinned => simp [hout]
  nrespages := h.nrespages
  refs := h.refs

end

/-- The frame is taken off all lists, and its object loses a page and a reference. -/
theorem PframeInv.drop (h : PframeInv s) (ho : (s.pframe pf).pfObj = some o)
    (hpin : (s.pframe pf).pfPincount = 0) (hf : f.pfObj = none) :
    PframeInv { s with
      pframe := update s.pframe pf f
      pframeHash := unfile s.pframeHash pf
      lists := unfile s.lists pf
      nallocated := s.nallocated - 1
      mmoRespages := unfile s.mmoRespages pf
      mmoNrespages := update s.mmoNrespages o (s.mmoNrespages o + -1)
      mmoRefcount := update s.mmoRefcount o (s.mmoRefcount o + -1) } where
  unique := h.unique.clear hf
  frames := forall_frameOk h.frames fun o' ho' => by rw [hf] at ho'; cases ho'
  hash := h.hash.unfile (by simp [hashKey, hf]) (update_other hashKey)
  respages := h.respages.unfile (by simp [hf]) (update_other (·.pfObj))
  lists := h.lists.unfile (by simp [listKey, hf]) (update_other listKey)
  nallocated := by
    have hlen := h.lists.length_unfile (listKey_of_unpinned (by rw [ho]; rfl) hpin)
    have hcount := h.nallocated
    show s.nallocated - 1 = ((unfile s.lists pf .alloc).length : Int)
    omega
  nrespages := h.nrespages.unfile h.respages ho
  refs := h.refs.unfile h.respages ho

/-- A frame that is on no list is put on all three, and its object gets a page and a reference. -/
theorem PframeInv.add (h : PframeInv s) {n : Nat} (hfree : (s.pframe pf).pfObj = none)
    (ho : o ∈ s.mmobjs)
    (hnew : ∀ y, (s.pframe y).pfObj = some o → (s.pframe y).pfPagenum ≠ n) (addr : Nat) :
    PframeInv { s with
      pframe := update s.pframe pf ⟨some o, n, addr, false, false, 0⟩
      pframeHash := update s.pframeHash (hashPage o n) (pf :: s.pframeHash (hashPage o n))
      lists := update s.lists .alloc (s.lists .alloc ++ [pf])
      nallocated := s.nallocated + 1
      mmoRespages := update s.mmoRespages o (pf :: s.mmoRespages o)
      mmoNrespages := update s.mmoNrespages o (s.mmoNrespages o + 1)
      mmoRefcount := update s.mmoRefcount o (s.mmoRefcount o + 1) } where
  unique := h.unique.set rfl hnew
  frames := forall_frameOk h.frames fun o' ho' => ⟨some.inj ho' ▸ ho, Int.le_refl 0, rfl⟩
  hash := h.hash.insert (by simp [hashKey, hfree]) (by simp [hashKey]) (update_other hashKey)
    (List.Perm.refl _)
  respages := h.respages.insert hfree (by simp) (update_other (·.pfObj)) (List.Perm.refl _)
  lists := h.lists.insert (by simp [listKey, hfree]) (by simp [listKey]) (update_other listKey)
    (perm_append_singleton _ _)
  nallocated := by simp [h.nallocated]
  nrespages := h.nrespages.insert o pf
  refs := h.refs.insert o pf

theorem PframeInv.reown (h : PframeInv s) {src : Nat} (hsrc : (s.pframe pf).pfObj = some src)
    (hdest : dest ∈ s.mmobjs)
    (hnew : ∀ y, (s.pframe y).pfObj = some dest →
      (s.pframe y).pfPagenum ≠ (s.pframe pf).pfPagenum) :
    PframeInv { s with
      pframe := update s.pframe pf { s.pframe pf with pfObj := some dest }
      pframeHash := update (unfile s.pframeHash pf) (hashPage dest (s.pframe pf).pfPagenum)
        (pf :: unfile s.pframeHash pf (hashPage dest (s.pframe pf).pfPagenum))
      mmoRespages := update (unfile s.mmoRespages pf) dest (pf :: unfile s.mmoRespages pf dest)
      mmoNrespages :=
        let n := update s.mmoNrespages src (s.mmoNrespages src + -1)
        update n dest (n dest + 1)
      mmoRefcount :=
        let n := update s.mmoRefcount src (s.mmoRefcount src + -1)
        update n dest (n dest + 1) } where
  unique := h.unique.set rfl hnew
  frames := by
    obtain ⟨-, hpin, hbusy⟩ := h.frames pf src hsrc
    exact forall_frameOk h.frames fun o' ho' => ⟨some.inj ho' ▸ hdest, hpin, hbusy⟩
  hash := h.hash.move (by simp [hashKey]) (update_other hashKey) (List.Perm.refl _)
  respages := h.respages.move (by simp) (update_other (·.pfObj)) (List.Perm.refl _)
  lists := by
    have hk : listKey { s.pframe pf with pfObj := some dest } = listKey (s.pframe pf) := by
      simp [listKey, hsrc]
    simp only [update_field listKey hk]
    exact h.lists
  nallocated := h.nallocated
  nrespages := (h.nrespages.unfile h.respages hsrc).insert dest pf
  refs := (h.refs.unfile h.respages hsrc).insert dest pf

end

/-! ## 4. The calls

Each is one of the changes, or a few of them. -/

section
variable {s t : PframeSys} {pf o n : Nat}

def GetResult.frame : GetResult → Option Nat
  | .ret _ pf => pf
  | .asleep => none

theorem setPframe_setPframe (s : PframeSys) (pf : Nat) (f g : Pframe) :
    (s.setPframe pf f).setPframe pf g = s.setPframe pf g := by
  simp [PframeSys.setPframe]

@[simp] theorem pframe_setPframe (s : PframeSys) (pf : Nat) (f : Pframe) :
    (s.setPframe pf f).pframe pf = f := by
  simp [PframeSys.setPframe]

section
variable (h : PframeInv s)
include h

/-- What `pframe_get_resident` leaves of the frames, and what its answer means. -/
theorem pframeGetResident_spec (o n : Nat) :
    ∃ t r, pframeGetResident s o n = .ok (t, r) ∧ PframeInv t ∧ t.pframe = s.pframe ∧
      t.mmobjs = s.mmobjs ∧
      Requeued r (s.lists .alloc) (t.lists .alloc) ∧ match r with
      | some pf => (s.pframe pf).pfObj = some o ∧ (s.pframe pf).pfPagenum = n
      | none => t = s ∧ ∀ y, (s.pframe y).pfObj = some o → (s.pframe y).pfPagenum ≠ n := by
  unfold pframeGetResident
  split
  · rename_i hnone
    refine ⟨s, none, rfl, h, rfl, rfl, .refl, rfl, fun y hy hnum => ?_⟩
    -- a frame with this identity would be on the chain that was searched
    have hmem : y ∈ s.pframeHash (hashPage o n) :=
      (h.hash.mem _ y).mpr (by simp [hashKey, hy, hnum])
    simpa [hy, hnum] using find?_eq_none.mp hnone y hmem
  · rename_i pf hsome
    have hpf := find?_some hsome
    simp only [decide_eq_true_eq] at hpf
    have hres : (s.pframe pf).pfObj.isSome := by rw [hpf.1]; rfl
    split
    · rename_i hpin
      rw [removeLink_eq h.lists (isSome_listKey.trans hres) rfl]
      refine ⟨_, some pf, rfl, ?_, rfl, rfl, .to_tail (h.lists.nodup .alloc), hpf⟩
      have hmoved := h.relist (h.frames pf) rfl rfl hres (listKey_of_unpinned hres hpin)
        (n := s.nallocated) (by simp [hpin]) s.npinned
      rw [update_eq_self] at hmoved
      exact hmoved
    · rename_i hpin
      exact ⟨s, some pf, rfl, h, rfl, rfl,
        h.requeued_off (by rw [listKey_of_pinned hres hpin]; nofun), hpf⟩

theorem pframeAlloc_inv (ho : o ∈ s.mmobjs) (slab page : Option Nat)
    (hslab : ∀ pf, slab = some pf → (s.pframe pf).pfObj = none)
    (hnew : ∀ y, (s.pframe y).pfObj = some o → (s.pframe y).pfPagenum ≠ n) :
    PframeInv (pframeAlloc s o n slab page).1 ∧
      Requeued (pframeAlloc s o n slab page).2 (s.lists .alloc)
      ((pframeAlloc s o n slab page).1.lists .alloc) := by
  cases slab with
  | none => exact ⟨h, .refl⟩
  | some pf =>
    cases page with
    | none => exact ⟨h, .refl⟩
    | some addr =>
      refine ⟨h.add (hslab pf rfl) ho hnew addr, _, List.Sublist.refl _, ?_, .inr ⟨pf, rfl, rfl⟩⟩
      rintro _ ⟨⟩ hmem
      have hkey := (h.lists.mem .alloc pf).mp hmem
      rw [listKey, hslab pf rfl] at hkey
      cases hkey

theorem PframeInv.setFlags (pf : Nat) (dirty : Bool) :
    PframeInv (s.setPframe pf { s.pframe pf with busy := false, dirty := dirty }) := by
  have hf : FrameOk s.mmobjs { s.pframe pf with busy := false, dirty := dirty } := fun o ho =>
    ⟨(h.frames pf o ho).1, (h.frames pf o ho).2.1, rfl⟩
  exact h.edit hf rfl rfl rfl s.npinned

theorem pframeFill_inv (pf : Nat) : PframeInv (pframeFill s pf) := by
  unfold pframeFill
  simp only [pframe_setPframe, setPframe_setPframe]
  exact h.setFlags pf _

theorem pframeDirty_spec (hres : (s.pframe pf).pfObj.isSome) (ret : Int) :
    ∃ t, pframeDirty s pf ret = .ok t ∧ PframeInv t ∧ t.lists = s.lists := by
  obtain ⟨o, ho⟩ := isSome_iff_exists.mp hres
  unfold pframeDirty
  rw [kassert_of (by rw [(h.frames pf o ho).2.2]; rfl), ok_bind]
  refine ⟨_, rfl, ?_⟩
  split
  all_goals
    simp only [pframe_setPframe, setPframe_setPframe]
    exact ⟨h.setFlags pf _, rfl⟩

end

theorem pframeClean_eq (hdirty : (s.pframe pf).dirty)
    (hpin : (s.pframe pf).pfPincount = 0) (ret : Int) :
    pframeClean s pf ret =
      .ok (s.setPframe pf { s.pframe pf with busy := false, dirty := decide (ret < 0) }) := by
  unfold pframeClean
  rw [kassert_of hdirty, ok_bind, kassert_of (by rw [hpin]; rfl), ok_bind]
  by_cases hret : ret < 0
  all_goals
    simp only [hret, if_true, if_false, pframe_setPframe, setPframe_setPframe]
    simp

section
variable (h : PframeInv s) (hres : (s.pframe pf).pfObj.isSome)
include h hres

theorem pframePin_spec : ∃ t, pframePin s pf = .ok t ∧ PframeInv t ∧
    (t.lists .alloc).Sublist (s.lists .alloc) := by
  obtain ⟨o, ho⟩ := isSome_iff_exists.mp hres
  obtain ⟨hobj, hpin, hbusy⟩ := h.frames pf o ho
  have hf : FrameOk s.mmobjs { s.pframe pf with pfPincount := (s.pframe pf).pfPincount + 1 } :=
    fun o' ho' =>
    ⟨(h.frames pf o' ho').1, Int.le_add_one hpin, hbusy⟩
  have hkey : listKey { s.pframe pf with pfPincount := (s.pframe pf).pfPincount + 1 } =
    some .pinned :=
    listKey_of_pinned hres (show (s.pframe pf).pfPincount + 1 ≠ 0 by omega)
  unfold pframePin
  rw [kassert_of hres, ok_bind, kassert_of (by simpa using hpin), ok_bind]
  split
  · rename_i hzero
    rw [removeLink_eq h.lists (isSome_listKey.trans hres) rfl]
    have hn : s.nallocated - 1 = s.nallocated - (if (s.pframe pf).pfPincount = 0 then 1 else 0) +
        if PfList.pinned = .alloc then 1 else 0 := by simp [hzero]
    exact ⟨_, rfl, h.relist hf rfl rfl hres hkey hn _, erase_sublist⟩
  · rename_i hne
    exact ⟨_, rfl, h.edit hf rfl rfl (hkey.trans (listKey_of_pinned hres hne).symm) _,
      List.Sublist.refl _⟩

theorem pframeUnpin_spec (hpin : 0 < (s.pframe pf).pfPincount) :
    ∃ t, pframeUnpin s pf = .ok t ∧ PframeInv t ∧
      t.pframe pf = { s.pframe pf with pfPincount := (s.pframe pf).pfPincount - 1 } ∧
      (t.lists .alloc).erase pf = s.lists .alloc ∧
        Requeued (some pf) (s.lists .alloc) (t.lists .alloc) := by
  obtain ⟨o, ho⟩ := isSome_iff_exists.mp hres
  have hf : FrameOk s.mmobjs { s.pframe pf with pfPincount := (s.pframe pf).pfPincount - 1 } :=
    fun o' ho' =>
    ⟨(h.frames pf o' ho').1, Int.le_sub_one_of_lt hpin, (h.frames pf o' ho').2.2⟩
  have hoff : listKey (s.pframe pf) ≠ some .alloc := by
    rw [listKey_of_pinned hres (by omega)]
    nofun
  have hnot : pf ∉ s.lists .alloc := fun hmem => hoff ((h.lists.mem .alloc pf).mp hmem)
  unfold pframeUnpin
  rw [kassert_of hres, ok_bind, kassert_of (by simpa using hpin), ok_bind]
  simp only [pframe_setPframe]
  split
  · rename_i hzero
    have hkey : listKey { s.pframe pf with pfPincount := (s.pframe pf).pfPincount - 1 } =
      some .alloc :=
      listKey_of_unpinned hres hzero
    have hne : (s.pframe pf).pfPincount ≠ 0 := by omega
    have hn : s.nallocated + 1 = s.nallocated - (if (s.pframe pf).pfPincount = 0 then 1 else 0) +
        if PfList.alloc = .alloc then 1 else 0 := by simp [hne]
    rw [removeLink_eq h.lists (isSome_listKey.trans hres)]
    · refine ⟨_, rfl, h.relist hf rfl rfl hres hkey hn _, pframe_setPframe s pf _, ?_,
        .to_tail (h.lists.nodup .alloc)⟩
      change ((s.lists .alloc).erase pf ++ [pf]).erase pf = _
      rw [erase_of_not_mem hnot, erase_append_right _ hnot, erase_cons_head, append_nil]
    · rfl
  · rename_i hne
    refine ⟨_, rfl, ?_, pframe_setPframe s pf _, erase_of_not_mem hnot, h.requeued_off hoff⟩
    refine h.edit hf rfl rfl ?_ _
    rw [listKey_of_pinned hres (show (s.pframe pf).pfPincount ≠ 0 by omega)]
    exact listKey_of_pinned hres hne

theorem pframeFree_spec (hpin : (s.pframe pf).pfPincount = 0) :
    ∃ t, pframeFree s pf = .ok t ∧ PframeInv t ∧ t.lists = unfile s.lists pf ∧
      t.pframe = update s.pframe pf { s.pframe pf with pfObj := none } := by
  obtain ⟨o, ho⟩ := isSome_iff_exists.mp hres
  obtain ⟨hobj, -, hbusy⟩ := h.frames pf o ho
  unfold pframeFree
  rw [kassert_of (by rw [hpin]; rfl), ok_bind]
  simp only [ho]
  rw [kassert_of (by rw [hbusy]; rfl), ok_bind,
    removeHlink_eq h.hash (hashPage_lt o (s.pframe pf).pfPagenum)
      (by simp [hashKey, ho]) rfl, ok_bind,
    removeLink_eq h.lists (isSome_listKey.trans hres), ok_bind, removeOlink_eq h.respages ho]
  · exact ⟨_, rfl, h.drop ho hpin rfl, rfl, rfl⟩
  · rfl
  · exact hobj
  · rfl

theorem pframeMigrate_spec (hdest : dest ∈ s.mmobjs)
    (hover : ∀ y, (s.pframe y).pfObj = some dest →
      (s.pframe y).pfPagenum = (s.pframe pf).pfPagenum →
      (s.pframe pf).pfPincount = 1 ∧ (s.pframe pf).dirty) (ret : Int) :
    ∃ t r u, pframeGetResident s dest (s.pframe pf).pfPagenum = .ok (u, r) ∧
      pframeMigrate s pf dest ret = .ok t ∧ PframeInv t ∧
        Requeued r (s.lists .alloc) (t.lists .alloc) := by
  obtain ⟨src, hsrc⟩ := isSome_iff_exists.mp hres
  obtain ⟨hobj, -, hbusy⟩ := h.frames pf src hsrc
  obtain ⟨s₁, r, hget, h₁, hframe,
    hobjs, hmoved, hr⟩ := pframeGetResident_spec h dest (s.pframe pf).pfPagenum
  unfold pframeMigrate
  rw [kassert_of (by rw [hbusy]; rfl), ok_bind, hget, ok_bind]
  cases r with
  | some y =>
    obtain ⟨hpin, hdirty⟩ := hover y hr.1 hr.2
    obtain ⟨s₂, hunpin, h₂, hpf₂, hlists₂, -⟩ := pframeUnpin_spec h₁
      (show (s₁.pframe pf).pfObj.isSome by rwa [hframe]) (by rw [hframe, hpin]; decide)
    rw [hframe] at hpf₂
    have hclean := pframeClean_eq (show (s₂.pframe pf).dirty by rw [hpf₂]; exact hdirty)
      (by rw [hpf₂, hpin]; rfl) ret
    have hpf₃ := pframe_setPframe s₂ pf { s₂.pframe pf
      with busy := false, dirty := decide (ret < 0) }
    obtain ⟨s₄, hfree, h₄, hlists₄, -⟩ := pframeFree_spec (h₂.setFlags pf (decide (ret < 0)))
      (by rw [hpf₃, hpf₂]; exact hres) (by rw [hpf₃, hpf₂, hpin]; rfl)
    refine ⟨s₄, _, _, rfl, ?_, h₄, ?_⟩
    · simp only [hunpin, hclean, ok_bind]
      exact hfree
    · rw [hlists₄]
      change Requeued _ _ ((s₂.lists .alloc).erase pf)
      rw [hlists₂]
      exact hmoved
  | none =>
    obtain ⟨rfl, hnew⟩ := hr
    simp only [hsrc]
    rw [removeHlink_eq h.hash (hashPage_lt src (s₁.pframe pf).pfPagenum) (by simp [hashKey, hsrc]),
      ok_bind, removeOlink_eq h.respages hsrc, ok_bind]
    · refine ⟨_, _, _, rfl, rfl, ?_, .refl⟩
      have hmoved := h.reown hsrc hdest hnew
      simpa [PframeSys.setPframe, PframeSys.insertHash, PframeSys.insertRespages,
        PframeSys.addNrespages, PframeSys.addRefs] using hmoved
    · rfl
    · exact hobj
    · rfl

end

theorem PframeInv.of_mem_alloc (h : PframeInv s) (hmem : pf ∈ s.lists .alloc) :
    (s.pframe pf).pfObj.isSome ∧ (s.pframe pf).pfPincount = 0 ∧ (s.pframe pf).busy = false := by
  have hkey := (h.lists.mem .alloc pf).mp hmem
  have hres : (s.pframe pf).pfObj.isSome := by rw [← isSome_listKey, hkey]; rfl
  obtain ⟨o, ho⟩ := isSome_iff_exists.mp hres
  refine ⟨hres, ?_, (h.frames pf o ho).2.2⟩
  by_contra hne
  rw [listKey_of_pinned hres hne] at hkey
  cases hkey

/-- The daemon only takes frames that are on `alloc_list`, so no assertion of `pframe_clean` and
`pframe_free` fires. -/
theorem pageoutdLoop_spec (rounds : List Round) (h : PframeInv s) :
    ∃ t, pageoutdLoop s rounds = .ok t ∧ PframeInv t ∧
      (t.lists .alloc).Sublist (s.lists .alloc) := by
  induction rounds generalizing s with
  | nil => exact ⟨s, rfl, h, List.Sublist.refl _⟩
  | cons r rounds ih =>
    unfold pageoutdLoop
    split
    · exact ⟨s, rfl, h, List.Sublist.refl _⟩
    split
    · exact ⟨s, rfl, h, List.Sublist.refl _⟩
    · rename_i pf rest halloc
      obtain ⟨hres, hpin, -⟩ := h.of_mem_alloc (halloc ▸ mem_cons_self ..)
      split
      · exact ⟨s, rfl, h, List.Sublist.refl _⟩
      split
      · rename_i hdirty
        rw [pframeClean_eq hdirty hpin, ok_bind]
        exact ih (h.setFlags pf _)
      · obtain ⟨t, ht, hinv, hlists, -⟩ := pframeFree_spec h hres hpin
        rw [ht, ok_bind]
        obtain ⟨u, hu, hinv', hsub⟩ := ih hinv
        rw [hlists] at hsub
        exact ⟨u, hu, hinv', hsub.trans erase_sublist⟩

theorem pageoutdRun_spec (h : PframeInv s) (rounds : List Round) :
    ∃ t, pageoutdRun s rounds = .ok t ∧ PframeInv t ∧
      (t.lists .alloc).Sublist (s.lists .alloc) := by
  unfold pageoutdRun
  rw [kassert_of (by simp [h.nallocated]), ok_bind]
  exact pageoutdLoop_spec rounds h

theorem pframeGet_spec (h : PframeInv s) (ho : o ∈ s.mmobjs) (n : Nat) (env : GetEnv)
    (hslab : ∀ pf ∈ env.slab, (s.pframe pf).pfObj = none) :
    ∃ t r, pframeGet s o n env = .ok (t, r) ∧ PframeInv t ∧
      Requeued r.frame (s.lists .alloc) (t.lists .alloc) := by
  obtain ⟨s₁, r, hget, h₁, hframe, hobjs, hmoved, hr⟩ := pframeGetResident_spec h o n
  unfold pframeGet
  rw [hget, ok_bind]
  cases r with
  | some f =>
    dsimp only
    rw [if_neg (by rw [hframe, (h.frames f o hr.1).2.2]; decide)]
    exact ⟨s₁, _, rfl, h₁, hmoved⟩
  | none =>
    obtain ⟨rfl, hnew⟩ := hr
    dsimp only
    split
    · obtain ⟨t, ht, hinv, hsub⟩ := pageoutdRun_spec h env.rounds
      rw [ht]
      exact ⟨t, _, rfl, hinv, .of_sublist hsub⟩
    · have halloc := pframeAlloc_inv h ho env.slab env.page hslab hnew
      split
      · rename_i t heq
        rw [heq] at halloc
        exact ⟨t, _, rfl, halloc⟩
      · rename_i t f heq
        rw [heq] at halloc
        exact ⟨_, _, rfl, pframeFill_inv halloc.1 f, halloc.2⟩

end

/-! ## 5. Runs

A legal call returns exactly if its assertions hold. -/

section
variable {s t : PframeSys}

/-- The frame that a call allocates, asks `pframe_get_resident` for, or unpins.  No frame is busy
between calls, so that `pframe_get` returns the one it finds. -/
def usedBy (s : PframeSys) : PframeCall → Option Nat
  | .get o pagenum env =>
    match pframeGet s o pagenum env with
    | .ok (_, r) => r.frame
    | .error _ => none
  | .unpin pf => some pf
  | .migrate pf dest _ =>
    match pframeGetResident s dest (s.pframe pf).pfPagenum with
    | .ok (_, r) => r
    | .error _ => none
  | _ => none

/-- What a call asserts of the frame it is given.  The assertions that a frame is not free and not
busy, and that its pin count is not negative, hold of every resident frame.  `pframe_migrate`
unpins, cleans and frees the frame when `dest` has the page. -/
def pframeAsserts (s : PframeSys) : PframeCall → Prop
  | .unpin pf => 0 < (s.pframe pf).pfPincount
  | .clean pf _ => (s.pframe pf).dirty ∧ (s.pframe pf).pfPincount = 0
  | .free pf => (s.pframe pf).pfPincount = 0
  | .migrate pf dest _ => ∀ y, (s.pframe y).pfObj = some dest →
      (s.pframe y).pfPagenum = (s.pframe pf).pfPagenum →
        (s.pframe pf).pfPincount = 1 ∧ (s.pframe pf).dirty
  | _ => True

theorem PframeInv.newObj (h : PframeInv s) (ho : o ∉ s.mmobjs) : PframeInv { s with
      mmobjs := o :: s.mmobjs
      mmoRefcount := update s.mmoRefcount o 0
      mmoNrespages := update s.mmoNrespages o 0
      mmoRespages := update s.mmoRespages o []
      otherRefs := update s.otherRefs o 0 } := by
  have hnone : s.mmoRespages o = [] := eq_nil_iff_forall_not_mem.mpr fun pf hpf =>
    ho (h.frames pf o ((h.respages.mem o pf).mp hpf)).1
  have hlist : update s.mmoRespages o [] = s.mmoRespages := by rw [← hnone, update_eq_self]
  refine { h with frames pf o' ho' := ?_, respages := ?_, nrespages k := ?_, refs k := ?_ }
  · exact ⟨mem_cons_of_mem o (h.frames pf o' ho').1, (h.frames pf o' ho').2⟩
  · rw [hlist]
    exact h.respages
  · simp only [hlist]
    obtain rfl | hk := eq_or_ne k o
    · simp [hnone]
    · rw [update_of_ne hk]
      exact h.nrespages k
  · simp only [hlist]
    obtain rfl | hk := eq_or_ne k o
    · simp [hnone]
    · rw [update_of_ne hk, update_of_ne hk]
      exact h.refs k

theorem PframeInv.addOther (h : PframeInv s) (o : Nat) (d : Int) :
    PframeInv { s.addRefs o d with otherRefs := update s.otherRefs o (s.otherRefs o + d) } := by
  refine { h with refs k := ?_ }
  have hk := h.refs k
  show update s.mmoRefcount o (s.mmoRefcount o + d) k =
    update s.otherRefs o (s.otherRefs o + d) k + (s.mmoRespages k).length
  obtain rfl | hne := eq_or_ne k o
  · simp only [update_self]
    omega
  · simpa only [update_of_ne hne] using hk

/-- A call whose assertions hold returns, and leaves the cache consistent. -/
theorem pframeStep_spec (h : PframeInv s) (hl : pframeLegal s c) (ha : pframeAsserts s c) :
    ∃ t, pframeStep s c = .ok t ∧ PframeInv t ∧
      Requeued (usedBy s c) (s.lists .alloc) (t.lists .alloc) := by
  cases c with
  | get o n env =>
    obtain ⟨t, r, ht, hinv, hmoved⟩ := pframeGet_spec h hl.1 n env hl.2
    simp only [pframeStep, usedBy, ht]
    exact ⟨t, rfl, hinv, hmoved⟩
  | pin pf =>
    obtain ⟨t, ht, hinv, hsub⟩ := pframePin_spec h hl
    exact ⟨t, ht, hinv, .of_sublist hsub⟩
  | unpin pf =>
    obtain ⟨t, ht, hinv, -, -, hmoved⟩ := pframeUnpin_spec h hl ha
    exact ⟨t, ht, hinv, hmoved⟩
  | dirty pf ret =>
    obtain ⟨t, ht, hinv, hlists⟩ := pframeDirty_spec h hl ret
    exact ⟨t, ht, hinv, hlists ▸ .refl⟩
  | clean pf ret => exact ⟨_, pframeClean_eq ha.1 ha.2 ret, h.setFlags pf _, .refl⟩
  | free pf =>
    obtain ⟨t, ht, hinv, hlists, -⟩ := pframeFree_spec h hl ha
    exact ⟨t, ht, hinv, hlists ▸ .of_sublist erase_sublist⟩
  | migrate pf dest ret =>
    obtain ⟨t, r, u, hget, ht, hinv, hmoved⟩ := pframeMigrate_spec h hl.1 hl.2 ha ret
    simp only [pframeStep, usedBy, ht, hget]
    exact ⟨t, rfl, hinv, hmoved⟩
  | pageoutd rounds =>
    obtain ⟨t, ht, hinv, hsub⟩ := pageoutdRun_spec h rounds
    exact ⟨t, ht, hinv, .of_sublist hsub⟩
  | newObj o => exact ⟨_, rfl, h.newObj hl, .refl⟩
  | ref o => exact ⟨_, rfl, h.addOther o 1, .refl⟩
  | put o => exact ⟨_, rfl, h.addOther o (-1), .refl⟩

theorem pframeUnpin_asserts (h : pframeUnpin s pf = .ok t) : 0 < (s.pframe pf).pfPincount := by
  obtain ⟨-, -, h⟩ := bind_eq_ok h
  obtain ⟨_, hpin, _⟩ := bind_eq_ok h
  simpa using kassert_eq_ok hpin

theorem pframeClean_asserts (h : pframeClean s pf ret = .ok t) :
    (s.pframe pf).dirty ∧ (s.pframe pf).pfPincount = 0 := by
  obtain ⟨_, hdirty, h⟩ := bind_eq_ok h
  obtain ⟨_, hpin, _⟩ := bind_eq_ok h
  exact ⟨kassert_eq_ok hdirty, by simpa using kassert_eq_ok hpin⟩

theorem pframeMigrate_asserts (hi : PframeInv s) (hres : (s.pframe pf).pfObj.isSome)
    (h : pframeMigrate s pf dest ret = .ok t) : pframeAsserts s (.migrate pf dest ret) := by
  intro y hy hnum
  obtain ⟨s₁, r, hget, h₁, hframe, -, -, hr⟩ :=
    pframeGetResident_spec hi dest (s.pframe pf).pfPagenum
  obtain ⟨-, -, h⟩ := bind_eq_ok h
  rw [hget, ok_bind] at h
  cases r with
  | none => exact absurd hnum (hr.2 y hy)
  | some x =>
    obtain ⟨s₂, hunpin, h⟩ := bind_eq_ok h
    obtain ⟨s₃, hclean, -⟩ := bind_eq_ok h
    have hpos := pframeUnpin_asserts hunpin
    obtain ⟨s₂', hunpin', -, hpf₂, -⟩ := pframeUnpin_spec h₁ (by rwa [hframe]) hpos
    cases hunpin.symm.trans hunpin'
    obtain ⟨hdirty, hzero⟩ := pframeClean_asserts hclean
    rw [hpf₂, hframe] at hdirty hzero
    exact ⟨Int.sub_eq_zero.mp hzero, hdirty⟩

theorem pframeStep_asserts (hi : PframeInv s) (hl : pframeLegal s c) (h : pframeStep s c = .ok t) :
    pframeAsserts s c := by
  cases c with
  | unpin pf => exact pframeUnpin_asserts h
  | clean pf ret => exact pframeClean_asserts h
  | free pf =>
    obtain ⟨_, hpin, _⟩ := bind_eq_ok (show pframeFree s pf = .ok t from h)
    show (s.pframe pf).pfPincount = 0
    simpa using kassert_eq_ok hpin
  | migrate pf dest ret => exact pframeMigrate_asserts hi hl.1 h
  | _ => trivial

theorem pframeRun_inv (h : Lts.Run pframeLegal pframeStep pframeInit s) : PframeInv s := by
  refine h.invariant pframeInv_init fun s c t hi hl hs => ?_
  obtain ⟨t', ht', hinv, -⟩ := pframeStep_spec hi hl (pframeStep_asserts hi hl hs)
  cases hs.symm.trans ht'
  exact hinv

/-- The frames of the cache and its lists and counters agree in every state reached, and a call that
meets the assertions returns. -/
theorem pageCache_consistent (s : PframeSys) (hrun : Lts.Run pframeLegal pframeStep pframeInit s) :
    (∀ x y o, (s.pframe x).pfObj = some o → (s.pframe y).pfObj = some o →
      (s.pframe x).pfPagenum = (s.pframe y).pfPagenum → x = y) ∧
    (∀ pf o, (s.pframe pf).pfObj = some o →
      (∀ i, (s.pframeHash i).count pf = if i = hashPage o (s.pframe pf).pfPagenum then 1 else 0) ∧
      (∀ o', (s.mmoRespages o').count pf = if o' = o then 1 else 0) ∧
      (∀ l, (s.lists l).count pf = if l = (if (s.pframe pf).pfPincount = 0 then .alloc else .pinned)
        then 1 else 0)) ∧
    (∀ pf, (s.pframe pf).pfObj = none →
      (∀ i, pf ∉ s.pframeHash i) ∧ (∀ o, pf ∉ s.mmoRespages o) ∧ ∀ l, pf ∉ s.lists l) ∧
    (∀ o, s.mmoNrespages o = (s.mmoRespages o).length) ∧
    s.nallocated = (s.lists .alloc).length ∧
    (∀ o, s.mmoRefcount o = s.otherRefs o + (s.mmoRespages o).length) ∧
    ∀ c, pframeLegal s c → pframeAsserts s c → ∃ t, pframeStep s c = .ok t := by
  have h := pframeRun_inv hrun
  refine ⟨fun x y o hx hy hnum => h.unique y x o hy hx hnum,
    fun pf o ho => ⟨fun i => ?_, fun o' => ?_, fun l => ?_⟩, fun pf hnone =>
    ⟨fun i hmem => ?_, fun o hmem => ?_, fun l hmem => ?_⟩, fun o => ?_, h.nallocated, h.refs,
    fun c hl ha => ?_⟩
  · simp [h.hash.count, hashKey, ho, eq_comm]
  · simp [h.respages.count, ho, eq_comm]
  · simp [h.lists.count, listKey, ho, eq_comm]
  · simpa [hashKey, hnone] using (h.hash.mem i pf).mp hmem
  · simpa [hnone] using (h.respages.mem o pf).mp hmem
  · simpa [listKey, hnone] using (h.lists.mem l pf).mp hmem
  · simpa using h.nrespages o
  · obtain ⟨t, ht, -⟩ := pframeStep_spec h hl ha
    exact ⟨t, ht⟩

/-- Two objects, a page of the first pinned, dirtied and moved to the second. -/
def pframeCalls : List PframeCall :=
  [.newObj 100, .newObj 200, .ref 100, .get 100 7 ⟨5, [], some 40, some 8192⟩, .pin 40, .dirty 40 0,
    .migrate 40 200 0]

theorem pageCache_consistent_moved : ∃ s, Lts.Run pframeLegal pframeStep pframeInit s ∧
    s.mmoRespages 200 = [40] ∧ s.lists .pinned = [40] ∧
      s.mmoNrespages 200 = (s.mmoRespages 200).length := by
  obtain ⟨s, hrun, hres, hpin⟩ : ∃ s, Lts.Run pframeLegal pframeStep pframeInit s ∧
      s.mmoRespages 200 = [40] ∧ s.lists .pinned = [40] :=
    Lts.exists_run pframeCalls (by decide +kernel)
  obtain ⟨-, -, -, hnres, -⟩ := pageCache_consistent s hrun
  exact ⟨s, hrun, hres, hpin, hnres 200⟩

end

end Weenix.PageCache
