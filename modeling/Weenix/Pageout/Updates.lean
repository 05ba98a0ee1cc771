/-
# What the object layer can do to the state

Every function of `Pageout/Objects.lean` but those that create objects is a sequence of eight kinds
of small updates (`Upd`), given that the state is well-formed (`Wf`).  This is said once here, for
all of them; what a result about the whole system needs of these functions is then a fact about
eight updates.

Two parameters say which updates a function may use.  `P` holds of the objects it may drop
references to: only these lose pages, and only these go away.  `new` is whether it may
enter new frames.

None of the updates touches a process.  The one function that would, `pframe_remove_from_pts`, walks
the list of areas of an object, and in a well-formed state that list is empty: nothing in the kernel
ever puts an area on it.
-/
import Mathlib.Data.List.Nodup
import Weenix.Lib.Yields
import Weenix.Pageout.Calls

namespace Weenix.Pageout

open List Option VmSys

open Relation (ReflTransGen)

variable {new new' : Bool} {free slab : List Nat} {x y : Mmobj} {a k o pf q : Nat}
  {i : Nat × Nat × Nat} {P P' : Nat → Prop} {f : Pframe} {s t u : VmSys}

/-! ## 1. Well-formed states -/

/-- Object, page number and physical page of a frame. -/
def Pframe.ident (f : Pframe) : Nat × Nat × Nat := (f.pfObj, f.pfPagenum, f.pfAddr)

/-- Which page each frame holds, and where. -/
def VmSys.ident (s : VmSys) (pf : Nat) : Option (Nat × Nat × Nat) := (s.pframe pf).map Pframe.ident

/-- The hash, the frames, the free pages and the lists of resident pages agree; and no object has an
area on its list. -/
structure Wf (s : VmSys) : Prop where
  hash : ∀ {o k pf}, s.pframeHash o k = some pf → ∃ a, s.ident pf = some (o, k, a)
  home : ∀ {pf o k a}, s.ident pf = some (o, k, a) → s.pframeHash o k = some pf
  frameLt : ∀ {pf i}, s.ident pf = some i → pf < s.npframe
  addr : ∀ {pf o k a pf' o' k'}, s.ident pf = some (o, k, a) →
    s.ident pf' = some (o', k', a) → pf' = pf
  free : ∀ {pf o k a}, s.ident pf = some (o, k, a) → a ∉ s.freePages
  freeNodup : s.freePages.Nodup
  frameSlab : ∀ pf ∈ s.pframeSlab, pf < s.npframe ∧ s.ident pf = none
  frameSlabNodup : s.pframeSlab.Nodup
  objLt : ∀ {o x}, s.mmobj o = some x → o < s.nmmobj
  objSlab : ∀ o ∈ s.mmobjSlab, o < s.nmmobj ∧ s.mmobj o = none
  objSlabNodup : s.mmobjSlab.Nodup
  res : ∀ {o x pf}, s.mmobj o = some x → pf ∈ x.mmoRespages → ∃ k a, s.ident pf = some (o, k, a)
  resNodup : ∀ {o x}, s.mmobj o = some x → x.mmoRespages.Nodup
  vmas : ∀ {o x l}, s.mmobj o = some x → x.mmoUn = .mmoVmas l → l = []

section
variable {s : VmSys} {pf : Nat} {f f' : Pframe}

theorem ident_of (h : s.pframe pf = some f) : s.ident pf = some f.ident := by
  rw [ident, h]
  rfl

theorem exists_of_ident (h : s.ident pf = some i) : ∃ f, s.pframe pf = some f ∧ f.ident = i := by
  rwa [ident, map_eq_some_iff] at h

theorem ident_setFrame (h : s.pframe pf = some f) (hid : f'.ident = f.ident) :
    (s.setFrame pf f').ident = s.ident := by
  funext q
  rw [ident, ident, setFrame_pframe, update_apply]
  split
  case isTrue heq => rw [heq, h, map_some, map_some, hid]
  case isFalse => rfl

end

/-! ## 2. The updates -/

/-- A frame for page `k` of `o` in the physical page `a`, still to be filled. -/
def newFrame (o k a : Nat) : Pframe := ⟨o, k, a, true, false, 0⟩

def enterFrame (s : VmSys) (o k pf a : Nat) (slab free : List Nat) (x : Mmobj) : VmSys :=
  { s with
    pframeSlab := slab
    freePages := free
    allocList := s.allocList ++ [pf]
    pframe := update s.pframe pf (some (newFrame o k a))
    pframeHash := fun o' k' => if o' = o ∧ k' = k then some pf else s.pframeHash o' k'
    mmobj := update s.mmobj o (some { x with
      mmoRefcount := x.mmoRefcount + 1
      mmoNrespages := x.mmoNrespages + 1
      mmoRespages := pf :: x.mmoRespages }) }

@[simp] theorem enterFrame_pframe (s : VmSys) (o k pf a : Nat) (slab free : List Nat) (x : Mmobj) :
    (enterFrame s o k pf a slab free x).pframe
      = update s.pframe pf (some (newFrame o k a)) := rfl

theorem ident_unlinkFrame: (unlinkFrame s pf f x).ident q = some i ↔
    q ≠ pf ∧ s.ident q = some i := by
  change (update s.pframe pf none q).map Pframe.ident = some i ↔ _
  rw [update_apply]
  split
  case isTrue heq => exact iff_of_false nofun fun h => h.1 heq
  case isFalse hne => exact (and_iff_right hne).symm

theorem ident_enterFrame (hnone : s.ident pf = none) :
    (enterFrame s o k pf a slab free x).ident q = some i ↔
      q = pf ∧ i = (o, k, a) ∨ s.ident q = some i := by
  change (update s.pframe pf _ q).map Pframe.ident = some i ↔ _
  rw [update_apply]
  split
  case isTrue heq =>
    rw [heq, hnone, map_some, some.injEq]
    exact ⟨fun h => .inl ⟨rfl, h.symm⟩, fun h => (h.resolve_right nofun).2.symm⟩
  case isFalse hne => exact ⟨.inr, fun h => h.resolve_left fun h' => hne h'.1⟩

/-- One small update. -/
inductive Upd (P : Nat → Prop) (new : Bool) (s : VmSys) : VmSys → Prop
  | requeue (l : List Nat) : Upd P new s { s with allocList := l }
  | wake : Upd P new s { s with pageoutdAwake := true }
  | flags {pf : Nat} {f f' : Pframe} (hf : s.pframe pf = some f) (hid : f'.ident = f.ident)
      (hbusy : f'.pfBusy = true → f.pfBusy = true) : Upd P new s (s.setFrame pf f')
  | obj {o : Nat} {x x' : Mmobj} (hp : P o) (hx : s.mmobj o = some x)
      (hops : x'.mmoOps = x.mmoOps) (hres : x'.mmoRespages = x.mmoRespages)
      (hun : ∀ l, x'.mmoUn = .mmoVmas l → l = []) : Upd P new s (s.setObj o x')
  | dropObj {o : Nat} {x : Mmobj} (hp : P o) (hx : s.mmobj o = some x) :
      Upd P new s { s with mmobj := update s.mmobj o none, mmobjSlab := o :: s.mmobjSlab }
  | unlink {pf : Nat} {f : Pframe} {x : Mmobj} (hp : P f.pfObj) (hf : s.pframe pf = some f)
      (hx : s.mmobj f.pfObj = some x) : Upd P new s (unlinkFrame s pf f x)
  | enter {o k pf a : Nat} {slab free : List Nat} {x : Mmobj} (hn : new = true)
      (hhash : s.pframeHash o k = none) (hslab : s.pframeSlab = pf :: slab)
      (hfree : s.freePages = a :: free) (hx : s.mmobj o = some x) :
      Upd P new s (enterFrame s o k pf a slab free x)
  | fill {pf : Nat} {f : Pframe} (hf : s.pframe pf = some f) (hbusy : f.pfBusy = true)
      (data : Nat → UInt8) : Upd P new s (s.setPage f.pfAddr data)

/-- Any number of them. -/
abbrev Upds (P : Nat → Prop) (new : Bool) : VmSys → VmSys → Prop := ReflTransGen (Upd P new)

theorem Upd.mono (h : Upd P new s t) (hp : ∀ o, P o → P' o) (hn : new = true → new' = true) :
    Upd P' new' s t := by
  cases h with
  | requeue l => exact .requeue l
  | wake => exact .wake
  | flags hf hid hbusy => exact .flags hf hid hbusy
  | obj ho hx hops hres hun => exact .obj (hp _ ho) hx hops hres hun
  | dropObj ho hx => exact .dropObj (hp _ ho) hx
  | unlink ho hf hx => exact .unlink (hp _ ho) hf hx
  | enter hnew hhash hslab hfree hx => exact .enter (hn hnew) hhash hslab hfree hx
  | fill hf hbusy data => exact .fill hf hbusy data

theorem Upds.mono (h : Upds P new s t) (hp : ∀ o, P o → P' o) (hn : new = true → new' = true) :
    Upds P' new' s t := by
  induction h with
  | refl => exact .refl
  | tail _ hu ih => exact ih.tail (hu.mono hp hn)

/-! ## 3. They keep the state well-formed -/

section
variable {s : VmSys}

/-- Well-formedness reads the hash, the frames, the objects and the free lists. -/
theorem Wf.congr (h : Wf s) (hi : t.ident = s.ident) (hh : t.pframeHash = s.pframeHash)
    (hnf : t.npframe = s.npframe) (hfree : t.freePages = s.freePages)
    (hfs : t.pframeSlab = s.pframeSlab) (hm : t.mmobj = s.mmobj) (hno : t.nmmobj = s.nmmobj)
    (hms : t.mmobjSlab = s.mmobjSlab) : Wf t := by
  constructor <;> simp only [hi, hh, hnf, hfree, hfs, hm, hno, hms]
  · exact h.hash
  · exact h.home
  · exact h.frameLt
  · exact h.addr
  · exact h.free
  · exact h.freeNodup
  · exact h.frameSlab
  · exact h.frameSlabNodup
  · exact h.objLt
  · exact h.objSlab
  · exact h.objSlabNodup
  · exact h.res
  · exact h.resNodup
  · exact h.vmas

theorem Wf.setProc (h : Wf s) (p : Nat) (x : Proc) : Wf (s.setProc p x) :=
  h.congr rfl rfl rfl rfl rfl rfl rfl rfl

section
variable {o : Nat} {x x' : Mmobj}

/-- The parts of well-formedness that are about objects only, when one that is there changes. -/
theorem Wf.objLt_update (h : Wf s) (hx : s.mmobj o = some x)
    (hy : update s.mmobj o (some x') q = some y) : q < s.nmmobj := by
  obtain ⟨rfl, -⟩ | ⟨-, hy⟩ := of_update hy
  · exact h.objLt hx
  · exact h.objLt hy

theorem Wf.objSlab_update (h : Wf s) (hx : s.mmobj o = some x) :
    ∀ q ∈ s.mmobjSlab, q < s.nmmobj ∧ update s.mmobj o (some x') q = none := by
  intro q hq
  obtain ⟨hlt, hnone⟩ := h.objSlab q hq
  have hne : q ≠ o := by
    rintro rfl
    rw [hx] at hnone
    cases hnone
  exact ⟨hlt, (update_of_ne hne ..).trans hnone⟩

theorem Wf.vmas_update (h : Wf s) (hun : ∀ l, x'.mmoUn = .mmoVmas l → l = [])
    {l : List (Option Nat × Vm.Vmarea)} (hy : update s.mmobj o (some x') q = some y)
    (hl : y.mmoUn = .mmoVmas l) : l = [] := by
  obtain ⟨-, hnew⟩ | ⟨-, hy⟩ := of_update hy
  · cases hnew
    exact hun l hl
  · exact h.vmas hy hl

theorem Wf.resNodup_update (h : Wf s) (hres : x'.mmoRespages.Nodup)
    (hy : update s.mmobj o (some x') q = some y) : y.mmoRespages.Nodup := by
  obtain ⟨-, hnew⟩ | ⟨-, hy⟩ := of_update hy
  · cases hnew
    exact hres
  · exact h.resNodup hy

end

theorem Wf.setObj (h : Wf s) {x' : Mmobj} (hx : s.mmobj o = some x)
    (hres : x'.mmoRespages = x.mmoRespages) (hun : ∀ l, x'.mmoUn = .mmoVmas l → l = []) :
    Wf (s.setObj o x') := by
  refine { h with
    objLt := h.objLt_update hx
    objSlab := h.objSlab_update hx
    res := ?_
    resNodup := h.resNodup_update (hres ▸ h.resNodup hx)
    vmas := h.vmas_update hun }
  intro q y pf hy hpf
  obtain ⟨rfl, hnew⟩ | ⟨-, hy⟩ := of_update hy
  · cases hnew
    exact h.res hx (hres ▸ hpf)
  · exact h.res hy hpf

theorem Wf.dropObj (h : Wf s) (hx : s.mmobj o = some x) :
    Wf { s with mmobj := update s.mmobj o none, mmobjSlab := o :: s.mmobjSlab } := by
  have hobj : ∀ {o' y}, update s.mmobj o none o' = some y → s.mmobj o' = some y := by
    intro o' y hy
    obtain ⟨-, hnone⟩ | ⟨-, hy⟩ := of_update hy
    · cases hnone
    · exact hy
  refine { h with
    objLt hy := h.objLt (hobj hy)
    objSlab := ?_
    objSlabNodup := ?_
    res hy := h.res (hobj hy)
    resNodup hy := h.resNodup (hobj hy)
    vmas hy := h.vmas (hobj hy) }
  · intro o' ho'
    rw [mem_cons] at ho'
    by_cases heq : o' = o
    · subst heq
      exact ⟨h.objLt hx, update_self ..⟩
    · obtain ⟨hlt, hnone⟩ := h.objSlab o' (ho'.resolve_left heq)
      exact ⟨hlt, (update_of_ne heq ..).trans hnone⟩
  · refine nodup_cons.mpr ⟨fun ho => ?_, h.objSlabNodup⟩
    rw [(h.objSlab o ho).2] at hx
    cases hx

theorem Wf.create (h : Wf s) {rest : List Nat} (hslab : s.mmobjSlab = o :: rest)
    (hres : x.mmoRespages = [])
    (hun : ∀ l, x.mmoUn = .mmoVmas l → l = []) : Wf { s.setObj o x with mmobjSlab := rest } := by
  have hnodup := h.objSlabNodup
  rw [hslab, nodup_cons] at hnodup
  obtain ⟨hlt, hnone⟩ := h.objSlab o (hslab ▸ .head _)
  refine { h with
    objLt := ?_, objSlab := ?_, objSlabNodup := hnodup.2, res := ?_, resNodup := ?_, vmas :=
      h.vmas_update hun }
  · intro o' y hy
    obtain ⟨rfl, -⟩ | ⟨-, hy⟩ := of_update hy
    · exact hlt
    · exact h.objLt hy
  · intro o' ho'
    obtain ⟨hlt', hnone'⟩ := h.objSlab o' (hslab ▸ .tail _ ho')
    have hne : o' ≠ o := by
      rintro rfl
      exact hnodup.1 ho'
    exact ⟨hlt', (update_of_ne hne ..).trans hnone'⟩
  · intro o' y pf hy hpf
    obtain ⟨rfl, hnew⟩ | ⟨-, hy⟩ := of_update hy
    · cases hnew
      rw [hres] at hpf
      cases hpf
    · exact h.res hy hpf
  · intro o' y hy
    obtain ⟨rfl, hnew⟩ | ⟨-, hy⟩ := of_update hy
    · cases hnew
      rw [hres]
      exact .nil
    · exact h.resNodup hy

theorem Wf.unlink (h : Wf s) (hf : s.pframe pf = some f)
    (hx : s.mmobj f.pfObj = some x) : Wf (unlinkFrame s pf f x) := by
  have hid := ident_of hf
  constructor
  case objLt => exact h.objLt_update hx
  case objSlab => exact h.objSlab_update hx
  case objSlabNodup => exact h.objSlabNodup
  case vmas =>
    refine h.vmas_update ?_
    exact fun _ hl => h.vmas hx hl
  case frameLt => exact fun hq => h.frameLt (ident_unlinkFrame.mp hq).2
  case addr => exact fun hq hq' => h.addr (ident_unlinkFrame.mp hq).2 (ident_unlinkFrame.mp hq').2
  case freeNodup => exact nodup_cons.mpr ⟨h.free hid, h.freeNodup⟩
  case hash =>
    intro o k q hq
    simp only [unlinkFrame] at hq
    split at hq
    case isTrue => cases hq
    case isFalse hother =>
      obtain ⟨a, ha⟩ := h.hash hq
      refine ⟨a, ident_unlinkFrame.mpr ⟨?_, ha⟩⟩
      rintro rfl
      rw [hid] at ha
      cases ha
      exact hother ⟨rfl, rfl, hq⟩
  case home =>
    intro q o k a hq
    obtain ⟨hne, hq⟩ := ident_unlinkFrame.mp hq
    have hhash := h.home hq
    simp only [unlinkFrame]
    rw [if_neg, hhash]
    rintro ⟨-, -, hpf⟩
    rw [hhash] at hpf
    exact hne (some.inj hpf)
  case free =>
    intro q o k a hq ha
    obtain ⟨hne, hq⟩ := ident_unlinkFrame.mp hq
    obtain rfl | ha := mem_cons.mp ha
    · exact hne (h.addr hid hq)
    · exact h.free hq ha
  case frameSlab =>
    intro q hq
    refine ⟨?_, eq_none_iff_forall_ne_some.mpr fun i hi => ?_⟩
    · obtain rfl | hq := mem_cons.mp hq
      · exact h.frameLt hid
      · exact (h.frameSlab q hq).1
    · obtain ⟨hne, hold⟩ := ident_unlinkFrame.mp hi
      rw [(h.frameSlab q ((mem_cons.mp hq).resolve_left hne)).2] at hold
      cases hold
  case frameSlabNodup =>
    refine nodup_cons.mpr ⟨fun hmem => ?_, h.frameSlabNodup⟩
    rw [(h.frameSlab pf hmem).2] at hid
    cases hid
  case res =>
    intro o y q hy hq
    change update s.mmobj f.pfObj _ o = some y at hy
    obtain ⟨rfl, hnew⟩ | ⟨hne, hy⟩ := of_update hy
    · cases hnew
      change q ∈ x.mmoRespages.erase pf at hq
      rw [(h.resNodup hx).mem_erase_iff] at hq
      obtain ⟨k, a, hk⟩ := h.res hx hq.2
      exact ⟨k, a, ident_unlinkFrame.mpr ⟨hq.1, hk⟩⟩
    · obtain ⟨k, a, hk⟩ := h.res hy hq
      refine ⟨k, a, ident_unlinkFrame.mpr ⟨?_, hk⟩⟩
      rintro rfl
      rw [hid] at hk
      cases hk
      exact hne rfl
  case resNodup => exact h.resNodup_update ((h.resNodup hx).erase pf)

theorem Wf.enter (h : Wf s) (hhash : s.pframeHash o k = none) (hslab : s.pframeSlab = pf :: slab)
    (hfree : s.freePages = a :: free) (hx : s.mmobj o = some x) :
    Wf (enterFrame s o k pf a slab free x) := by
  obtain ⟨hlt, hnone⟩ := h.frameSlab pf (hslab ▸ .head _)
  have hslabNodup := h.frameSlabNodup
  rw [hslab, nodup_cons] at hslabNodup
  have hfreeNodup := h.freeNodup
  rw [hfree, nodup_cons] at hfreeNodup
  have hident : ∀ {q i}, (enterFrame s o k pf a slab free x).ident q = some i ↔
      q = pf ∧ i = (o, k, a) ∨ s.ident q = some i := ident_enterFrame hnone
  constructor
  case objLt => exact h.objLt_update hx
  case objSlab => exact h.objSlab_update hx
  case objSlabNodup => exact h.objSlabNodup
  case vmas =>
    refine h.vmas_update ?_
    exact fun _ hl => h.vmas hx hl
  case freeNodup => exact hfreeNodup.2
  case frameSlabNodup => exact hslabNodup.2
  case hash =>
    intro o' k' q hq
    simp only [enterFrame] at hq
    split at hq
    case isTrue heq =>
      cases hq
      obtain ⟨rfl, rfl⟩ := heq
      exact ⟨a, hident.mpr (.inl ⟨rfl, rfl⟩)⟩
    case isFalse =>
      obtain ⟨a', ha'⟩ := h.hash hq
      exact ⟨a', hident.mpr (.inr ha')⟩
  case home =>
    intro q o' k' a' hq
    simp only [enterFrame]
    obtain ⟨rfl, hi⟩ | hold := hident.mp hq
    · cases hi
      exact if_pos ⟨rfl, rfl⟩
    · have hhome := h.home hold
      rw [if_neg, hhome]
      rintro ⟨rfl, rfl⟩
      rw [hhome] at hhash
      cases hhash
  case frameLt =>
    intro q i hq
    obtain ⟨rfl, -⟩ | hq := hident.mp hq
    · exact hlt
    · exact h.frameLt hq
  case addr =>
    intro q o₁ k₁ a₁ q' o₂ k₂ hq hq'
    have ha : a ∈ s.freePages := hfree ▸ .head _
    obtain ⟨rfl, hi⟩ | hold := hident.mp hq <;> obtain ⟨rfl, hi'⟩ | hold' := hident.mp hq'
    · rfl
    · cases hi
      exact absurd ha (h.free hold')
    · cases hi'
      exact absurd ha (h.free hold)
    · exact h.addr hold hold'
  case free =>
    intro q o' k' a' hq ha'
    obtain ⟨rfl, hi⟩ | hq := hident.mp hq
    · cases hi
      exact hfreeNodup.1 ha'
    · exact h.free hq (hfree ▸ .tail _ ha')
  case frameSlab =>
    intro q hq
    obtain ⟨hqlt, hqnone⟩ := h.frameSlab q (hslab ▸ .tail _ hq)
    refine ⟨hqlt, eq_none_iff_forall_ne_some.mpr fun i hi => ?_⟩
    obtain ⟨rfl, -⟩ | hold := hident.mp hi
    · exact hslabNodup.1 hq
    · rw [hqnone] at hold
      cases hold
  case res =>
    intro o' y q hy hq
    change update s.mmobj o _ o' = some y at hy
    obtain ⟨rfl, hnew⟩ | ⟨-, hy⟩ := of_update hy
    · cases hnew
      obtain rfl | hq := mem_cons.mp hq
      · exact ⟨k, a, hident.mpr (.inl ⟨rfl, rfl⟩)⟩
      · obtain ⟨k', a', hk'⟩ := h.res hx hq
        exact ⟨k', a', hident.mpr (.inr hk')⟩
    · obtain ⟨k', a', hk'⟩ := h.res hy hq
      exact ⟨k', a', hident.mpr (.inr hk')⟩
  case resNodup =>
    refine h.resNodup_update (nodup_cons.mpr ⟨fun hmem => ?_, h.resNodup hx⟩)
    obtain ⟨k', a', hk'⟩ := h.res hx hmem
    rw [hnone] at hk'
    cases hk'

end

/-- **An update keeps the state well-formed.** -/
theorem Upd.wf (h : Upd P new s t) (hw : Wf s) : Wf t := by
  cases h with
  | requeue | wake | fill => exact hw.congr rfl rfl rfl rfl rfl rfl rfl rfl
  | flags hf hid _ => exact hw.congr (ident_setFrame hf hid) rfl rfl rfl rfl rfl rfl rfl
  | obj _ hx _ hres hun => exact hw.setObj hx hres hun
  | dropObj _ hx => exact hw.dropObj hx
  | unlink _ hf hx => exact hw.unlink hf hx
  | enter _ hhash hslab hfree hx => exact hw.enter hhash hslab hfree hx

theorem Upds.wf (h : Upds P new s t) (hw : Wf s) : Wf t := by
  induction h with
  | refl => exact hw
  | tail _ hu ih => exact hu.wf ih

/-! ## 4. What they leave alone -/

/-- **No update touches a process.** -/
theorem Upd.proc (h : Upd P new s t) : t.proc = s.proc := by
  cases h <;> rfl

theorem Upds.proc (h : Upds P new s t) : t.proc = s.proc := by
  induction h with
  | refl => rfl
  | tail _ hu ih => exact hu.proc.trans ih

theorem Upds.pte (h : Upds P new s t) : t.pte = s.pte := by
  unfold VmSys.pte
  rw [h.proc]

/-- Pages are given back under the page tables there are. -/
theorem Upds.released (h : Upds P new s t) :
    ∃ l, t.released = l ++ s.released ∧ ∀ e ∈ l, e.2 = s.pte := by
  induction h with
  | refl => exact ⟨[], rfl, nofun⟩
  | @tail t u hst hu ih =>
    obtain ⟨l, hl, hpte⟩ := ih
    cases hu with
    | @unlink pf f x =>
      refine ⟨(f.pfAddr, t.pte) :: l, ?_, ?_⟩
      · change _ :: t.released = _
        rw [hl, cons_append]
      · intro e he
        obtain rfl | he := mem_cons.mp he
        · exact Upds.pte hst
        · exact hpte e he
    | _ => exact ⟨l, hl, hpte⟩

/-- Without new frames, a frame that is there was there, for the same page. -/
theorem Upds.ident_old (h : Upds P false s t) (hi : t.ident pf = some i) : s.ident pf = some i := by
  induction h with
  | refl => exact hi
  | @tail t u _ hu ih =>
    refine ih ?_
    cases hu with
    | requeue | wake | fill | obj | dropObj => exact hi
    | flags hf hid _ => rwa [ident_setFrame hf hid] at hi
    | unlink => exact (ident_unlinkFrame.mp hi).2
    | enter hn => cases hn

/-! ## 5. The pages they give back -/

section
variable {R R' : Nat → Nat → Prop}

/-- The pages given back from `s` to `t`: each under the page tables of `s`, and each of a frame
of `s` for which, and for whose object, `R` holds. -/
def Frees (R : Nat → Nat → Prop) (s t : VmSys) : Prop :=
  ∃ l, t.released = l ++ s.released ∧
    ∀ e ∈ l, e.2 = s.pte ∧ ∃ pf o k, s.ident pf = some (o, k, e.1) ∧ R pf o

theorem Frees.of_eq (h : t.released = s.released) : Frees R s t :=
  ⟨[], h, nofun⟩

theorem Frees.mono (h : Frees R s t) (hR : ∀ pf o, R pf o → R' pf o) : Frees R' s t := by
  obtain ⟨l, hl, hall⟩ := h
  refine ⟨l, hl, fun e he => ?_⟩
  obtain ⟨hpte, pf, o, k, hid, hr⟩ := hall e he
  exact ⟨hpte, pf, o, k, hid, hR pf o hr⟩

/-- From a state with the page tables of the first and no frames but those of the first. -/
theorem Frees.trans (h : Frees R s t) (h' : Frees R t u) (hpte : t.pte = s.pte)
    (hold : ∀ {pf i}, t.ident pf = some i → s.ident pf = some i) : Frees R s u := by
  obtain ⟨l, hl, hall⟩ := h
  obtain ⟨l', hl', hall'⟩ := h'
  refine ⟨l' ++ l, by rw [hl', hl, append_assoc], fun e he => ?_⟩
  obtain he | he := mem_append.mp he
  · obtain ⟨hpte', pf, o, k, hid, hr⟩ := hall' e he
    exact ⟨hpte'.trans hpte, pf, o, k, hold hid, hr⟩
  · exact hall e he

theorem Upd.frees (h : Upd P new s t) : Frees (fun _ => P) s t := by
  cases h with
  | @unlink pf f _ hp hf _ =>
    refine ⟨[(f.pfAddr, s.pte)], rfl, fun e he => ?_⟩
    obtain rfl := mem_singleton.mp he
    exact ⟨rfl, pf, f.pfObj, f.pfPagenum, ident_of hf, hp⟩
  | _ => exact .of_eq rfl

theorem Upds.frees (h : Upds P false s t) : Frees (fun _ => P) s t := by
  induction h with
  | refl => exact .of_eq rfl
  | tail hst hu ih => exact ih.trans hu.frees (Upds.pte hst) (Upds.ident_old hst)

/-- Updates that change no object give no page back. -/
theorem Upds.released_eq (h : Upds (fun _ => False) new s t) : t.released = s.released := by
  induction h with
  | refl => rfl
  | tail _ hu ih =>
    refine Eq.trans ?_ ih
    cases hu with
    | unlink hp => exact hp.elim
    | _ => rfl

end

end Weenix.Pageout
