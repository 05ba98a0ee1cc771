/-
# A page request on a chain of shadow objects (`vm/shadow.c`, `vm/anon.c`, `mm/pframe.c`)

A shadow object leaves the pages it does not have to the object it shadows.  `Path` follows
`mmo_shadowed` from a shadow object down to the object at the end of its chain.

`pframe_get` on the object at the top gives a frame of that object which holds what the first object
below has for the page, or, if none has it, what the last object's `fillpage` makes of it
(`chain_resolution`).  The frames that were there stay as they are, and so do their contents.

The walk of `shadow_fillpage` starts after a frame for the top object has been entered, and the
nested call for the object at the end enters another one.  Neither shows in the rest of the chain,
because a chain does not come back to an object (`Path.notMem`).
-/
import Mathlib.Data.List.Perm.Subperm
import Weenix.Pageout.CallsSpec

namespace Weenix.Pageout

open List Option VmSys

open Weenix.Vm (mapPrivate)

variable {x : Mmobj} {b o q : Nat} {f : Pframe} {u v : VmSys}

/-! ## 1. Chains -/

/-- `mmo_shadowed` and `mmo_un` of a shadow object. -/
def VmSys.shadowLink (s : VmSys) (o : Nat) : Option (Option Nat × MmoUn) :=
  (s.mmobj o).bind fun x => if x.mmoOps = .shadow then some (x.mmoShadowed, x.mmoUn) else none

/-- There is such an object, and it is not a shadow object. -/
def VmSys.solid (s : VmSys) (o : Nat) : Bool := (s.mmobj o).any (·.mmoOps != .shadow)

/-- From `o` the pointers `mmo_shadowed` lead through the objects of the list, the last of which is
the first that is no shadow object. -/
def Path (s : VmSys) : Nat → List Nat → Prop
  | o, [] => s.solid o = true
  | o, o' :: rest => (∃ un, s.shadowLink o = some (some o', un)) ∧ Path s o' rest

section
variable {s t : VmSys} {o : Nat} {l l' : List Nat}

theorem shadowLink_of (h : s.mmobj o = some x) (hops : x.mmoOps = .shadow) :
    s.shadowLink o = some (x.mmoShadowed, x.mmoUn) := by
  rw [shadowLink, h, bind_some, if_pos hops]

theorem exists_of_shadowLink {sh : Option Nat} {un : MmoUn} (h : s.shadowLink o = some (sh, un)) :
    ∃ x, s.mmobj o = some x ∧ x.mmoOps = .shadow ∧ x.mmoShadowed = sh ∧ x.mmoUn = un := by
  rw [shadowLink, bind_eq_some_iff] at h
  obtain ⟨x, hx, h⟩ := h
  split at h
  case isTrue hops =>
    cases h
    exact ⟨x, hx, hops, rfl, rfl⟩
  case isFalse => cases h

theorem solid_iff : s.solid o = true ↔ ∃ x, s.mmobj o = some x ∧ x.mmoOps ≠ .shadow := by
  simp [solid, Option.any_eq_true]

theorem not_solid_of_shadowLink {r : Option Nat × MmoUn} (h : s.shadowLink o = some r) :
    ¬ s.solid o = true := by
  intro hsolid
  obtain ⟨x, hx, hops, -⟩ := exists_of_shadowLink h
  obtain ⟨y, hy, hne⟩ := solid_iff.mp hsolid
  rw [hx] at hy
  cases hy
  exact hne hops

theorem Path.unique : ∀ {o : Nat} {l l' : List Nat}, Path s o l → Path s o l' → l = l'
  | _, [], [], _, _ => rfl
  | _, [], _ :: _, h, h' => absurd h (not_solid_of_shadowLink h'.1.choose_spec)
  | _, _ :: _, [], h, h' => absurd h' (not_solid_of_shadowLink h.1.choose_spec)
  | _, o' :: _, o'' :: _, h, h' => by
    obtain ⟨⟨un, hl⟩, hrest⟩ := h
    obtain ⟨⟨un', hl'⟩, hrest'⟩ := h'
    rw [hl] at hl'
    cases hl'
    rw [Path.unique hrest hrest']

/-- Every object on the way has its own way down, which is shorter. -/
theorem Path.tail_of_mem : ∀ {o : Nat} {l : List Nat}, Path s o l → ∀ o' ∈ l,
    ∃ l', Path s o' l' ∧ l'.length < l.length ∧ ∀ q ∈ l', q ∈ l
  | _, [], _, _, h => nomatch h
  | _, o₁ :: rest, h, o', hmem => by
    obtain rfl | hmem := mem_cons.mp hmem
    · exact ⟨rest, h.2, Nat.lt_succ_self _, fun q hq => .tail _ hq⟩
    · obtain ⟨l', hl', hlt, hsub⟩ := h.2.tail_of_mem o' hmem
      exact ⟨l', hl', Nat.lt_succ_of_lt hlt, fun q hq => .tail _ (hsub q hq)⟩

/-- **A chain does not come back.** -/
theorem Path.notMem (h : Path s o l) : o ∉ l := by
  intro hmem
  obtain ⟨l', hl', hlt, -⟩ := h.tail_of_mem o hmem
  rw [hl'.unique h] at hlt
  exact lt_irrefl _ hlt

theorem Path.nodup : ∀ {o : Nat} {l : List Nat}, Path s o l → l.Nodup
  | _, [], _ => .nil
  | _, _ :: _, h => nodup_cons.mpr ⟨h.2.notMem, h.2.nodup⟩

theorem Path.exists : ∀ {o : Nat} {l : List Nat}, Path s o l → ∃ x, s.mmobj o = some x
  | _, [], h => (solid_iff.mp h).imp fun _ hx => hx.1
  | _, _ :: _, h => (exists_of_shadowLink h.1.choose_spec).imp fun _ hx => hx.1

theorem Path.solid_last : ∀ {o : Nat} {l : List Nat}, Path s o l → (o :: l).getLast? = some b →
    s.solid b = true
  | _, [], h, hlast => some.inj hlast ▸ h
  | _, _ :: _, h, hlast => h.2.solid_last hlast

theorem Path.length_le (hw : Wf s) (h : Path s o l) : l.length ≤ s.nmmobj := by
  have hsub : l ⊆ range s.nmmobj := by
    intro q hq
    obtain ⟨l', hl', -⟩ := h.tail_of_mem q hq
    obtain ⟨x, hx⟩ := hl'.exists
    exact mem_range.mpr (hw.objLt hx)
  have := (h.nodup.subperm hsub).length_le
  rwa [length_range] at this

theorem Path.congr : ∀ {o : Nat} {l : List Nat}, Path s o l →
    (∀ q ∈ o :: l, t.shadowLink q = s.shadowLink q ∧ t.solid q = s.solid q) → Path t o l
  | o, [], h, hsame => (hsame o (mem_singleton_self o)).2.trans h
  | o, _ :: _, h, hsame => by
    obtain ⟨⟨un, hlink⟩, hrest⟩ := h
    refine ⟨⟨un, ?_⟩, hrest.congr fun q hq => hsame q (.tail _ hq)⟩
    rw [(hsame o (.head _)).1, hlink]

end

/-! ## 2. Entering a frame -/

/-- What page `k` of `o` holds, if it is resident. -/
def VmSys.holds (s : VmSys) (o k : Nat) : Option (Nat → UInt8) :=
  (s.pframeHash o k).bind fun pf => (s.pframe pf).map fun f => s.page f.pfAddr

/-- `pf` is now the frame of page `k` of `o` and holds `data`; what was resident in `s` is
as it was. -/
structure Resolved (s t : VmSys) (o k pf : Nat) (data : Nat → UInt8) : Prop where
  hash : t.pframeHash o k = some pf
  frame : ∃ f, t.pframe pf = some f ∧ f.pfObj = o ∧ f.pfPagenum = k ∧ f.pfBusy = false ∧
    t.page f.pfAddr = data
  hashes : ∀ {o' k' q}, s.pframeHash o' k' = some q → t.pframeHash o' k' = some q
  old : ∀ {q f}, s.pframe q = some f → t.pframe q = some f
  kept : ∀ {q f}, s.pframe q = some f → t.page f.pfAddr = s.page f.pfAddr

/-- What the `fillpage` of an object that is no shadow object puts into a page; `disk` is what a
file has there. -/
def fillData (ops : MmobjOps) (disk : Nat → UInt8) : Nat → UInt8 :=
  if ops = .anon then fun _ => 0 else disk

section
variable {s t : VmSys} {o k pf a : Nat} {slab free : List Nat} {x : Mmobj}

theorem mmobjRef_eq (hx : s.mmobj o = some x) (hpos : 0 < x.mmoRefcount) :
    mmobjRef s o = .ok (s.setObj o { x with mmoRefcount := x.mmoRefcount + 1 }) := by
  rw [mmobjRef, theObj_eq_ok.mpr hx, ok_bind, kassert_of (decide_eq_true hpos)]
  rfl

theorem enterFrame_self : (enterFrame s o k pf a slab free x).pframe pf = some (newFrame o k a) :=
  update_self ..

theorem filled_eq (hf : t.pframe pf = some f) (data : Nat → UInt8) :
    filled t pf data = .ok ((t.setPage f.pfAddr data).setFrame pf { f with pfBusy := false }) := by
  have hf' : (t.setPage f.pfAddr data).pframe pf = some f := hf
  rw [filled, theFrame_eq_ok.mpr hf, ok_bind, setBusy, theFrame_eq_ok.mpr hf']
  rfl

theorem enterFrame_hash_self : (enterFrame s o k pf a slab free x).pframeHash o k = some pf :=
  if_pos ⟨rfl, rfl⟩

theorem enterFrame_hash (hmiss : s.pframeHash o k = none) {o' k' : Nat}
    (h : s.pframeHash o' k' = some q) :
    (enterFrame s o k pf a slab free x).pframeHash o' k' = some q := by
  refine (if_neg ?_).trans h
  rintro ⟨rfl, rfl⟩
  rw [hmiss] at h
  cases h

theorem enterFrame_shadowLink (hx : s.mmobj o = some x) (q : Nat) :
    (enterFrame s o k pf a slab free x).shadowLink q = s.shadowLink q ∧
      (enterFrame s o k pf a slab free x).solid q = s.solid q := by
  rw [shadowLink, solid, shadowLink, solid]
  simp only [enterFrame]
  by_cases hq : q = o
  · subst hq
    rw [update_self, hx]
    exact ⟨rfl, rfl⟩
  · rw [update_of_ne hq]
    exact ⟨rfl, rfl⟩

theorem enterFrame_hash_other (hq : q ≠ o) (k' : Nat) :
    (enterFrame s o k pf a slab free x).pframeHash q k' = s.pframeHash q k' :=
  if_neg fun h => hq h.1

variable (hw : Wf s) (hslab : s.pframeSlab = pf :: slab)
  (hfree : s.freePages = a :: free)
include hslab hfree

theorem pframeAlloc_eq (k : Nat) (hx : s.mmobj o = some x) (hpos : 0 < x.mmoRefcount) :
    ∃ t, pframeAlloc s o k = .ok (t, pf) ∧
      setBusy t pf true = .ok (enterFrame s o k pf a slab free x) := by
  refine ⟨{ enterFrame s o k pf a slab free x with
    pframe := update s.pframe pf (some ⟨o, k, a, false, false, 0⟩) }, ?_, ?_⟩
  · rw [pframeAlloc, hslab, hfree]
    dsimp only
    rw [mmobjRef_eq _ hpos]
    · rw [ok_bind, theObj_eq_ok.mpr (update_self ..), ok_bind]
      simp only [setObj, update_idem, enterFrame, pure_eq_ok]
    · exact hx
  · rw [setBusy, theFrame_eq_ok.mpr (update_self ..), ok_bind]
    simp only [setFrame, update_idem, enterFrame, newFrame, pure_eq_ok]

/-- The steps from a page that is not resident to `fillpage`. -/
theorem pframeGet_miss (disk : Nat → UInt8) (hmiss : s.pframeHash o k = none)
    (hx : s.mmobj o = some x)
    (hpos : 0 < x.mmoRefcount) :
    ∃ t, setBusy t pf true = .ok (enterFrame s o k pf a slab free x) ∧
      ∀ fuel, pframeGet disk (fuel + 1) s o k = pframeFill (pframeGet disk fuel) disk t o k pf := by
  obtain ⟨t, halloc, hbusy⟩ := pframeAlloc_eq hslab hfree k hx hpos
  refine ⟨t, hbusy, fun fuel => ?_⟩
  have hneeded : pageoutdNeeded s = false := by rw [pageoutdNeeded, hfree]; rfl
  rw [pframeGet, pframeGetResident, hmiss]
  rw [ok_bind]
  dsimp only
  rw [hneeded, if_neg Bool.false_ne_true, halloc]
  rfl
include hw

/-- A new frame is not one that was there, and neither is its page. -/
theorem Wf.fresh (hq : s.pframe q = some f) : q ≠ pf ∧ f.pfAddr ≠ a := by
  constructor
  · rintro rfl
    have hnone := (hw.frameSlab q (hslab ▸ .head _)).2
    rw [ident_of hq] at hnone
    cases hnone
  · rintro rfl
    exact hw.free (ident_of hq) (hfree ▸ .head _)

/-- The entered frame gets its contents, after what was resident has stayed as it was. -/
theorem Resolved.fill (hhash : u.pframeHash o k = some pf)
    (hframe : u.pframe pf = some (newFrame o k a))
    (hhashes : ∀ {o' k' q}, s.pframeHash o' k' = some q → u.pframeHash o' k' = some q)
    (hold : ∀ {q f}, s.pframe q = some f → u.pframe q = some f)
    (hkept : ∀ {q f}, s.pframe q = some f → u.page f.pfAddr = s.page f.pfAddr)
    (data : Nat → UInt8) :
    ∃ v, filled u pf data = .ok v ∧ Resolved s v o k pf data ∧
      v.pframe pf = some { newFrame o k a with pfBusy := false } := by
  refine ⟨_, filled_eq hframe data, ⟨hhash, ⟨_, update_self .., rfl, rfl, rfl, ?_⟩, hhashes,
    fun hq => ?_, fun hq => ?_⟩, update_self ..⟩
  · exact update_self ..
  · exact (update_of_ne (hw.fresh hslab hfree hq).1 ..).trans (hold hq)
  · exact (update_of_ne (hw.fresh hslab hfree hq).2 ..).trans (hkept hq)

theorem enterFrame_old (hq : s.pframe q = some f) :
    (enterFrame s o k pf a slab free x).pframe q = some f :=
  (update_of_ne (hw.fresh hslab hfree hq).1 ..).trans hq

theorem Resolved.fill_entered (hmiss : s.pframeHash o k = none)
    (hu : Requeued (enterFrame s o k pf a slab free x) u) (data : Nat → UInt8) :
    ∃ v, filled u pf data = .ok v ∧ Resolved s v o k pf data ∧
      v.pframe pf = some { newFrame o k a with pfBusy := false } := by
  obtain ⟨l, rfl⟩ := hu
  have hhash : (enterFrame s o k pf a slab free x).pframeHash o k = some pf := enterFrame_hash_self
  have hframe : (enterFrame s o k pf a slab free x).pframe pf = some (newFrame o k a) :=
    enterFrame_self
  have hhashes : ∀ {o' k' q}, s.pframeHash o' k' = some q →
      (enterFrame s o k pf a slab free x).pframeHash o' k' = some q := enterFrame_hash hmiss
  have hold : ∀ {q f}, s.pframe q = some f →
      (enterFrame s o k pf a slab free x).pframe q = some f := enterFrame_old hw hslab hfree
  exact Resolved.fill (u := { enterFrame s o k pf a slab free x with allocList := l })
    hw hslab hfree
    hhash hframe hhashes hold (fun _ => rfl) data

/-- **A page of an object that is no shadow object.** -/
theorem pframeGet_solid (disk : Nat → UInt8) (hmiss : s.pframeHash o k = none)
    (hx : s.mmobj o = some x)
    (hpos : 0 < x.mmoRefcount) (hops : x.mmoOps ≠ .shadow) :
    ∃ t, (∀ fuel, pframeGet disk (fuel + 1) s o k = .ok (t, some pf)) ∧
      Resolved s t o k pf (fillData x.mmoOps disk) := by
  obtain ⟨t, hbusy, hget⟩ := pframeGet_miss hslab hfree disk hmiss hx hpos
  have hobj : (enterFrame s o k pf a slab free x).theObj o = .ok { x with
      mmoRefcount := x.mmoRefcount + 1
      mmoNrespages := x.mmoNrespages + 1
      mmoRespages := pf :: x.mmoRespages } := theObj_eq_ok.mpr (update_self ..)
  cases hkind : x.mmoOps with
  | shadow => exact absurd hkind hops
  | vnode =>
    obtain ⟨v, hfill, hres, -⟩ := Resolved.fill_entered hw hslab hfree hmiss
      (Requeued.refl (enterFrame s o k pf a slab free x)) disk
    refine ⟨v, fun fuel => ?_, hres⟩
    rw [hget, pframeFill, hbusy, ok_bind, hobj, ok_bind]
    rw [hkind]
    rw [hfill]
    rfl
  | anon =>
    obtain ⟨u, hres', hu⟩ : ∃ u, pframeGetResident (enterFrame s o k pf a slab free x) o k =
        .ok (u, some pf) ∧ Requeued (enterFrame s o k pf a slab free x) u := by
      rw [pframeGetResident, enterFrame_hash_self]
      dsimp only
      rw [theFrame_eq_ok.mpr enterFrame_self]
      exact ⟨_, rfl, ⟨_, rfl⟩⟩
    obtain ⟨v, hfill, hres, hv⟩ := Resolved.fill_entered hw hslab hfree hmiss hu fun _ => 0
    refine ⟨({ v with allocList := v.allocList.erase pf } : VmSys).setFrame pf
      { newFrame o k a with pfBusy := false, pfPincount := 1 }, fun fuel => ?_, ?_⟩
    · rw [hget, pframeFill, hbusy, ok_bind, hobj, ok_bind]
      rw [hkind]
      rw [hres', ok_bind]
      dsimp only
      rw [hfill, ok_bind, pframePin, theFrame_eq_ok.mpr hv]
      rfl
    · obtain ⟨f, hf, -, -, -, hdata⟩ := hres.frame
      rw [hv] at hf
      cases hf
      refine ⟨hres.hash, ⟨_, update_self .., rfl, rfl, rfl, hdata⟩, hres.hashes,
        fun hq => ?_, hres.kept⟩
      exact (update_of_ne (hw.fresh hslab hfree hq).1 ..).trans (hres.old hq)

end

/-! ## 3. The walk -/

section
variable {s : VmSys} {b k : Nat} {y : Mmobj}

theorem shadowWalk_found (hw : Wf s) {src : Nat} (hsrc : s.pframeHash o k = some src) (fuel : Nat)
    (temp : Option Nat) :
    ∃ t, shadowWalk k (fuel + 1) s (some o) temp = .ok (t, some src, temp) ∧ Requeued s t := by
  obtain ⟨a, hident⟩ := hw.hash hsrc
  obtain ⟨f, hf, -⟩ := exists_of_ident hident
  refine ⟨if f.pfPincount = 0 then { s with allocList := s.allocList.erase src ++ [src] }
    else s, ?_, ?_⟩
  · rw [shadowWalk, pframeGetResident, hsrc]
    dsimp only
    rw [theFrame_eq_ok.mpr hf]
    rfl
  · split
    · exact ⟨_, rfl⟩
    · exact .refl s

theorem shadowWalk_next (hnone : s.pframeHash o k = none) (hx : s.mmobj o = some x) (fuel : Nat)
    (temp : Option Nat) :
    shadowWalk k (fuel + 1) s (some o) temp = shadowWalk k fuel s x.mmoShadowed (some o) := by
  rw [shadowWalk, pframeGetResident, hnone]
  rw [ok_bind]
  dsimp only
  rw [theObj_eq_ok.mpr hx]
  rfl

/-- The frame the walk finds, and the object it ends at if it finds none. -/
theorem shadowWalk_path (hw : Wf s) (hy : s.mmobj b = some y) (hend : y.mmoShadowed = none) :
    ∀ {o : Nat} {l : List Nat} {fuel : Nat} (temp : Option Nat), Path s o l →
      (o :: l).getLast? = some b → l.length < fuel →
      ((o :: l).findSome? (s.pframeHash · k) = none →
        shadowWalk k fuel s (some o) temp = .ok (s, none, some b)) ∧
      ∀ src, (o :: l).findSome? (s.pframeHash · k) = some src →
        ∃ t temp', shadowWalk k fuel s (some o) temp = .ok (t, some src, temp') ∧ Requeued s t := by
  intro o l
  induction l generalizing o with
  | nil =>
    intro fuel temp _ hlast hfuel
    obtain rfl : o = b := some.inj hlast
    obtain ⟨fuel, rfl⟩ := Nat.exists_eq_add_one_of_ne_zero (Nat.ne_zero_of_lt hfuel)
    constructor
    · intro hnone
      rw [shadowWalk_next (findSome?_eq_none_iff.mp hnone o (.head _)) hy, hend, shadowWalk]
    · intro src hsrc
      rw [findSome?_singleton] at hsrc
      obtain ⟨t, ht, hreq⟩ := shadowWalk_found hw hsrc fuel temp
      exact ⟨t, temp, ht, hreq⟩
  | cons o' rest ih =>
    intro fuel temp hpath hlast hfuel
    obtain ⟨fuel, rfl⟩ := Nat.exists_eq_add_one_of_ne_zero (Nat.ne_zero_of_lt hfuel)
    obtain ⟨⟨un, hlink⟩, hrest⟩ := hpath
    obtain ⟨x, hx, -, hsh, -⟩ := exists_of_shadowLink hlink
    cases hhash : s.pframeHash o k with
    | some src' =>
      rw [findSome?_cons, hhash]
      refine ⟨by simp, fun src hsrc => ?_⟩
      cases hsrc
      obtain ⟨t, ht, hreq⟩ := shadowWalk_found hw hhash fuel temp
      exact ⟨t, temp, ht, hreq⟩
    | none =>
      rw [findSome?_cons, hhash, shadowWalk_next hhash hx, hsh]
      exact ih (some o) hrest hlast (Nat.lt_of_succ_lt_succ hfuel)

theorem findSome?_congr_mem {f f' : Nat → Option Nat} : ∀ {l : List Nat}, (∀ q ∈ l, f q = f' q) →
    l.findSome? f = l.findSome? f'
  | [], _ => rfl
  | o :: rest, h => by
    rw [findSome?_cons, findSome?_cons, h o (.head _),
      findSome?_congr_mem fun q hq => h q (.tail _ hq)]

/-- What the first object with the page has is what its frame holds. -/
theorem findSome?_holds (hw : Wf s) (l : List Nat) :
    l.findSome? (s.holds · k) = (l.findSome? (s.pframeHash · k)).bind fun pf =>
      (s.pframe pf).map fun f => s.page f.pfAddr := by
  induction l with
  | nil => rfl
  | cons o rest ih =>
    rw [findSome?_cons, findSome?_cons]
    cases hhash : s.pframeHash o k with
    | none =>
      rw [holds, hhash]
      exact ih
    | some pf =>
      obtain ⟨a, hident⟩ := hw.hash hhash
      obtain ⟨f, hf, -⟩ := exists_of_ident hident
      simp only [holds, hhash, bind_some, hf, map_some]

end

/-! ## 4. The page of the object at the top -/

/-- The frames a request for page `k` of the object above `below` allocates: one for that object,
and one for the object at the end if no object has the page. -/
def framesNeeded (s : VmSys) (below : List Nat) (k : Nat) : Nat :=
  if (below.findSome? (s.holds · k)).isSome then 1 else 2

section
variable {s t u : VmSys} {o k pf src : Nat} {x : Mmobj} {temp : Option Nat} {g : Pframe}
  {get : VmSys → Nat → Nat → Except Halt (VmSys × Option Nat)} {disk data : Nat → UInt8}

variable (hbusy : setBusy t pf true = .ok s) (hx : s.mmobj o = some x)
  (hops : x.mmoOps = .shadow) (hg : u.pframe src = some g)
  (hfill : filled u pf (u.page g.pfAddr) = .ok v)
include hbusy hx hops hg hfill

theorem pframeFill_found (hwalk : shadowWalk k (s.nmmobj + 1) s x.mmoShadowed none =
    .ok (u, some src, temp)) :
    pframeFill get disk t o k pf = .ok (v, some pf) := by
  rw [pframeFill, hbusy, ok_bind, theObj_eq_ok.mpr hx, ok_bind]
  rw [hops]
  rw [hwalk, ok_bind]
  dsimp only
  rw [theFrame_eq_ok.mpr hg, ok_bind, hfill]
  rfl

/-- `shadow_fillpage` when the object at the end is asked. -/
theorem pframeFill_asked (hwalk : shadowWalk k (s.nmmobj + 1) s x.mmoShadowed none =
    .ok (s, none, some b))
    (hget : get s b k = .ok (u, some src)) : pframeFill get disk t o k pf = .ok (v, some pf) := by
  rw [pframeFill, hbusy, ok_bind, theObj_eq_ok.mpr hx, ok_bind]
  rw [hops]
  rw [hwalk, ok_bind]
  dsimp only
  rw [hget, ok_bind]
  dsimp only
  rw [theFrame_eq_ok.mpr hg, ok_bind, hfill]
  rfl

end

/-- **A page request on a chain of shadow objects.**  `top` shadows the objects of `mid` one after
the other and at the end `b`, which is no shadow object, and does not have page `k`.  There is
memory for the frames the request needs.  Then it returns a frame of `top`, not busy, with what the
first object below that has the page holds there, or with what `b` fills the page with; and all
frames that were there stay, with their contents. -/
theorem chain_resolution (disk : Nat → UInt8) {s : VmSys} (hw : Wf s) {top b k : Nat}
    {mid : List Nat}
    {x y : Mmobj} (hpath : Path s top (mid ++ [b])) (hx : s.mmobj top = some x)
    (hy : s.mmobj b = some y) (hend : y.mmoShadowed = none) (hxpos : 0 < x.mmoRefcount)
    (hypos : 0 < y.mmoRefcount) (hmiss : s.pframeHash top k = none)
    (hframes : framesNeeded s (mid ++ [b]) k ≤ s.pframeSlab.length)
    (hpages : framesNeeded s (mid ++ [b]) k ≤ s.freePages.length) :
    ∃ t pf, (∀ fuel, pframeGet disk (fuel + 2) s top k = .ok (t, some pf)) ∧ Resolved s t top k pf
        (((mid ++ [b]).findSome? (s.holds · k)).getD (fillData y.mmoOps disk)) := by
  obtain ⟨o', rest, hbelow⟩ := exists_cons_of_ne_nil (concat_ne_nil b mid)
  have hlast : (o' :: rest).getLast? = some b := hbelow ▸ getLast?_concat
  rw [hbelow] at hpath hframes hpages ⊢
  have hnotMem := hpath.notMem
  have hlength := hpath.length_le hw
  obtain ⟨⟨un, hlink⟩, hrest⟩ := hpath
  have hone : 1 ≤ framesNeeded s (o' :: rest) k := by
    unfold framesNeeded
    split <;> omega
  obtain ⟨pf, slab, hslab⟩ := exists_cons_of_length_pos (hone.trans hframes)
  obtain ⟨a, free, hfree⟩ := exists_cons_of_length_pos (hone.trans hpages)
  obtain ⟨t, hbusy, hget⟩ := pframeGet_miss hslab hfree disk hmiss hx hxpos
  obtain ⟨x', hx', hops, hsh, -⟩ := exists_of_shadowLink hlink
  rw [hx] at hx'
  cases hx'
  -- the state in which the walk starts
  have hwu : Wf (enterFrame s top k pf a slab free x) := hw.enter hmiss hslab hfree hx
  have hpathu : Path (enterFrame s top k pf a slab free x) o' rest :=
    hrest.congr fun q _ => enterFrame_shadowLink hx q
  have hhash : (o' :: rest).findSome? ((enterFrame s top k pf a slab free x).pframeHash · k)
      = (o' :: rest).findSome? (s.pframeHash · k) :=
    findSome?_congr_mem fun q hq => enterFrame_hash_other (fun h : q = top => hnotMem (h ▸ hq)) k
  have hb : b ≠ top := fun h => hnotMem (h ▸ mem_of_getLast? hlast)
  have hyu : (enterFrame s top k pf a slab free x).mmobj b = some y :=
    (update_of_ne hb ..).trans hy
  have hwalk := shadowWalk_path (k := k) hwu hyu hend none hpathu hlast (Nat.lt_succ_of_lt hlength)
  rw [hhash, ← hsh] at hwalk
  have hxu : (enterFrame s top k pf a slab free x).mmobj top = some { x with
      mmoRefcount := x.mmoRefcount + 1
      mmoNrespages := x.mmoNrespages + 1
      mmoRespages := pf :: x.mmoRespages } := update_self ..
  have holds := findSome?_holds (k := k) hw (o' :: rest)
  cases hfound : (o' :: rest).findSome? (s.pframeHash · k) with
  | some src =>
    obtain ⟨u, temp, hrun, hreq⟩ := hwalk.2 src hfound
    obtain ⟨q, -, hq⟩ := exists_of_findSome?_eq_some hfound
    obtain ⟨c, hident⟩ := hw.hash hq
    obtain ⟨g, hg, -⟩ := exists_of_ident hident
    rw [holds, hfound, bind_some, hg]
    obtain ⟨v, hfill, hres, -⟩ := Resolved.fill_entered hw hslab hfree hmiss hreq (s.page g.pfAddr)
    obtain ⟨l, rfl⟩ := hreq
    refine ⟨v, pf, fun fuel => ?_, hres⟩
    rw [hget]
    refine pframeFill_found hbusy hxu hops ?_ hfill hrun
    exact enterFrame_old (x := x) hw hslab hfree hg
  | none =>
    have htwo : framesNeeded s (o' :: rest) k = 2 := by
      rw [framesNeeded, holds, hfound]
      rfl
    rw [htwo, hslab] at hframes
    rw [htwo, hfree] at hpages
    obtain ⟨pf', slab, rfl⟩ := exists_cons_of_length_pos (Nat.le_of_succ_le_succ hframes)
    obtain ⟨a', free, rfl⟩ := exists_cons_of_length_pos (Nat.le_of_succ_le_succ hpages)
    have hmissb : (enterFrame s top k pf a (pf' :: slab) (a' :: free) x).pframeHash b k = none :=
      (enterFrame_hash_other hb k).trans
        (findSome?_eq_none_iff.mp hfound b (mem_of_getLast? hlast))
    obtain ⟨y', hy', hsolid⟩ := solid_iff.mp (hrest.solid_last hlast)
    rw [hy] at hy'
    cases hy'
    obtain ⟨u, hgetb, hresb⟩ := pframeGet_solid hwu rfl rfl disk hmissb hyu hypos hsolid
    obtain ⟨g, hg, -, -, -, hdata⟩ := hresb.frame
    obtain ⟨v, hfill, hres, -⟩ := Resolved.fill hw hslab hfree (hresb.hashes enterFrame_hash_self)
      (hresb.old enterFrame_self) (fun h => hresb.hashes (enterFrame_hash hmiss h))
      (fun h => hresb.old (enterFrame_old hw hslab hfree h))
      (fun h => hresb.kept (enterFrame_old hw hslab hfree h)) (fillData y.mmoOps disk)
    rw [holds, hfound, bind_none, getD_none]
    refine ⟨v, pf, fun fuel => ?_, hres⟩
    rw [hget]
    exact pframeFill_asked hbusy hxu hops hg (hdata.symm ▸ hfill) (hwalk.1 hfound) (hgetb fuel)

/-- A process writes to a page of its own and forks. -/
def writesAndForks : List VmCall :=
  [.spawn 1, .map 1 (.onePage 0x400 3 mapPrivate), .fault 1 0x400 6 (fun _ => 0) true,
    .store 1 0x400 0 7, .fork 1 2 (fun _ => 0)]

/-- Object 2 shadows object 1, which has the page, and that shadows object 0. -/
def twoShadows (s : VmSys) : Bool :=
  (s.shadowLink 2).any (·.1 == some 1) && (s.shadowLink 1).any (·.1 == some 0) &&
    (s.mmobj 2).any (fun x => decide (0 < x.mmoRefcount)) &&
    (s.mmobj 0).any (fun y =>
      y.mmoOps == .anon && y.mmoShadowed == none && decide (0 < y.mmoRefcount)) &&
    (s.holds 1 0).any (· 0 == 7) && s.pframeHash 2 0 == none && decide (1 ≤ s.pframeSlab.length) &&
    decide (1 ≤ s.freePages.length)

theorem of_twoShadows {s : VmSys} (h : twoShadows s = true) :
    Path s 2 ([1] ++ [0]) ∧ (∃ x, s.mmobj 2 = some x ∧ 0 < x.mmoRefcount) ∧
      (∃ y, s.mmobj 0 = some y ∧ y.mmoShadowed = none ∧ 0 < y.mmoRefcount) ∧
      (∃ data, s.holds 1 0 = some data ∧ data 0 = 7) ∧ s.pframeHash 2 0 = none ∧
      1 ≤ s.pframeSlab.length ∧ 1 ≤ s.freePages.length := by
  simp only [twoShadows, Bool.and_eq_true, Option.any_eq_true, beq_iff_eq, decide_eq_true_eq] at h
  obtain ⟨⟨⟨⟨⟨⟨⟨⟨l₂, h₂, hl₂⟩, ⟨l₁, h₁, hl₁⟩⟩, hx⟩, ⟨y, hy, ⟨hops, hsh⟩, hpos⟩⟩, hdata⟩, hmiss⟩,
    hslab⟩, hfree⟩ := h
  refine ⟨⟨⟨l₂.2, by rw [h₂, ← hl₂]⟩, ⟨l₁.2, by rw [h₁, ← hl₁]⟩, ?_⟩, hx, ⟨y, hy, hsh, hpos⟩, hdata,
    hmiss, hslab, hfree⟩
  exact solid_iff.mpr ⟨y, hy, by rw [hops]; nofun⟩

/-- The child reads what its parent wrote before the fork. -/
theorem chain_resolution_forked : ∃ s t pf data, Lts.Run VmLegal vmStep (bootVm 8 8 4 2) s ∧
    Path s 2 ([1] ++ [0]) ∧ data 0 = 7 ∧
    (∀ fuel, pframeGet (fun _ => 0) (fuel + 2) s 2 0 = .ok (t, some pf)) ∧
    Resolved s t 2 0 pf data := by
  obtain ⟨s, hrun, htest⟩ : ∃ s, Lts.Run VmLegal vmStep (bootVm 8 8 4 2) s ∧ twoShadows s :=
    Lts.exists_run writesAndForks (by decide +kernel)
  obtain ⟨hpath, ⟨x, hx, hxpos⟩, ⟨y, hy, hend, hypos⟩, ⟨data, hdata, hseven⟩, hmiss,
    hslab, hfree⟩ :=
    of_twoShadows htest
  have hfirst : ([1] ++ [0]).findSome? (s.holds · 0) = some data := by
    rw [singleton_append, findSome?_cons, hdata]
  have hone : framesNeeded s ([1] ++ [0]) 0 = 1 := by
    rw [framesNeeded, hfirst]
    rfl
  obtain ⟨t, pf, hget, hres⟩ := chain_resolution (fun _ => 0)
    (wf_of_run (bootVm_wf 8 8 4 2) (fun _ _ h => h) hrun) hpath hx hy hend hxpos hypos hmiss
    (hone.trans_le hslab) (hone.trans_le hfree)
  rw [hfirst] at hres
  exact ⟨s, t, pf, data, hrun, hpath, hseven, hget, hres⟩

end Weenix.Pageout
