/-
# Private pages under memory pressure

A process that has written to a page of a private area should read that value back, whatever the
pageout daemon does in between.  The frames of shadow objects are not pinned and never marked dirty:
`handle_pagefault` does neither, and user stores go past the kernel.  So for the daemon such a frame
is clean and it gives the page back, with no copy anywhere, and leaves the entry behind
(`Pageout/StaleMappings.lean`); the next owner of the page overwrites what the process wrote.

What is proved is the rest of the argument.  As long as no page is given back that a running process
has an entry for, a page table entry stays on the frame of the page its area maps, that frame keeps
its contents, and a process's private page is changed by its own stores only.  The value last stored
at each place is ghost state (`MemSys.last`).
-/
import Weenix.Pageout.StaleMappings

namespace Weenix.Pageout

open List Option VmSys

open Weenix.Vm (Vmarea vmmapLookup mapPrivate)

variable {new : Bool} {a k o p pf vfn : Nat} {last : Nat → Nat → Nat → Option UInt8}
  {P : Nat → Prop} {x : Proc} {e : Pte} {c : VmCall} {s t : VmSys} {vma : Vmarea}

/-! ## 1. Loads, stores, and the last value stored -/

/-- What a load returns. -/
def VmSys.read (s : VmSys) (p vfn off : Nat) : UInt8 := s.page (s.paddr p vfn) off

/-- The system, and the last value each process has stored at each place. -/
structure MemSys where
  vm : VmSys
  last : Nat → Nat → Nat → Option UInt8

variable {m : MemSys}

/-- A call of the system; a store is remembered. -/
def memStep (m : MemSys) (c : VmCall) : Except Halt MemSys := do
  let s ← vmStep m.vm c
  return ⟨s, match c with
    | .store p vfn off b => fun q v i => if q = p ∧ v = vfn ∧ i = off then some b else m.last q v i
    | _ => m.last⟩

/-- Everything but calls that change which areas a process has. -/
def access : VmCall → Bool
  | .map .. | .unmap .. | .fork .. => false
  | _ => true

def MemLegal (m : MemSys) (c : VmCall) : Prop := VmLegal m.vm c ∧ access c = true
deriving Decidable

/-- The page of a running process lies in this area. -/
structure InArea (s : VmSys) (p vfn : Nat) (x : Proc) (vma : Vmarea) : Prop where
  proc : s.proc p = some x
  running : x.pState = .running
  lookup : vmmapLookup x.pVmmap vfn = some vma

/-- A load from a private page returns the last value that the process has stored there. -/
def ReadsLast (m : MemSys) : Prop :=
  ∀ p vfn off b x vma, InArea m.vm p vfn x vma → vma.vmaFlags = mapPrivate →
    VmLegal m.vm (.load p vfn off) → m.last p vfn off = some b → m.vm.read p vfn off = b

/-! ## 2. Entries and the frames they are for -/

/-- The frame holds that page at that place, and is not busy. -/
def Resting (s : VmSys) (pf : Nat) (i : Nat × Nat × Nat) : Prop :=
  ∃ f, s.pframe pf = some f ∧ f.ident = i ∧ f.pfBusy = false

/-- A running process has an entry for the page. -/
def InUse (s : VmSys) (a : Nat) : Prop :=
  ∃ p x vfn e, s.proc p = some x ∧ x.pState = .running ∧ x.pPagedir vfn = some e ∧ e.paddr = a

/-- No running process has an entry for the page of a frame that the call may free. -/
def SparesMapped (s : VmSys) (c : VmCall) : Prop :=
  ∀ pf f, s.pframe pf = some f → MayFree s c pf f.pfObj → ¬ InUse s f.pfAddr

/-- Page tables agree with areas: an entry is for the frame of the page that is mapped there.  And
nothing else is mapped to the pages of private areas. -/
structure Coherent (s : VmSys) : Prop where
  entries : ∀ {p x vfn e}, s.proc p = some x → x.pState = .running → x.pPagedir vfn = some e →
    ∃ vma pf, vmmapLookup x.pVmmap vfn = some vma ∧
      Resting s pf (vma.vmaObj, vma.pagenum vfn, e.paddr)
  exclusive : ∀ {p q vfn vfn' x y vma vma'}, InArea s p vfn x vma → vma.vmaFlags = mapPrivate →
    InArea s q vfn' y vma' → vma.vmaObj = vma'.vmaObj → vma.pagenum vfn = vma'.pagenum vfn' →
    q = p ∧ vfn' = vfn

/-- The last value stored in a private page is behind the entry. -/
def Written (s : VmSys) (last : Nat → Nat → Nat → Option UInt8) : Prop :=
  ∀ {p vfn off b x vma}, InArea s p vfn x vma → vma.vmaFlags = mapPrivate →
    last p vfn off = some b →
    ∃ e, x.pPagedir vfn = some e ∧ s.page e.paddr off = b

theorem Resting.ident {i : Nat × Nat × Nat} (h : Resting s pf i) : s.ident pf = some i := by
  obtain ⟨f, hf, rfl, -⟩ := h
  exact ident_of hf

/-- **A frame that is not busy and whose page is not given back stays, with its contents.** -/
theorem Upd.resting (h : Upd P new s t) (hw : Wf s) (hr : Resting s pf (o, k, a))
    (hrel : ∀ e, t.released = e :: s.released → e.1 ≠ a) :
    Resting t pf (o, k, a) ∧ t.page a = s.page a := by
  have hi := hr.ident
  obtain ⟨f, hf, hid, hbusy⟩ := hr
  cases h with
  | requeue | wake | obj | dropObj => exact ⟨⟨f, hf, hid, hbusy⟩, rfl⟩
  | @flags q g g' hg hgid hgbusy =>
    refine ⟨?_, rfl⟩
    by_cases hq : pf = q
    · subst hq
      obtain rfl : f = g := some.inj (hf.symm.trans hg)
      refine ⟨g', by rw [setFrame_pframe, update_self], hgid.trans hid, ?_⟩
      exact Bool.eq_false_iff.mpr fun hb => by rw [hgbusy hb] at hbusy; cases hbusy
    · exact ⟨f, by rw [setFrame_pframe, update_of_ne hq, hf], hid, hbusy⟩
  | @unlink q g x _ hg _ =>
    refine ⟨?_, rfl⟩
    have hq : pf ≠ q := by
      rintro rfl
      obtain rfl : f = g := some.inj (hf.symm.trans hg)
      exact hrel _ rfl (congrArg (·.2.2) hid)
    exact ⟨f, (update_of_ne hq ..).trans hf, hid, hbusy⟩
  | @enter o' k' q a' slab free x _ _ hslab _ _ =>
    refine ⟨?_, rfl⟩
    have hq : pf ≠ q := by
      rintro rfl
      have hnone := (hw.frameSlab pf (hslab ▸ .head _)).2
      rw [hi] at hnone
      cases hnone
    exact ⟨f, (update_of_ne hq ..).trans hf, hid, hbusy⟩
  | @fill q g hg hgbusy data =>
    refine ⟨⟨f, hf, hid, hbusy⟩, ?_⟩
    have ha : a ≠ g.pfAddr := by
      rintro rfl
      obtain rfl : q = pf := hw.addr hi (ident_of hg)
      obtain rfl : f = g := some.inj (hf.symm.trans hg)
      rw [hgbusy] at hbusy
      cases hbusy
    exact update_of_ne ha ..

theorem Upds.resting (h : Upds P new s t) (hw : Wf s) (hr : Resting s pf (o, k, a))
    {l : List (Nat × PageTables)}
    (hl : t.released = l ++ s.released) (hrel : ∀ e ∈ l, e.1 ≠ a) :
    Resting t pf (o, k, a) ∧ t.page a = s.page a := by
  induction h generalizing l with
  | refl => exact ⟨hr, rfl⟩
  | @tail t u hst hu ih =>
    obtain ⟨l₁, hl₁, -⟩ := Upds.released hst
    obtain ⟨l₂, hl₂, -⟩ := Upds.released (.single hu)
    have hboth : u.released = (l₂ ++ l₁) ++ s.released := by rw [hl₂, hl₁, append_assoc]
    obtain rfl : l = l₂ ++ l₁ := append_cancel_right (hl.symm.trans hboth)
    obtain ⟨hrt, hpage⟩ := ih hl₁ fun e he => hrel e (mem_append_right _ he)
    have hstep := hu.resting (Upds.wf hst hw) hrt fun e he => ?_
    · exact ⟨hstep.1, hstep.2.trans hpage⟩
    · refine hrel e (mem_append_left _ ?_)
      have hone : l₂ = [e] := append_cancel_right (hl₂.symm.trans he)
      rw [hone]
      exact mem_singleton_self e

/-! ## 3. Steps that leave page tables and mapped pages alone -/

/-- A process that runs is as it was or new, and the frames behind entries keep their pages and
their contents. -/
structure Quiet (s t : VmSys) : Prop where
  procs : ∀ {p x}, t.proc p = some x → x.pState = .running →
    s.proc p = some x ∨ x.pVmmap = [] ∧ ∀ vfn, x.pPagedir vfn = none
  frames : ∀ {pf o k a}, Resting s pf (o, k, a) → InUse s a →
    Resting t pf (o, k, a) ∧ t.page a = s.page a

theorem Quiet.inArea (h : Quiet s t) (ha : InArea t p vfn x vma) : InArea s p vfn x vma := by
  obtain hx | ⟨hnil, -⟩ := h.procs ha.proc ha.running
  · exact { ha with proc := hx }
  · have hl := ha.lookup
    rw [hnil] at hl
    cases hl

theorem Quiet.coherent (h : Quiet s t) (hc : Coherent s) : Coherent t where
  entries {p x vfn e} hx hrun he := by
    obtain hx | ⟨-, hnone⟩ := h.procs hx hrun
    · obtain ⟨vma, pf, hl, hr⟩ := hc.entries hx hrun he
      exact ⟨vma, pf, hl, (h.frames hr ⟨p, x, vfn, e, hx, hrun, he, rfl⟩).1⟩
    · rw [hnone vfn] at he
      cases he
  exclusive ha hp hb := hc.exclusive (h.inArea ha) hp (h.inArea hb)

theorem Quiet.written (h : Quiet s t) (hc : Coherent s) (hwr : Written s last) :
    Written t last := by
  intro p vfn off b x vma ha hp hlast
  have ha' := h.inArea ha
  obtain ⟨e, he, hb⟩ := hwr ha' hp hlast
  obtain ⟨_, pf, -, hr⟩ := hc.entries ha'.proc ha'.running he
  refine ⟨e, he, ?_⟩
  rw [(h.frames hr ⟨p, x, vfn, e, ha'.proc, ha'.running, he, rfl⟩).2, hb]

/-- Updates that give back no page in use are quiet. -/
theorem Upds.quiet (h : Upds P new s t) (hw : Wf s)
    (hrel : ∀ l, t.released = l ++ s.released → ∀ e ∈ l, ¬ InUse s e.1) : Quiet s t where
  procs hx _ := .inl (h.proc ▸ hx)
  frames hr huse := by
    obtain ⟨l, hl, -⟩ := h.released
    exact h.resting hw hr hl fun e he heq => hrel l hl e he (heq ▸ huse)

/-- A quiet step, after which one process does not run or is new. -/
theorem Quiet.update {u : VmSys} (h : Quiet s t) {x : Option Proc}
    (hproc : u.proc = update t.proc p x) (hframe : u.pframe = t.pframe) (hpage : u.page = t.page)
    (hx : ∀ y, x = some y → y.pState = .running → y.pVmmap = [] ∧ ∀ vfn, y.pPagedir vfn = none) :
    Quiet s u where
  procs {q y} hy hrun := by
    obtain ⟨-, hy⟩ | ⟨-, hy⟩ := of_update (hproc ▸ hy)
    · exact .inr (hx y hy hrun)
    · exact h.procs hy hrun
  frames hr huse := by
    unfold Resting
    rw [hframe, hpage]
    exact h.frames hr huse

theorem Quiet.refl (s : VmSys) : Quiet s s := ⟨fun hx _ => .inl hx, fun hr _ => ⟨hr, rfl⟩⟩

theorem Quiet.of_eq (hproc : t.proc = s.proc) (hframe : t.pframe = s.pframe)
    (hpage : t.page = s.page) : Quiet s t where
  procs hx _ := .inl (hproc ▸ hx)
  frames hr _ := by
    unfold Resting
    rw [hframe, hpage]
    exact ⟨hr, rfl⟩

/-! ## 4. Installing an entry, and stores -/

theorem Wf.paddr_eq (hw : Wf s) {pf' a' : Nat} (h : Resting s pf (o, k, a))
    (h' : Resting s pf' (o, k, a')) : a = a' := by
  have hpf := some.inj ((hw.home h.ident).symm.trans (hw.home h'.ident))
  have hi := h.ident
  rw [hpf, h'.ident] at hi
  cases hi
  rfl

/-- The entry of a page fault is for the frame of the page that is mapped there.  If there was an
entry before, it was for the same frame. -/
theorem install_entry (hw : Wf s) (hc : Coherent s) (hwr : Written s last)
    (hx : s.proc p = some x) (hl : vmmapLookup x.pVmmap vfn = some vma)
    (hr : Resting s pf (vma.vmaObj, vma.pagenum vfn, e.paddr))
    (ht : t = s.setProc p { x with pPagedir := update x.pPagedir vfn (some e) }) :
    Coherent t ∧ Written t last := by
  -- a process after the step has the areas it had before, and the same entries but that one
  have hold : ∀ {q y}, t.proc q = some y → ∃ z, s.proc q = some z ∧ y.pVmmap = z.pVmmap ∧
      y.pState = z.pState ∧ ∀ w, y.pPagedir w = if q = p ∧ w = vfn then some e
        else z.pPagedir w := by
    intro q y hy
    rw [ht, setProc_proc, update_apply] at hy
    split at hy
    case isTrue hq =>
      cases hy
      refine ⟨x, hq ▸ hx, rfl, rfl, fun w => ?_⟩
      simp only [hq, true_and]
      exact update_apply ..
    case isFalse hq =>
      exact ⟨y, hy, rfl, rfl, fun w => (if_neg fun h => hq h.1).symm⟩
  have harea : ∀ {q v y b}, InArea t q v y b → ∃ z, InArea s q v z b := by
    intro q v y b ha
    obtain ⟨z, hz, hmap, hstate, -⟩ := hold ha.proc
    exact ⟨z, hz, hstate ▸ ha.running, hmap ▸ ha.lookup⟩
  have hrest : ∀ {q i}, Resting s q i → Resting t q i := by
    subst ht
    exact fun h => h
  refine ⟨⟨?_, ?_⟩, ?_⟩
  · intro q y v e' hy hrun he
    obtain ⟨z, hz, hmap, hstate, hpd⟩ := hold hy
    rw [hpd] at he
    split at he
    case isTrue hv =>
      cases he
      obtain ⟨rfl, rfl⟩ := hv
      obtain rfl : x = z := some.inj (hx.symm.trans hz)
      exact ⟨vma, pf, hmap ▸ hl, hrest hr⟩
    case isFalse =>
      obtain ⟨b, pf', hb, hr'⟩ := hc.entries hz (hstate ▸ hrun) he
      exact ⟨b, pf', hmap ▸ hb, hrest hr'⟩
  · intro q q' v v' y y' b b' ha hp hb
    obtain ⟨z, hz⟩ := harea ha
    obtain ⟨z', hz'⟩ := harea hb
    exact hc.exclusive hz hp hz'
  · intro q v off b y a ha hp hlast
    obtain ⟨z, hz, hmap, hstate, hpd⟩ := hold ha.proc
    have haz : InArea s q v z a := ⟨hz, hstate ▸ ha.running, hmap ▸ ha.lookup⟩
    obtain ⟨e₀, he₀, hb⟩ := hwr haz hp hlast
    rw [hpd]
    have hpage : t.page = s.page := by rw [ht]; rfl
    rw [hpage]
    split
    case isTrue hv =>
      obtain ⟨rfl, rfl⟩ := hv
      obtain rfl : x = z := some.inj (hx.symm.trans hz)
      obtain ⟨vma₀, pf₀, hl₀, hr₀⟩ := hc.entries hz haz.running he₀
      obtain rfl : vma = vma₀ := some.inj (hl.symm.trans hl₀)
      exact ⟨e, rfl, hw.paddr_eq hr hr₀ ▸ hb⟩
    case isFalse => exact ⟨e₀, he₀, hb⟩

/-- The entries of two pages, one of them private, are for different physical pages. -/
theorem paddr_ne (hw : Wf s) (hc : Coherent s) {q v : Nat} {y : Proc}
    {e' : Pte} (ha : InArea s p vfn x vma) (hp : vma.vmaFlags = mapPrivate)
    (he : x.pPagedir vfn = some e) (hy : s.proc q = some y) (hrun : y.pState = .running)
    (he' : y.pPagedir v = some e') (hne : ¬ (p = q ∧ vfn = v)) : e.paddr ≠ e'.paddr := by
  intro heq
  obtain ⟨a, pf, hl, hr⟩ := hc.entries ha.proc ha.running he
  obtain ⟨b, pf', hl', hr'⟩ := hc.entries hy hrun he'
  obtain rfl : vma = a := some.inj (ha.lookup.symm.trans hl)
  rw [heq] at hr
  obtain rfl : pf' = pf := hw.addr hr.ident hr'.ident
  have hi := hr.ident
  rw [hr'.ident] at hi
  simp only [some.injEq, Prod.mk.injEq] at hi
  obtain ⟨h1, h2⟩ := hc.exclusive ha hp ⟨hy, hrun, hl'⟩ hi.1.symm hi.2.1.symm
  exact hne ⟨h1.symm, h2.symm⟩

theorem store_written (hw : Wf s) (hc : Coherent s) (hwr : Written s last) (off : Nat) (b : UInt8)
    (hx : s.proc p = some x) (hrun : x.pState = .running) (he : x.pPagedir vfn = some e) :
    Written (s.poke e.paddr off b)
      fun q v i => if q = p ∧ v = vfn ∧ i = off then some b else last q v i := by
  have hpoke : ∀ a i, (s.poke e.paddr off b).page a i = if a = e.paddr ∧ i = off then b
      else s.page a i := by
    intro a i
    rw [poke, setPage_page, update_apply]
    split
    case isTrue ha =>
      rw [update_apply, ha]
      simp only [true_and]
    case isFalse ha => exact (if_neg fun h => ha h.1).symm
  intro q v i c y a ha hp hlast
  dsimp only at hlast
  have ha' : InArea s q v y a := { ha with }
  by_cases hqv : q = p ∧ v = vfn
  · obtain ⟨rfl, rfl⟩ := hqv
    obtain rfl : x = y := some.inj (hx.symm.trans ha'.proc)
    refine ⟨e, he, ?_⟩
    rw [hpoke]
    simp only [true_and] at hlast ⊢
    split at hlast
    case isTrue hi =>
      rw [if_pos hi]
      exact some.inj hlast
    case isFalse hi =>
      rw [if_neg hi]
      obtain ⟨e₀, he₀, hb⟩ := hwr ha' hp hlast
      obtain rfl : e = e₀ := some.inj (he.symm.trans he₀)
      exact hb
  · rw [if_neg fun h => hqv ⟨h.1, h.2.1⟩] at hlast
    obtain ⟨e₀, he₀, hb⟩ := hwr ha' hp hlast
    refine ⟨e₀, he₀, ?_⟩
    rw [hpoke, if_neg fun h => paddr_ne hw hc ha' hp he₀ hx hrun he hqv h.1, hb]

/-! ## 5. Every step -/

/-- What is kept along a run. -/
structure MemInv (s : VmSys) (last : Nat → Nat → Nat → Option UInt8) : Prop where
  wf : Wf s
  coherent : Coherent s
  written : Written s last

section
variable {s t : VmSys} {last : Nat → Nat → Nat → Option UInt8}

theorem MemInv.quiet (hi : MemInv s last) (hq : Quiet s t) (hw : Wf t) : MemInv t last :=
  ⟨hw, hq.coherent hi.coherent, hq.written hi.coherent hi.written⟩

theorem Faulted.memInv (hi : MemInv s last) {cause : Nat} (hx : s.proc p = some x)
    {r : VmSys × FaultResult} (h : Faulted s p vfn cause x r)
    (hrel : ∀ l, r.1.released = l ++ s.released → ∀ e ∈ l, ¬ InUse s e.1) : MemInv r.1 last := by
  have hw := (h.spec hi.wf hx (fun _ => 0) false).1
  cases h with
  | killed _ =>
    refine hi.quiet ((Quiet.refl s).update rfl rfl rfl fun y hy hrun => ?_) hw
    cases hy
    cases hrun
  | stuck _ _ hg =>
    refine hi.quiet ((Upds.quiet hg.upds hi.wf hrel).update rfl rfl rfl fun y hy hrun => ?_) hw
    cases hy
    cases hrun
  | nomem _ _ hg => exact hi.quiet (Upds.quiet hg.upds hi.wf hrel) hw
  | @mapped vma t pf f hl _ hg hf =>
    have ht := hi.quiet (Upds.quiet hg.upds hi.wf hrel) (hg.upds.wf hi.wf)
    obtain ⟨g, hpf, ho, hk, hbusy⟩ := hg.page rfl
    obtain rfl : f = g := some.inj (hf.symm.trans hpf)
    have hr : Resting t pf (vma.vmaObj, vma.pagenum vfn, (faultEntry f.pfAddr).paddr) :=
      ⟨f, hf, by rw [Pframe.ident, ho, hk]; rfl, hbusy⟩
    have hent := install_entry ht.wf ht.coherent ht.written (hg.upds.proc ▸ hx) hl hr rfl
    exact ⟨hw, hent.1, hent.2⟩

theorem scribble_quiet (hw : Wf s) (ha : s.unused a = true) (off : Nat) (b : UInt8) :
    Quiet s (s.poke a off b) where
  procs hx _ := .inl hx
  frames {pf o k a'} hr _ := by
    refine ⟨hr, ?_⟩
    rw [poke, setPage_page]
    refine update_of_ne ?_ ..
    rintro rfl
    exact hw.of_unused ha hr.ident

theorem SparesMapped.released (hspare : SparesMapped s c) (hw : Wf s) (hl : VmLegal s c)
    (h : vmStep s c = .ok t) : ∀ l, t.released = l ++ s.released → ∀ e ∈ l, ¬ InUse s e.1 := by
  obtain ⟨l', hl', hall⟩ := vmStep_frees hw c hl h
  rintro l hrel ⟨a, pte⟩ he
  obtain rfl : l' = l := append_cancel_right (hl'.symm.trans hrel)
  obtain ⟨-, pf, o, k, hid, hmay⟩ := hall _ he
  obtain ⟨f, hf, hfid⟩ := exists_of_ident hid
  cases hfid
  exact hspare pf f hf hmay

theorem vmStep_memInv (hi : MemInv s last) (hl : VmLegal s c) (hacc : access c = true)
    (hspare : SparesMapped s c) (hstore : ∀ p vfn off b, c ≠ .store p vfn off b)
    (h : vmStep s c = .ok t) : MemInv t last := by
  have hw := (vmStep_spec hi.wf c hl h).1
  have hrel := hspare.released hi.wf hl h
  cases c with
  | map | unmap | fork => cases hacc
  | store p vfn off b => exact absurd rfl (hstore p vfn off b)
  | load =>
    cases h
    exact hi
  | link | takePage | givePage | slabs =>
    cases h
    exact hi.quiet (.of_eq rfl rfl rfl) hw
  | scribble a off b =>
    cases h
    exact hi.quiet (scribble_quiet hi.wf hl off b) hw
  | spawn p =>
    cases h
    refine hi.quiet ((Quiet.refl s).update rfl rfl rfl fun y hy _ => ?_) hw
    cases hy
    exact ⟨rfl, fun _ => rfl⟩
  | reap p =>
    cases h
    exact hi.quiet ((Quiet.refl s).update rfl rfl rfl nofun) hw
  | exit p status =>
    obtain ⟨x, hx⟩ := exists_of_runs hl
    obtain rfl := exitProc_yields hx status t h
    refine hi.quiet ((Quiet.refl s).update rfl rfl rfl fun y hy hrun => ?_) hw
    cases hy
    cases hrun
  | fault p vfn cause disk ptPage =>
    obtain ⟨x, hx⟩ := exists_of_runs hl
    have hf : Yields (handlePagefault disk ptPage s p vfn cause) fun r =>
        (∀ l, r.1.released = l ++ s.released → ∀ e ∈ l, ¬ InUse s e.1) → MemInv r.1 last :=
      (handlePagefault_faulted hi.wf hx disk ptPage vfn cause).imp fun r hr => hr.memInv hi hx
    exact fst_yields (Q := fun u =>
      (∀ l, u.released = l ++ s.released → ∀ e ∈ l, ¬ InUse s e.1) → MemInv u last) h hf hrel
  | vget =>
    cases h
    refine hi.quiet ?_ hw
    unfold slabAlloc
    split <;> exact .of_eq rfl rfl rfl
  | pageoutd | vput | filePage | fileDirty =>
    obtain rfl | hu := vmStep_onObjects hi.wf rfl h
    · exact hi.quiet (.of_eq rfl rfl rfl) hw
    · exact hi.quiet (Upds.quiet hu hi.wf hrel) hw

end

/-- **One call keeps the last value stored behind the entry.** -/
theorem memStep_memInv {n : MemSys} (hi : MemInv m.vm m.last) (hl : MemLegal m c)
    (hspare : SparesMapped m.vm c) (h : memStep m c = .ok n) : MemInv n.vm n.last := by
  obtain ⟨s, hs, hn⟩ := bind_eq_ok h
  cases hn
  cases c with
  | store p vfn off b =>
    obtain ⟨hlegal, -⟩ := hl
    obtain ⟨x, hx⟩ := exists_of_runs hlegal.1
    have hrun : x.pState = .running := by
      have hruns := hlegal.1
      rw [runs, hx] at hruns
      exact beq_iff_eq.mp hruns
    have hany := hlegal.2
    rw [Option.any_eq_true] at hany
    obtain ⟨e, he, -⟩ := hany
    have hpaddr : m.vm.paddr p vfn = e.paddr := by rw [paddr, he]; rfl
    have he' : x.pPagedir vfn = some e := (pte_of_proc hx vfn).symm.trans he
    have hw := (vmStep_spec hi.wf _ hlegal hs).1
    cases hs
    rw [hpaddr] at hw ⊢
    refine ⟨hw, ⟨hi.coherent.entries, ?_⟩,
      store_written hi.wf hi.coherent hi.written off b hx hrun he'⟩
    intro _ _ _ _ _ _ _ _ ha hp hb
    exact hi.coherent.exclusive { ha with } hp { hb with }
  | _ => exact vmStep_memInv hi hl.1 hl.2 hspare nofun hs

/-! ## 6. Runs -/

/-- **As long as no running process has an entry for the page of a frame that the next call may
free, a load from a private page returns the last value that the process has stored there.** -/
theorem private_memory_survives {s : VmSys} (hw : Wf s) (hc : Coherent s) {m : MemSys}
    (hrun : Lts.Run (fun n c => MemLegal n c ∧ SparesMapped n.vm c) memStep ⟨s,
      fun _ _ _ => none⟩ m) :
    ReadsLast m := by
  have hinv : MemInv m.vm m.last := by
    refine hrun.invariant (I := fun n => MemInv n.vm n.last) ⟨hw, hc, fun _ _ h => by cases h⟩ ?_
    exact fun n c n' hi hl hs => memStep_memInv hi hl.1 hl.2 hs
  intro p vfn off b x vma ha hp _ hlast
  obtain ⟨e, he, hb⟩ := hinv.written ha hp hlast
  have hpaddr : m.vm.paddr p vfn = e.paddr := by rw [paddr, pte_of_proc ha.proc, he]; rfl
  rw [VmSys.read, hpaddr, hb]

/-- A call that frees nothing: the daemon has enough free pages. -/
def keepsPages (s : VmSys) : VmCall → Bool
  | .pageoutd => s.nfreepagesTarget ≤ s.freePages.length
  | .vput _ | .unmap .. | .map .. => false
  | _ => true

theorem sparesMapped_of_keepsPages (h : keepsPages s c = true) : SparesMapped s c := by
  intro pf f _ hmay
  cases c with
  | pageoutd => exact absurd hmay.1 (Nat.not_lt.mpr (of_decide_eq_true h))
  | vput | unmap | map => cases h
  | _ => exact hmay.elim

theorem coherent_of_one (hproc : ∀ q y, s.proc q = some y → q = p ∧ y = x)
    (hpd : ∀ vfn, x.pPagedir vfn = none)
    (hmap : x.pVmmap = [vma]) (hone : vma.vmaEnd = vma.vmaStart + 1) : Coherent s where
  entries {q y vfn e} hy _ he := by
    obtain ⟨-, rfl⟩ := hproc q y hy
    rw [hpd] at he
    cases he
  exclusive {q q' v v' y y' a a'} ha _ hb _ _ := by
    have hplace : ∀ {q v y a}, InArea s q v y a → q = p ∧ v = vma.vmaStart := by
      intro q v y a h
      obtain ⟨hq, rfl⟩ := hproc q y h.proc
      obtain ⟨hmem, hcov⟩ := Vm.of_lookup_eq_some h.lookup
      rw [hmap, mem_singleton] at hmem
      rw [hmem, Vmarea.covers_iff] at hcov
      exact ⟨hq, by omega⟩
    obtain ⟨rfl, rfl⟩ := hplace ha
    exact hplace hb

/-- A process that has just been created. -/
def spawned : VmSys := (bootVm 8 8 4 2).setProc 1 ⟨[], fun _ => none, .running⟩

def privatePage : MapArgs := .onePage 0x400 3 mapPrivate

/-- The process touches its page and writes 7 to it. -/
def writesSeven : List VmCall := [.fault 1 0x400 6 (fun _ => 0) true, .store 1 0x400 0 7]

/-- The process runs and has a private page with an entry, to which it has last written 7. -/
def hasWritten (m : MemSys) : Bool :=
  (m.vm.proc 1).any (fun x =>
    x.pState == .running && (vmmapLookup x.pVmmap 0x400).any (·.vmaFlags == mapPrivate)) &&
  decide (VmLegal m.vm (.load 1 0x400 0)) && m.last 1 0x400 0 == some 7

theorem of_hasWritten (h : hasWritten m = true) :
    ∃ x vma, InArea m.vm 1 0x400 x vma ∧ vma.vmaFlags = mapPrivate ∧
      VmLegal m.vm (.load 1 0x400 0) ∧ m.last 1 0x400 0 = some 7 := by
  rw [hasWritten, Bool.and_eq_true, Bool.and_eq_true, Option.any_eq_true, decide_eq_true_eq,
    beq_iff_eq] at h
  obtain ⟨⟨⟨x, hx, harea⟩, hlegal⟩, hlast⟩ := h
  rw [Bool.and_eq_true, beq_iff_eq, Option.any_eq_true] at harea
  obtain ⟨hrun, vma, hl, hflags⟩ := harea
  exact ⟨x, vma, ⟨hx, hrun, hl⟩, beq_iff_eq.mp hflags, hlegal, hlast⟩

/-- The value is read back, after the daemon has run with enough free pages. -/
theorem private_memory_survives_one_page : ∃ s m, Wf s ∧ Coherent s ∧
    Lts.Run (fun n c => MemLegal n c ∧ SparesMapped n.vm c) memStep ⟨s, fun _ _ _ => none⟩ m ∧
    m.last 1 0x400 0 = some 7 ∧ m.vm.read 1 0x400 0 = 7 := by
  have hmap : (vmmapMap spawned 1 privatePage).toOption.any (fun r =>
      (r.1.proc 1).any (fun x => x.pVmmap == [⟨0x400, 0x401, 0, 3, mapPrivate, 1⟩]) &&
      (Lts.drive (fun n c => MemLegal n c ∧
        keepsPages n.vm c = true) memStep (writesSeven ++ [.pageoutd])
        ⟨r.1, fun _ _ _ => none⟩).any hasWritten) = true := by
    decide +kernel
  obtain ⟨⟨s, ret⟩, hr, htest⟩ := ok_of_any hmap
  rw [Bool.and_eq_true, Option.any_eq_true] at htest
  obtain ⟨⟨x, hx, harea⟩, hdrive⟩ := htest
  obtain ⟨m, hrun, hwritten⟩ := Lts.Run.of_drive_any hdrive
  obtain ⟨y, vma, ha, hp, hlegal, hlast⟩ := of_hasWritten hwritten
  have hboot : Wf spawned := (bootVm_wf 8 8 4 2).setProc _ _
  obtain ⟨halt, map, -, hproc⟩ := vmmapMap_alters hboot (update_self ..) privatePage _ hr
  have hc : Coherent s := by
    have hself : x = ⟨map, fun _ => none, .running⟩ := by
      rw [hproc, update_self] at hx
      exact (some.inj hx).symm
    refine coherent_of_one (p := 1) (fun q z hz => ?_) (fun _ => by rw [hself])
      (beq_iff_eq.mp harea) rfl
    rw [hproc, update_apply] at hz
    split at hz
    case isTrue hq => exact ⟨hq, (some.inj hz).symm.trans hself.symm⟩
    case isFalse hq =>
      rw [show spawned.proc q = none from update_of_ne hq ..] at hz
      cases hz
  have hrun' := hrun.mono fun n c h => And.intro h.1 (sparesMapped_of_keepsPages h.2)
  have hw : Wf s := halt.wf hboot
  exact ⟨s, m, hw, hc, hrun', hlast,
    private_memory_survives hw hc hrun' 1 0x400 0 7 y vma ha hp hlegal hlast⟩

/-! ## 7. A private page that is lost -/

/-- Two processes with a private page each. -/
def twoPages : List VmCall :=
  [.pageoutd, .spawn 1, .map 1 privatePage, .spawn 2, .map 2 privatePage]

/-- The first writes to its page; there is no page left for the second, the daemon takes the first
one's page, and the kernel uses it for something else. -/
def reused : List VmCall :=
  writesSeven ++ [.takePage, .takePage, .fault 2 0x400 6 (fun _ => 0) true, .pageoutd, .takePage,
    .scribble 0 0 9]

/-- The process reads 9 where it has last written 7. -/
theorem private_page_overwritten : ∃ s m, Lts.Run VmLegal vmStep (bootVm 8 8 4 2) s ∧
    Lts.Run MemLegal memStep ⟨s, fun _ _ _ => none⟩ m ∧ ¬ ReadsLast m := by
  obtain ⟨s, hrun, hdrive⟩ : ∃ s, Lts.Run VmLegal vmStep (bootVm 8 8 4 2) s ∧
      (Lts.drive MemLegal memStep reused ⟨s, fun _ _ _ => none⟩).any fun m =>
        hasWritten m ∧ m.vm.read 1 0x400 0 = 9 :=
    Lts.exists_run twoPages (by decide +kernel)
  obtain ⟨m, hmem, hwritten, hread⟩ := Lts.exists_run _ hdrive
  obtain ⟨x, vma, ha, hp, hlegal, hlast⟩ := of_hasWritten hwritten
  refine ⟨s, m, hrun, hmem, fun hreads => ?_⟩
  have hseven := hreads 1 0x400 0 7 x vma ha hp hlegal hlast
  rw [hread] at hseven
  cases hseven

end Weenix.Pageout
