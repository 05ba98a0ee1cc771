/-
# Copy-on-write isolation: the invariant

After any number of forks the address spaces of a family of processes have the same areas in the
same places; only the objects differ.  A private area has an object of its own in each process, on
top of a chain that no other object hangs from; the object of a shared area is the same in all
processes.  So a write, which reaches the frame of a top object, is seen through that object only,
and everything below the tops is frozen (`CowInv`).

What each page is expected to hold is computed from the history of writes and forks alone
(`expect`).  `Holds` says that every top object sees what is expected of its page.
-/
import Weenix.Vm.ShadowChain
import Weenix.Vm.VmmapRemove

namespace Weenix.Vm

open List Option Vmarea

variable {f flags i k o q : Nat} {d : Nat → UInt8} {a a' : Vmarea}

/-! ## 1. The history and what it leads to expect -/

/-- What happened to the memory of the family. -/
inductive MemEvent where
  | forked (parent child : Nat)
  | wrote (p vfn off : Nat) (b : UInt8)
deriving DecidableEq, Repr

/-- The value of a private byte of process `p`, by a history with the latest event first: the
last value `p` wrote since the fork that created it, or else the value its parent had at that
fork, or else zero. -/
def privVal : List MemEvent → Nat → Nat → Nat → UInt8
  | [], _, _, _ => 0
  | .wrote p' vfn' off' b :: h, p, vfn, off =>
    if p' = p ∧ vfn' = vfn ∧ off' = off then b else privVal h p vfn off
  | .forked parent child :: h, p, vfn, off =>
    if p = child then privVal h parent vfn off else privVal h p vfn off

/-- The value of a shared byte: the last value anyone wrote there, or zero. -/
def sharedVal : List MemEvent → Nat → Nat → UInt8
  | [], _, _ => 0
  | .wrote _ vfn' off' b :: h, vfn, off =>
    if vfn' = vfn ∧ off' = off then b else sharedVal h vfn off
  | .forked _ _ :: h, vfn, off => sharedVal h vfn off

/-- What process `p` is to read in a page of an area with the given flags. -/
def expect (hist : List MemEvent) (flags p vfn off : Nat) : UInt8 :=
  if flags = mapPrivate then privVal hist p vfn off else sharedVal hist vfn off

/-! ## 2. Areas by position -/

def Vmarea.shape (vma : Vmarea) : Vmarea := { vma with vmaObj := 0 }

@[simp] theorem shape_covers (vma : Vmarea) (vfn : Nat) :
    vma.shape.covers vfn = vma.covers vfn := rfl

theorem flags_of_shape (h : a.shape = a'.shape) : a.vmaFlags = a'.vmaFlags := by
  change a.shape.vmaFlags = a'.shape.vmaFlags
  rw [h]

theorem pagenum_of_shape (h : a.shape = a'.shape) (vfn : Nat) : a.pagenum vfn = a'.pagenum vfn := by
  change a.shape.pagenum vfn = a'.shape.pagenum vfn
  rw [h]

theorem eq_of_shape (h : a.shape = a'.shape) (ho : a.vmaObj = a'.vmaObj) : a = a' := by
  cases a
  cases a'
  simp only [shape, Vmarea.mk.injEq] at h ho ⊢
  tauto

/-- Address spaces of one shape find a page in the same place. -/
theorem lookup_iff_idx {vfn : Nat} {vma : Vmarea} :
    ∀ {map shapes : List Vmarea}, map.map Vmarea.shape = shapes →
    (vmmapLookup map vfn = some vma ↔
      ∃ i, shapes.findIdx? (·.covers vfn) = some i ∧ map[i]? = some vma)
  | [], shapes, h => by
    simp [vmmapLookup]
  | a :: map, shapes, h => by
    subst h
    have ih := @lookup_iff_idx vfn vma map _ rfl
    rw [vmmapLookup] at ih ⊢
    rw [map_cons, findIdx?_cons, shape_covers]
    by_cases hc : a.covers vfn = true
    · rw [find?_cons_of_pos (p := fun x : Vmarea => x.covers vfn) hc, if_pos hc]
      constructor
      · intro ha
        exact ⟨0, rfl, ha⟩
      · rintro ⟨i, hi, ha⟩
        cases hi
        exact ha
    · rw [find?_cons_of_neg (p := fun x : Vmarea => x.covers vfn) hc, if_neg hc, ih]
      constructor
      · rintro ⟨i, hi, ha⟩
        exact ⟨i + 1, by rw [hi]; rfl, ha⟩
      · rintro ⟨i, hi, ha⟩
        obtain ⟨j, hj, rfl⟩ := map_eq_some_iff.mp hi
        exact ⟨j, hj, ha⟩

/-- Areas at one position of two address spaces of one shape. -/
theorem shape_eq_of_idx {map map' : List Vmarea} (h : map.map Vmarea.shape = map'.map Vmarea.shape)
    (ha : map[i]? = some a) (ha' : map'[i]? = some a') : a.shape = a'.shape := by
  have h1 : (map.map shape)[i]? = some a.shape := by rw [getElem?_map, ha]; rfl
  have h2 : (map'.map shape)[i]? = some a'.shape := by rw [getElem?_map, ha']; rfl
  rw [h, h2] at h1
  exact (some.inj h1).symm

theorem pagenum_inj (hend : a.vmaEnd ≤ userMemHigh) {v v' : Nat}
    (hv : a.covers v = true) (hv' : a.covers v' = true) (h : a.pagenum v = a.pagenum v') :
    v = v' := by
  rw [covers_iff] at hv hv'
  have hu : userMemHigh = 0xc0000 := rfl
  unfold pagenum at h
  omega

/-! ## 3. The invariant -/

/-- The areas a family starts from: a well-formed map of user space whose areas are private or
shared. -/
structure AnonAreas (areas : List Vmarea) : Prop where
  wellFormed : WellFormed areas
  user : ∀ a ∈ areas, userMemLow ≤ a.vmaStart ∧ a.vmaEnd ≤ userMemHigh
  flags : ∀ a ∈ areas, a.vmaFlags = mapPrivate ∨ a.vmaFlags = mapShared

/-- What forks, faults and accesses keep. -/
structure CowInv (shapes : List Vmarea) (m : Memory) : Prop where
  chains : Chains m
  shape : ∀ p < m.nproc, (m.proc p).pVmmap.map Vmarea.shape = shapes
  objLt : ∀ p < m.nproc, ∀ {i : Nat} {a : Vmarea}, (m.proc p).pVmmap[i]? = some a →
    a.vmaObj < m.nobj
  top : ∀ p < m.nproc, ∀ {i : Nat} {a : Vmarea}, (m.proc p).pVmmap[i]? = some a →
    ∀ o < m.nobj, (m.mmobj o).mmoShadowed ≠ some a.vmaObj
  excl : ∀ p < m.nproc, ∀ p' < m.nproc, ∀ {i i' : Nat} {a a' : Vmarea},
    (m.proc p).pVmmap[i]? = some a →
    (m.proc p').pVmmap[i']? = some a' → a.vmaObj = a'.vmaObj →
      i = i' ∧ (p = p' ∨ a.vmaFlags = mapShared)
  shared : ∀ p < m.nproc, ∀ p' < m.nproc, ∀ {i : Nat} {a a' : Vmarea},
    (m.proc p).pVmmap[i]? = some a →
    (m.proc p').pVmmap[i]? = some a' → a.vmaFlags = mapShared → a.vmaObj = a'.vmaObj
  pages : ∀ p < m.nproc, ∀ {v f : Nat}, (m.proc p).pPagedir v = some f →
    ∃ a, vmmapLookup (m.proc p).pVmmap v = some a ∧
      m.pframeHash a.vmaObj (a.pagenum v) = some f

/-- Every top object sees what is expected of its page. -/
def Holds (hist : List MemEvent) (m : Memory) : Prop :=
  ∀ p < m.nproc, ∀ {v : Nat} {a : Vmarea}, vmmapLookup (m.proc p).pVmmap v = some a →
    Sees m (a.pagenum v) a.vmaObj (expect hist a.vmaFlags p v)

section
variable {shapes : List Vmarea} {m m' : Memory} {hist : List MemEvent} {p v : Nat} {a : Vmarea}

section
variable (h : CowInv shapes m) (hp : p < m.nproc)
include h hp

theorem CowInv.idx (hl : vmmapLookup (m.proc p).pVmmap v = some a) :
    ∃ i, shapes.findIdx? (·.covers v) = some i ∧ (m.proc p).pVmmap[i]? = some a :=
  (lookup_iff_idx (h.shape p hp)).mp hl

theorem CowInv.lookup_objLt (hl : vmmapLookup (m.proc p).pVmmap v = some a) :
    a.vmaObj < m.nobj := by
  obtain ⟨i, -, hi⟩ := h.idx hp hl
  exact h.objLt p hp hi

theorem CowInv.shape_mem (hi : (m.proc p).pVmmap[i]? = some a) : shapes[i]? = some a.shape := by
  rw [← h.shape p hp, getElem?_map, hi]
  rfl

theorem CowInv.shape_eq
    (hq : q < m.nproc) (ha : (m.proc p).pVmmap[i]? = some a)
    (ha' : (m.proc q).pVmmap[i]? = some a') :
    a.shape = a'.shape :=
  shape_eq_of_idx ((h.shape p hp).trans (h.shape q hq).symm) ha ha'

end

/-! ## 4. Accesses -/

/-- What a page fault keeps: the memory grows by pages that were seen already, and one page of
one process is mapped. -/
theorem CowInv.fault (h : CowInv shapes m) (hp : p < m.nproc)
    (hl : vmmapLookup (m.proc p).pVmmap v = some a) (hf : Filled m m' a.vmaObj (a.pagenum v) f d) :
    CowInv shapes (m'.setProc p { m'.proc p with
      pPagedir := update (m'.proc p).pPagedir v (some f) }) := by
  have hmap : ∀ q, ((m'.setProc p { m'.proc p with
      pPagedir := update (m'.proc p).pPagedir v (some f) }).proc q).pVmmap
      = (m.proc q).pVmmap := by
    intro q
    rw [← hf.proc]
    by_cases hq : q = p
    · subst hq
      simp [Memory.setProc]
    · simp [Memory.setProc, hq]
  have hnp : m'.nproc = m.nproc := hf.nproc
  refine ⟨⟨hf.chains.anon, hf.chains.shadow, hf.chains.hash, hf.chains.inj⟩, ?_, ?_, ?_, ?_, ?_, ?_⟩
  · intro q hq
    rw [hmap]
    exact h.shape q (hnp ▸ hq)
  · intro q hq i a' ha'
    rw [hmap] at ha'
    exact hf.nobj ▸ h.objLt q (hnp ▸ hq) ha'
  · intro q hq i a' ha' o ho
    rw [hmap] at ha'
    change (m'.mmobj o).mmoShadowed ≠ _
    rw [hf.mmobj]
    exact h.top q (hnp ▸ hq) ha' o (hf.nobj ▸ ho)
  · intro q hq q' hq' i i' a1 a2 h1 h2
    rw [hmap] at h1 h2
    exact h.excl q (hnp ▸ hq) q' (hnp ▸ hq') h1 h2
  · intro q hq q' hq' i a1 a2 h1 h2
    rw [hmap] at h1 h2
    exact h.shared q (hnp ▸ hq) q' (hnp ▸ hq') h1 h2
  · intro q hq w g hg
    rw [hmap]
    change ∃ a' : Vmarea, _ ∧ m'.pframeHash a'.vmaObj (a'.pagenum w) = some g
    have hold : (m.proc q).pPagedir w = some g → ∃ a', vmmapLookup (m.proc q).pVmmap w = some a' ∧
          m'.pframeHash a'.vmaObj (a'.pagenum w) = some g := by
      intro hg'
      obtain ⟨a', hl', hh⟩ := h.pages q (hnp ▸ hq) hg'
      exact ⟨a', hl', hf.mono hh⟩
    by_cases hqp : q = p
    · subst hqp
      by_cases hw : w = v
      · subst hw
        have hgf : g = f := by
          simp only [Memory.setProc, update_self] at hg
          exact (some.inj hg).symm
        subst hgf
        exact ⟨a, hl, hf.hash⟩
      · simp only [Memory.setProc, update_self, update_of_ne hw] at hg
        rw [hf.proc] at hg
        exact hold hg
    · simp only [Memory.setProc, update_of_ne hqp] at hg
      rw [hf.proc] at hg
      exact hold hg

/-- Mapping a page changes nothing an object sees. -/
theorem sees_setProc {s : AddrSpace} (h : Sees m k o d) : Sees (m.setProc q s) k o d := by
  induction h with
  | resident hf => exact Sees.resident (m := m.setProc q s) hf
  | under hn hs _ ih => exact .under hn hs ih
  | zero hn hs => exact .zero hn hs

/-- A write to a frame of a top object is not seen through any other page. -/
theorem Sees.setFrame {d' : Nat → UInt8} (h : Chains m)
    (hf : m.pframeHash o k = some f) (htop : ∀ x < m.nobj, (m.mmobj x).mmoShadowed ≠ some o)
    {o' k' : Nat} (hs : Sees m k' o' d) (ho' : o' < m.nobj)
    (hne : ¬ (o' = o ∧ k' = k)) : Sees (m.setFrame f d') k' o' d := by
  induction hs with
  | @resident o' f' hf' =>
    have hff : f' ≠ f := by
      rintro rfl
      exact hne (h.inj hf hf')
    have hs' := Sees.resident (m := m.setFrame f d') hf'
    simp only [Memory.setFrame, update_of_ne hff] at hs'
    exact hs'
  | @under o' o'' d hn hsh _ ih =>
    refine .under hn hsh (ih ((h.lt ho' hsh).trans ho') ?_)
    rintro ⟨rfl, -⟩
    exact htop o' ho' hsh
  | zero hn hsh => exact .zero hn hsh

theorem CowInv.setFrame (h : CowInv shapes m) (f : Nat) (d : Nat → UInt8) :
    CowInv shapes (m.setFrame f d) :=
  { h with chains := { h.chains with } }

theorem expect_wrote_self (flags off : Nat) (b : UInt8) :
    expect (.wrote p v off b :: hist) flags p v
      = update (expect hist flags p v) off b := by
  funext off'
  unfold expect
  by_cases ho : off' = off
  · subst ho
    simp [privVal, sharedVal]
  · have ho' : off ≠ off' := fun e => ho e.symm
    simp [privVal, sharedVal, ho, ho']

/-- A shared page is expected to hold the same in all processes. -/
theorem expect_shared (hf : flags = mapShared) (q : Nat) :
    expect hist flags q v = expect hist flags p v := by
  subst hf
  rfl

theorem expect_wrote_ne {off w : Nat} {b : UInt8} (hne : v = w → p ≠ q ∧ flags = mapPrivate) :
    expect (.wrote p v off b :: hist) flags q w = expect hist flags q w := by
  funext off'
  unfold expect
  split
  · rw [privVal, if_neg]
    rintro ⟨rfl, rfl, -⟩
    exact (hne rfl).1 rfl
  · rename_i hfl
    rw [sharedVal, if_neg]
    rintro ⟨rfl, -⟩
    exact hfl (hne rfl).2

variable (hu : AnonAreas shapes) (h : CowInv shapes m) (hh : Holds hist m) (hp : p < m.nproc)
  (hl : vmmapLookup (m.proc p).pVmmap v = some a)
include hu h hh hp hl

/-- **An access** reaches the frame of the page in the top object of its area, and keeps the
invariant and what is expected. -/
theorem userAccess_spec : ∃ m' f, userAccess m p v = .ok (some (m', f)) ∧ CowInv shapes m' ∧
    Holds hist m' ∧
      m'.pframeHash a.vmaObj (a.pagenum v) = some f ∧ m'.nproc = m.nproc ∧
      ∀ q, (m'.proc q).pVmmap = (m.proc q).pVmmap := by
  cases hpd : (m.proc p).pPagedir v with
  | some f =>
    obtain ⟨a', hl', hf⟩ := h.pages p hp hpd
    rw [hl] at hl'
    cases hl'
    exact ⟨m, f, by simp only [userAccess, hpd], h, hh, hf, rfl, fun _ => rfl⟩
  | none =>
    obtain ⟨i, hi, hia⟩ := h.idx hp hl
    obtain ⟨n, hn⟩ : ∃ n, m.nobj = n + 1 := ⟨m.nobj - 1, by have := h.objLt p hp hia; omega⟩
    obtain ⟨m1, f, hget, hf⟩ := pframeGet_spec h.chains (h.objLt p hp hia) (hh p hp hl) n
    have hshape := h.shape_mem hp hia
    have hmem : a.shape ∈ shapes := mem_of_getElem? hshape
    have hcov := (of_lookup_eq_some hl).2
    have huser : (decide (userMemLow ≤ v) && decide (v < userMemHigh)) = true := by
      have h1 := hu.user _ hmem
      have h2 := covers_iff.mp hcov
      simp only [shape] at h1
      simp only [Bool.and_eq_true, decide_eq_true_eq]
      omega
    have hproc : ∀ q, ((m1.setProc p { m1.proc p with
        pPagedir := update (m1.proc p).pPagedir v (some f) }).proc q).pVmmap
        = (m.proc q).pVmmap := by
      intro q
      rw [← hf.proc]
      by_cases hq : q = p
      · subst hq
        simp [Memory.setProc]
      · simp [Memory.setProc, hq]
    refine ⟨m1.setProc p { m1.proc p with
      pPagedir := update (m1.proc p).pPagedir v (some f) }, f, ?_, h.fault hp hl hf, ?_,
      hf.hash, hf.nproc, hproc⟩
    · simp only [userAccess, hpd, handlePagefault, hl, hn, hget, ok_bind, ptMap, kassert_of huser,
        pure_eq_ok, Memory.setProc, update_self]
    · intro q hq w a' hl'
      rw [hproc] at hl'
      exact sees_setProc (hf.sees (hh q (hf.nproc ▸ hq) hl'))

/-- **A read returns what is expected.** -/
theorem userRead_spec (off : Nat) :
    ∃ m', userRead m p v off = .ok (some (m', expect hist a.vmaFlags p v off)) ∧
      CowInv shapes m' ∧ Holds hist m' := by
  obtain ⟨m', f, hacc, h', hh', hf, hnp, hmap⟩ := userAccess_spec hu h hh hp hl
  refine ⟨m', ?_, h', hh'⟩
  have hd := (Sees.resident hf).unique (hh' p (hnp ▸ hp) (by rw [hmap]; exact hl))
  simp only [userRead, hacc, ok_bind, pure_eq_ok, map_some, hd]

/-! ## 5. Writes -/

/-- **A write is seen by its process**, and in a shared area by all, and by no other page. -/
theorem userWrite_spec (off : Nat) (b : UInt8) :
    ∃ m', userWrite m p v off b = .ok (some m') ∧ CowInv shapes m' ∧
      Holds (.wrote p v off b :: hist) m' ∧ m'.nproc = m.nproc := by
  obtain ⟨m1, f, hacc, h1, hh1, hf, hnp, hmap⟩ := userAccess_spec hu h hh hp hl
  have hp1 : p < m1.nproc := hnp ▸ hp
  have hl1 : vmmapLookup (m1.proc p).pVmmap v = some a := by rw [hmap]; exact hl
  have hd := (Sees.resident hf).unique (hh1 p hp1 hl1)
  refine ⟨m1.setFrame f (update (m1.pfAddr f) off b), ?_, h1.setFrame _ _, ?_, hnp⟩
  · simp only [userWrite, hacc, ok_bind, pure_eq_ok, map_some]
  · intro q hq w a' hl'
    change q < m1.nproc at hq
    change vmmapLookup (m1.proc q).pVmmap w = some a' at hl'
    obtain ⟨i, hi, hia⟩ := h1.idx hp1 hl1
    obtain ⟨j, hj, hja⟩ := h1.idx hq hl'
    by_cases hsame : a'.vmaObj = a.vmaObj ∧ a'.pagenum w = a.pagenum v
    · -- the same page of the same object: one area, one page, and one process unless shared
      obtain ⟨hobj, hpn⟩ := hsame
      obtain ⟨hij, hpq⟩ := h1.excl p hp1 q hq hia hja hobj.symm
      subst hij
      obtain rfl : a' = a := eq_of_shape (h1.shape_eq hq hp1 hja hia) hobj
      have hend := (hu.user _ (mem_of_getElem? (h1.shape_mem hp1 hia))).2
      have hvw : w = v := pagenum_inj hend (of_lookup_eq_some hl').2 (of_lookup_eq_some hl1).2 hpn
      subst hvw
      have hs : Sees (m1.setFrame f (update (m1.pfAddr f) off b)) (a'.pagenum w) a'.vmaObj
          (update (m1.pfAddr f) off b) := by
        have := Sees.resident (m := m1.setFrame f (update (m1.pfAddr f) off b)) hf
        simpa only [Memory.setFrame, update_self] using this
      obtain rfl | hshared := hpq
      · rw [expect_wrote_self, ← hd]
        exact hs
      · rw [expect_shared hshared (p := p), expect_wrote_self, ← hd]
        exact hs
    · refine Sees.setFrame h1.chains hf (fun x hx =>
        h1.top p hp1 hia x hx) ?_ (h1.objLt q hq hja) hsame
      rw [expect_wrote_ne]
      · exact hh1 q hq hl'
      · rintro rfl
        rw [hi] at hj
        cases hj
        have hsh := h1.shape_eq hq hp1 hja hia
        have hpn : a'.pagenum v = a.pagenum v := pagenum_of_shape hsh v
        have hfl : a'.vmaFlags = a.vmaFlags := flags_of_shape hsh
        constructor
        · rintro rfl
          rw [hia] at hja
          cases hja
          exact hsame ⟨rfl, rfl⟩
        · obtain hpr | hs := hu.flags _ (mem_of_getElem? (h1.shape_mem hp1 hia))
          · rw [hfl]
            exact hpr
          · exact absurd ⟨(h1.shared p hp1 q hq hia hja hs).symm, hpn⟩ hsame

end

end Weenix.Vm
