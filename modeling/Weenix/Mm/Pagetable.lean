/-
# Page tables

`pt_init` puts the page directory, the page for temporary mappings and the page tables one after the
other behind the kernel, fills one table for each 4 MB of memory and hands what is left to the page
allocator. The end of the last table is taken as `(uintptr_t) pagetable + PT_ENTRY_COUNT`, which is
1024 bytes into it and not one table further, and `page_add_range` rounds down.  Sums are those of
naturals: `physmax` is one for which none wraps.

`pt_unmap_range` clears from `vlow` to the end of its table, and from the start of the table of
`vhigh` up to it.  In one table that is more than the range.
-/
import Weenix.Mm.PageSeparation
import Weenix.Vm.Shadow

namespace Weenix.Page

open Option

open Weenix.Vm (ptEntryCount userMemLow userMemHigh)

/-! ## 1. `pt_init` -/

def ptVaddrSize : Nat := pageSize * ptEntryCount

def kernelPhysBase : Nat := 0x100000

/-- `&kernel_start` -/
def kernelStart : Nat := 0xc0000000

/-- The directory and the entries of the tables that have been filled.  All have the flags
`PRESENT` and `WRITE`, which are left out, and `pd_physical` has the physical address of what
`pd_virtual` has. -/
structure Boot where
  pdVirtual : Nat → Option Nat
  table : Nat → Option (Nat → Nat)

/-- `_pt_fill_page(pd, pt, pdflags, ptflags, vstart, pstart)` -/
def ptFillPage (b : Boot) (pt vstart pstart : Nat) : Except Halt Boot := do
  kassert (vstart % ptVaddrSize == 0) "0 == vstart % PT_VADDR_SIZE"
  return ⟨update b.pdVirtual (vstart / ptVaddrSize) (some pt),
    update b.table pt (some fun i => pageAlignDown (i * pageSize + pstart))⟩

/-- The loop of `pt_init`, which returns the last `pagetable`. -/
def ptInitLoop (physmax : Nat) : Nat → Boot → Nat → Nat → Nat → Except Halt (Boot × Nat)
  | 0, _, _, _, _ => .error .hang
  | fuel + 1, b, pagetable, vaddr, paddr => do
    let pagetable := pagetable + pageSize
    let vaddr := vaddr + ptVaddrSize
    let paddr := paddr + ptVaddrSize
    let b ← ptFillPage b pagetable vaddr paddr
    if paddr < physmax then ptInitLoop physmax fuel b pagetable vaddr paddr
      else return (b, pagetable)

/-- The directory that has only the final page. -/
def Boot.start (finalPage : Nat) : Boot :=
  ⟨update (fun _ => none) (ptEntryCount - 1) (some finalPage), fun _ => none⟩

/-- `pt_init()`, with the arguments of the call of `page_add_range`. -/
def ptInit (kernelEnd physmax : Nat) : Except Halt (Boot × Nat × Nat) := do
  kassert (kernelEnd % pageSize == 0) "PAGE_ALIGNED(pagedir)"
  let finalPage := kernelEnd + 2 * pageSize
  let pagetable := finalPage + pageSize
  let b ← ptFillPage (.start finalPage) pagetable 0 0
  let pagetable := pagetable + pageSize
  let b ← ptFillPage b pagetable kernelStart kernelPhysBase
  let (b, pagetable) ← ptInitLoop physmax (physmax + 1) b pagetable kernelStart kernelPhysBase
  return (b, pagetable + ptEntryCount, physmax + kernelStart - kernelPhysBase)

/-- The physical address of `a`. -/
def Boot.walk (b : Boot) (a : Nat) : Option Nat := do
  let pt ← b.pdVirtual (a / ptVaddrSize)
  let entries ← b.table pt
  return entries (a / pageSize % ptEntryCount) + a % pageSize

/-- The memory between the two addresses, as `page_add_range` rounds them. -/
abbrev Given (start stop a : Nat) : Prop := pageAlignDown start ≤ a ∧ a < pageAlignDown stop

/-- Behind the table of the first 4 MB, `n` tables have been filled. -/
structure Filled (kernelEnd n : Nat) (b : Boot) : Prop where
  tables : ∀ pt, (b.table pt).isSome → ∃ j ≤ n, pt = kernelEnd + (3 + j) * pageSize
  maps : ∀ j < n, b.pdVirtual (768 + j) = some (kernelEnd + (4 + j) * pageSize) ∧
    b.table (kernelEnd + (4 + j) * pageSize)
      = some fun i => pageAlignDown (i * pageSize + (kernelPhysBase + j * ptVaddrSize))

theorem ptVaddrSize_eq : ptVaddrSize = 0x400000 := rfl

variable {kernelEnd n physmax : Nat} {b : Boot}

theorem Filled.fill (h : Filled kernelEnd n b) : ∃ b', ptFillPage b (kernelEnd + (4 + n) * pageSize)
    (kernelStart + n * ptVaddrSize) (kernelPhysBase + n * ptVaddrSize) = .ok b' ∧
    Filled kernelEnd (n + 1) b' := by
  have hdiv : (kernelStart + n * ptVaddrSize) / ptVaddrSize = 768 + n := by
    rw [Nat.add_mul_div_right _ _ (by decide)]
    rfl
  have hmod : (kernelStart + n * ptVaddrSize) % ptVaddrSize = 0 := by
    rw [Nat.add_mul_mod_self_right]
    rfl
  refine ⟨_, by rw [ptFillPage, kassert_of (beq_iff_eq.mpr hmod), ok_bind]; rfl, fun pt hpt => ?_,
    fun j hj => ?_⟩
  · obtain rfl | hne := eq_or_ne pt (kernelEnd + (4 + n) * pageSize)
    · exact ⟨n + 1, le_rfl, by rw [pageSize_eq]; omega⟩
    · dsimp only at hpt
      rw [update_of_ne hne] at hpt
      obtain ⟨j, hj, rfl⟩ := h.tables pt hpt
      exact ⟨j, by omega, rfl⟩
  · dsimp only
    rw [hdiv]
    obtain rfl | hne := eq_or_ne j n
    · exact ⟨update_self .., update_self ..⟩
    · rw [update_of_ne (by omega), update_of_ne (by rw [pageSize_eq]; omega)]
      exact h.maps j (by omega)

/-- How many tables the loop fills: one for each 4 MB, begun or whole, behind the first megabyte,
and at least one. -/
def tables (physmax : Nat) : Nat :=
  max 1 ((physmax - kernelPhysBase + (ptVaddrSize - 1)) / ptVaddrSize)

/-- **The loop** stops when the tables reach beyond `physmax`. -/
theorem ptInitLoop_spec {fuel : Nat} (h : Filled kernelEnd (n + 1) b) (hfuel : physmax < fuel + n)
    (hmore : n = 0 ∨ kernelPhysBase + n * ptVaddrSize < physmax) :
    ∃ b', ptInitLoop physmax fuel b (kernelEnd + (4 + n) * pageSize) (kernelStart + n * ptVaddrSize)
      (kernelPhysBase + n * ptVaddrSize) = .ok (b', kernelEnd + (4 + tables physmax) * pageSize) ∧
      Filled kernelEnd (tables physmax + 1) b' := by
  induction fuel generalizing n b with
  | zero =>
    rw [ptVaddrSize_eq] at hmore
    omega
  | succ fuel ih =>
    obtain ⟨b', hfill, h'⟩ := h.fill
    have hnext : ∀ x, x + n * ptVaddrSize + ptVaddrSize = x + (n + 1) * ptVaddrSize := fun x => by
      rw [Nat.add_one_mul, Nat.add_assoc]
    have hpt : kernelEnd + (4 + n) * pageSize + pageSize =
        kernelEnd + (4 + (n + 1)) * pageSize := by
      rw [← Nat.add_assoc 4, Nat.add_one_mul, Nat.add_assoc]
    rw [ptInitLoop, hpt, hnext kernelStart, hnext kernelPhysBase, hfill, ok_bind]
    split
    next hlt => exact ih h' (by omega) (.inr hlt)
    next hge =>
      have hlast : tables physmax = n + 1 := by
        simp only [tables, kernelPhysBase, ptVaddrSize_eq] at hmore hge ⊢
        omega
      rw [hlast]
      exact ⟨b', rfl, h'⟩

theorem Filled.walk (h : Filled kernelEnd n b) {a : Nat} (hlo : kernelStart ≤ a)
    (hhi : a < kernelStart + n * ptVaddrSize) :
    b.walk a = some (a - kernelStart + kernelPhysBase) := by
  simp only [kernelStart, ptVaddrSize_eq] at hlo hhi ⊢
  obtain ⟨j, hj⟩ : ∃ j, a / 0x400000 = 768 + j := ⟨a / 0x400000 - 768, by omega⟩
  obtain ⟨hdir, htable⟩ := h.maps j (by omega)
  simp only [Boot.walk, ptVaddrSize_eq, hj, hdir, htable, bind_eq_bind, bind_some,
    pure_def, some_inj]
  simp only [pageAlignDown, pageSize_eq, kernelPhysBase, ptEntryCount]
  omega

/-- `pt_init` fills the tables of the loop and two before them. -/
theorem ptInit_spec (physmax : Nat) (halign : kernelEnd % pageSize = 0) :
    ∃ b, ptInit kernelEnd physmax = .ok (b,
      kernelEnd + (4 + tables physmax) * pageSize + ptEntryCount,
      physmax + kernelStart - kernelPhysBase) ∧ Filled kernelEnd (tables physmax + 1) b := by
  obtain ⟨b₀, hfirst, h₀⟩ : ∃ b₀, ptFillPage (.start (kernelEnd + 2 * pageSize))
      (kernelEnd + 2 * pageSize + pageSize) 0 0 = .ok b₀ ∧ Filled kernelEnd 0 b₀ := by
    refine ⟨_, rfl, fun pt hpt => ⟨0, le_rfl, ?_⟩, fun j hj => absurd hj (Nat.not_lt_zero j)⟩
    by_contra hne
    dsimp only at hpt
    rw [update_of_ne (by omega)] at hpt
    exact Bool.false_ne_true hpt
  obtain ⟨b₁, hsecond, h₁⟩ := h₀.fill
  obtain ⟨b, hloop, hdone⟩ := ptInitLoop_spec h₁ (Nat.lt_succ_self physmax) (.inl rfl)
  refine ⟨b, ?_, hdone⟩
  have hpt : kernelEnd + 2 * pageSize + pageSize + pageSize = kernelEnd + (4 + 0) * pageSize := by
    omega
  rw [Nat.zero_mul, Nat.add_zero kernelStart, Nat.add_zero kernelPhysBase] at hsecond hloop
  rw [ptInit, kassert_of (beq_iff_eq.mpr halign), ok_bind]
  simp only [hfirst, hpt, hsecond, hloop, ok_bind]
  rfl

/-- **What `pt_init` hands over** is mapped where it should be and is behind the directory, the
final page and all tables but the last.  That one is in it, unless there is so little memory that
nothing is handed over: less than one page from the start of the last table on. -/
theorem hand_over (kernelEnd physmax : Nat) (halign : kernelEnd % pageSize = 0)
    (hend : kernelStart ≤ kernelEnd) :
    ∃ b start stop, ptInit kernelEnd physmax = .ok (b, start, stop) ∧
      (∀ a, Given start stop a → b.walk a = some (a - kernelStart + kernelPhysBase) ∧
        kernelEnd + 3 * pageSize ≤ a ∧
        ∀ pt, (b.table pt).isSome → pt + pageSize ≤ a ∨ pt = pageAlignDown start) ∧
      ((∀ pt, (b.table pt).isSome → ∀ a, Given start stop a → a < pt ∨ pt + pageSize ≤ a) ↔
        physmax + kernelStart < kernelEnd + kernelPhysBase + (5 + tables physmax) * pageSize) := by
  obtain ⟨b, hinit, h⟩ := ptInit_spec physmax halign
  refine ⟨b, _, _, hinit, ?_⟩
  have hmax : physmax ≤ kernelPhysBase + tables physmax * ptVaddrSize := by
    simp only [tables, kernelPhysBase, ptVaddrSize_eq]
    omega
  generalize tables physmax = n at h hmax ⊢
  have hstart :
      pageAlignDown (kernelEnd + (4 + n) * 4096 + ptEntryCount) = kernelEnd + (4 + n) * 4096 := by
    simp only [pageAlignDown, pageSize_eq, ptEntryCount] at halign ⊢
    omega
  have hstop := pageAlignDown_le (physmax + kernelStart - kernelPhysBase)
  simp only [Given, hstart, pageSize_eq] at hstop ⊢
  refine ⟨fun a ha => ⟨h.walk ?_ ?_, ?_, fun pt hpt => ?_⟩, fun hall => ?_,
    fun hlittle pt hpt a ha => ?_⟩
  · omega
  · simp only [kernelStart, kernelPhysBase, ptVaddrSize_eq] at *
    omega
  · omega
  · obtain ⟨j, hj, rfl⟩ := h.tables pt hpt
    rw [pageSize_eq]
    omega
  · -- the first page of what is handed over is the last table
    by_contra hmore
    have hlast := hall (kernelEnd + (4 + n) * 4096)
      (by rw [← pageSize_eq, (h.maps n (by omega)).2]; rfl)
      (kernelEnd + (4 + n) * 4096) ⟨le_rfl, ?_⟩
    · omega
    · simp only [pageAlignDown, pageSize_eq, kernelStart, kernelPhysBase] at halign hmore ⊢
      omega
  · simp only [pageAlignDown, pageSize_eq, kernelStart, kernelPhysBase] at halign hlittle ha
    omega

/-- 128 MB of memory. -/
theorem hand_over_128 : ∃ b start stop, ptInit 0xc0046000 0x8000000 = .ok (b, start, stop) ∧
    ∀ a, Given start stop a → b.walk a = some (a - kernelStart + kernelPhysBase) := by
  obtain ⟨b, start, stop, h, hgiven, -⟩ := hand_over 0xc0046000 0x8000000 (by decide) (by decide)
  exact ⟨b, start, stop, h, fun a ha => (hgiven a ha).1⟩

/-- **The last table is handed over**, which the directory has for the 4 MB from 0xc8000000. -/
theorem table_handed_over : (ptInit 0xc0046000 0x8000000).toOption.any (fun r =>
    (r.1.table 0xc006a000).isSome ∧ Given r.2.1 r.2.2 0xc006a000) = true := by
  decide +kernel

/-! ## 2. `pt_unmap_range` -/

/-- The loop of `pt_unmap_range` over the tables, with the pages it frees. -/
def freeTables : List Nat → (Nat → Option Nat) → (Nat → Option Nat) × List Nat
  | [], dir => (dir, [])
  | i :: is, dir =>
    match dir i with
    | none => freeTables is dir
    | some pt =>
      let (dir, freed) := freeTables is (update dir i none)
      (dir, pt :: freed)

/-- `pt_unmap_range(pd, vlow, vhigh)` with the tables: `dir` is `pd_virtual` and `pd` has
the entries. -/
def ptUnmapRange (dir pd : Nat → Option Nat) (vlow vhigh : Nat) :
    Except Halt ((Nat → Option Nat) × (Nat → Option Nat) × List Nat) := do
  let pd ← Vm.ptUnmapRange pd vlow vhigh
  let low := (vlow + (ptEntryCount - vlow % ptEntryCount) % ptEntryCount) / ptEntryCount
  let high := (vhigh - vhigh % ptEntryCount) / ptEntryCount
  let (dir, freed) := freeTables (List.range' low (high - low)) dir
  return (dir, pd, freed)

/-- The entry for a page, if its table is present. -/
def walk (dir pd : Nat → Option Nat) (vfn : Nat) :
    Option Nat := (dir (vfn / ptEntryCount)).bind fun _ => pd vfn

/-- Each table is in the directory once. -/
def Once (dir : Nat → Option Nat) : Prop := ∀ i j pt, dir i = some pt → dir j = some pt → i = j

variable {dir pd : Nat → Option Nat}

theorem freeTables_spec (is : List Nat) (h : Once dir) :
    (freeTables is dir).1 = (fun j => if j ∈ is then none else dir j) ∧
    (freeTables is dir).2.Nodup ∧ ∀ pt ∈ (freeTables is dir).2, ∃ i ∈ is, dir i = some pt := by
  induction is generalizing dir with
  | nil => simp [freeTables]
  | cons i is ih =>
    rw [freeTables]
    cases hi : dir i with
    | none =>
      obtain ⟨hdir, hnodup, hmem⟩ := ih h
      exact ⟨hdir.trans (funext fun j => by grind), hnodup, by grind⟩
    | some pt =>
      have hrest : Once (update dir i none) := fun j k q hj hk => by grind [Once]
      obtain ⟨hdir, hnodup, hmem⟩ := ih hrest
      exact ⟨hdir.trans (funext fun j => by grind),
        List.nodup_cons.mpr ⟨by grind [Once], hnodup⟩, by grind⟩

/-- The range neither begins its table nor ends in another one: the two memsets then clear the
whole table. -/
def InOneTable (vlow vhigh : Nat) : Prop :=
  vlow % ptEntryCount ≠ 0 ∧ vlow / ptEntryCount = vhigh / ptEntryCount
deriving Decidable

/-- What the call clears: the range, or the one table it lies in. -/
theorem cleared_iff {vlow vhigh : Nat} (hlt : vlow < vhigh) (vfn : Nat) :
    (vfn / ptEntryCount ∈
      List.range' ((vlow + (ptEntryCount - vlow % ptEntryCount) % ptEntryCount) / ptEntryCount)
        ((vhigh - vhigh % ptEntryCount) / ptEntryCount
          - (vlow + (ptEntryCount - vlow % ptEntryCount) % ptEntryCount) / ptEntryCount) ∨
      Vm.unmaps vlow vhigh vfn = true) ↔
    (vlow ≤ vfn ∧ vfn < vhigh) ∨ InOneTable vlow vhigh ∧
      vfn / ptEntryCount = vlow / ptEntryCount := by
  simp only [List.mem_range'_1, Vm.unmaps, Bool.or_eq_true, Bool.and_eq_true,
    bne_iff_ne, beq_iff_eq, decide_eq_true_eq]
  simp only [InOneTable, ptEntryCount]
  omega

/-- **A range is unmapped exactly** if it begins a table or ends in another one, or if nothing else
is mapped in its table.  The tables that are freed are freed once, and the directory does not have
them any more. -/
theorem unmap_range (vlow vhigh : Nat) (h : Once dir) (hlt : vlow < vhigh) (hlo : userMemLow ≤ vlow)
    (hhi : vhigh ≤ userMemHigh) :
    ∃ dir' pd' freed, ptUnmapRange dir pd vlow vhigh = .ok (dir', pd', freed) ∧
      freed.Nodup ∧ (∀ pt ∈ freed, ∀ i, dir' i ≠ some pt) ∧
      ((∀ vfn, walk dir' pd' vfn = if vlow ≤ vfn ∧ vfn < vhigh then none else walk dir pd vfn) ↔
        (InOneTable vlow vhigh → ∀ vfn, vfn / ptEntryCount = vlow / ptEntryCount →
          vfn < vlow ∨ vhigh ≤ vfn → walk dir pd vfn = none)) := by
  refine ⟨_, _, _, by
    rw [ptUnmapRange, Vm.ptUnmapRange, kassert_of (decide_eq_true hlt), ok_bind,
      kassert_of (by simp [hlo, hhi])]
    rfl, ?_⟩
  have hcleared := cleared_iff hlt
  generalize List.range' _ _ = is at hcleared ⊢
  obtain ⟨hdir, hnodup, hmem⟩ := freeTables_spec is h
  refine ⟨hnodup, fun pt hpt i hi => ?_, ?_⟩
  · obtain ⟨j, hj, hpt⟩ := hmem pt hpt
    rw [hdir] at hi
    obtain ⟨hnot, hi⟩ := ite_none_left_eq_some.mp hi
    exact hnot (h i j pt hi hpt ▸ hj)
  · have hwalk : ∀ vfn, walk (freeTables is dir).1 (fun vfn => if Vm.unmaps vlow vhigh vfn then none
      else pd vfn) vfn =
        if (vlow ≤ vfn ∧ vfn < vhigh) ∨ InOneTable vlow vhigh ∧
          vfn / ptEntryCount = vlow / ptEntryCount then none
        else walk dir pd vfn := by
      intro vfn
      rw [← if_congr (hcleared vfn) rfl rfl]
      unfold walk
      rw [hdir]
      by_cases hj : vfn / ptEntryCount ∈ is
      · simp [hj]
      · cases hu : Vm.unmaps vlow vhigh vfn <;> simp [hj, hu]
    simp only [hwalk]
    constructor
    · intro hexact hone vfn htable hout
      have hvfn := hexact vfn
      rwa [if_pos (.inr ⟨hone, htable⟩), if_neg (by omega), eq_comm] at hvfn
    · intro halone vfn
      by_cases hin : vlow ≤ vfn ∧ vfn < vhigh
      · rw [if_pos (.inl hin), if_pos hin]
      · rw [if_neg hin]
        refine ite_eq_right_iff.mpr fun hcase => ?_
        obtain ⟨hone, htable⟩ := hcase.resolve_left hin
        exact (halone hone vfn htable (by omega)).symm

/-- Two tables. -/
theorem unmap_range_two : ∃ dir pd freed,
    ptUnmapRange some (fun _ => some 7) 0x400 0xc00 = .ok (dir, pd, freed) ∧
    walk dir pd 0xbff = none ∧ walk dir pd 0xc00 = some 7 := by
  obtain ⟨dir, pd, freed, hrun, -, -, hexact⟩ := unmap_range 0x400 0xc00
    (fun _ _ _ hi hj => some.inj (hi.trans hj.symm)) (by decide) (by decide) (by decide)
  have hwalk := hexact.mpr fun hone => absurd rfl hone.1
  exact ⟨dir, pd, freed, hrun, hwalk 0xbff, hwalk 0xc00⟩

/-- **One page, and the whole table with it.** -/
theorem unmap_range_table : (ptUnmapRange some (fun _ => some 7) 0x401 0x402).toOption.any (fun r =>
    walk r.1 r.2.1 0x400 = none ∧ walk r.1 r.2.1 0x7ff = none) = true := by
  decide +kernel

end Weenix.Page
