/-
# Copy-on-write isolation: runs

A family of processes starts from one process whose areas were mapped by `vmmap_map` without a
file and not touched since (`AnonSpace`).  Its calls are forks and reads and writes of single
bytes.  The state keeps the history of writes and forks beside the memory; no call reads it.

`cow_isolation`: in every state of every run all calls return, and what a read returns is what
the history says.
-/
import Weenix.Lib.Run
import Weenix.Vm.CowFork
import Weenix.Vm.VmmapInsert

namespace Weenix.Vm

open List Option Vmarea

variable {m m' : Memory} {o : Nat}

/-! ## 1. Address spaces of anonymous areas -/

def anonCreate (m : Memory) : Memory × Nat :=
  ({ m with mmobj := update m.mmobj m.nobj ⟨.anon, none⟩, nobj := m.nobj + 1 }, m.nobj)

/-- The object `vmmap_map` makes for an area without a file. -/
def anonObj (m : Memory) (flags : Nat) : Memory × Nat :=
  if flags = mapPrivate then shadowCreate (anonCreate m).1 (anonCreate m).2 else anonCreate m

/-- `vmmap_map` of process `p` without a file and at a given address where nothing is mapped. -/
def vmmapMapAnon (m : Memory) (p : Nat) (newvma : Vmarea) : Except Halt Memory := do
  let r := anonObj m newvma.vmaFlags
  let map ← vmmapInsert (r.1.proc p).pVmmap { newvma with vmaObj := r.2 }
  return r.1.setProc p { r.1.proc p with pVmmap := map }

/-- One process that has mapped nothing. -/
def emptySpace (junk : Nat → Nat → UInt8) : Memory where
  mmobj := fun _ => ⟨.anon, none⟩
  nobj := 0
  pframeHash := fun _ _ => none
  pfAddr := junk
  npframe := 0
  proc := fun _ => ⟨[], fun _ => none⟩
  nproc := 1

/-- One process whose areas are anonymous, each with an object of its own, and untouched. -/
structure AnonSpace (m : Memory) : Prop where
  nproc : m.nproc = 1
  chains : Chains m
  areas : AnonAreas (m.proc 0).pVmmap
  objLt : ∀ a ∈ (m.proc 0).pVmmap, a.vmaObj < m.nobj
  top : ∀ a ∈ (m.proc 0).pVmmap, ∀ o < m.nobj, (m.mmobj o).mmoShadowed ≠ some a.vmaObj
  own : ((m.proc 0).pVmmap.map Vmarea.vmaObj).Nodup
  untouched : ∀ o k, m.pframeHash o k = none
  unmapped : ∀ v, (m.proc 0).pPagedir v = none

theorem emptySpace_anonSpace (junk : Nat → Nat → UInt8) : AnonSpace (emptySpace junk) where
  nproc := rfl
  chains := ⟨fun _ h => absurd h (Nat.not_lt_zero _), fun _ h => absurd h (Nat.not_lt_zero _),
    (fun h => nomatch h), (fun h => nomatch h)⟩
  areas := ⟨⟨by simp [emptySpace], by simp [emptySpace]⟩, by simp [emptySpace], by
    simp [emptySpace]⟩
  objLt := by simp [emptySpace]
  top := by simp [emptySpace]
  own := by simp [emptySpace]
  untouched _ _ := rfl
  unmapped _ := rfl

/-- What a new object leaves as it was, and what it is. -/
structure NewObj (m m' : Memory) (o : Nat) : Prop where
  hash : m'.pframeHash = m.pframeHash
  npframe : m'.npframe = m.npframe
  proc : m'.proc = m.proc
  nproc : m'.nproc = m.nproc
  ge : m.nobj ≤ o
  lt : o < m'.nobj
  nobj : m.nobj ≤ m'.nobj
  old : ∀ x < m.nobj, m'.mmobj x = m.mmobj x
  new : ∀ x, m.nobj ≤ x → x < m'.nobj →
    m'.mmobj x = ⟨.anon, none⟩ ∨ ∃ y, m.nobj ≤ y ∧ y < x ∧ y ≠ o ∧ m'.mmobj x = ⟨.shadow, some y⟩

theorem anonObj_spec (m : Memory) (flags : Nat) :
    NewObj m (anonObj m flags).1 (anonObj m flags).2 := by
  unfold anonObj
  split
  · refine ⟨rfl, rfl, rfl, rfl, ?_, ?_, ?_, ?_, ?_⟩
    · exact Nat.le_succ _
    · exact Nat.lt_succ_self _
    · exact Nat.le_add_right m.nobj 2
    · intro x hx
      have h1 : x ≠ m.nobj := by omega
      have h2 : x ≠ m.nobj + 1 := by omega
      simp [shadowCreate, anonCreate, h1, h2]
    · intro x h1 h2
      change x < m.nobj + 2 at h2
      obtain rfl | h := Nat.eq_or_lt_of_le h1
      · left
        simp [shadowCreate, anonCreate]
      · obtain rfl : x = m.nobj + 1 := by omega
        right
        refine ⟨m.nobj, le_rfl, Nat.lt_succ_self _, Nat.ne_of_lt (Nat.lt_succ_self _), ?_⟩
        simp [shadowCreate, anonCreate]
  · refine ⟨rfl, rfl, rfl, rfl, le_rfl, Nat.lt_succ_self _, Nat.le_succ _, ?_, ?_⟩
    · intro x hx
      simp [anonCreate, hx.ne]
    · intro x h1 h2
      change x < m.nobj + 1 at h2
      obtain rfl : x = m.nobj := by omega
      left
      simp [anonCreate]

theorem NewObj.chains (h : NewObj m m' o) (hc : Chains m) : Chains m' :=
  hc.grow h.hash h.npframe h.nobj h.old fun x hge hlt =>
    (h.new x hge hlt).imp id fun ⟨y, _, hyx, _, he⟩ => ⟨y, hyx, he⟩

/-- Nothing shadows the new object, and nothing new shadows an old one. -/
theorem NewObj.top (h : NewObj m m' o) (hc : Chains m) {x y : Nat}
    (hx : x < m'.nobj) (hs : (m'.mmobj x).mmoShadowed = some y) :
    y ≠ o ∧ (y < m.nobj → x < m.nobj ∧ (m.mmobj x).mmoShadowed = some y) := by
  by_cases hold : x < m.nobj
  · rw [h.old x hold] at hs
    have := hc.lt hold hs
    have := h.ge
    exact ⟨by omega, fun _ => ⟨hold, hs⟩⟩
  · obtain he | ⟨z, hz, -, hzo, he⟩ := h.new x (Nat.not_lt.mp hold) hx
    · rw [he] at hs
      cases hs
    · rw [he] at hs
      cases hs
      exact ⟨hzo, fun hlt => absurd hlt hz.not_gt⟩

/-- **Mapping one more area** at a free place gives an address space of anonymous areas again. -/
theorem vmmapMapAnon_spec (h : AnonSpace m) (newvma : Vmarea)
    (hne : newvma.vmaStart < newvma.vmaEnd)
    (huser : userMemLow ≤ newvma.vmaStart ∧ newvma.vmaEnd ≤ userMemHigh)
    (hfl : newvma.vmaFlags = mapPrivate ∨ newvma.vmaFlags = mapShared)
    (hd : ∀ a ∈ (m.proc 0).pVmmap, newvma.Disjoint a) :
    ∃ m', vmmapMapAnon m 0 newvma = .ok m' ∧ AnonSpace m' := by
  have hn := anonObj_spec m newvma.vmaFlags
  generalize hr : anonObj m newvma.vmaFlags = r at hn
  have hk1 : decide (newvma.vmaStart < newvma.vmaEnd) = true := decide_eq_true hne
  have hk2 : (decide (userMemLow ≤ newvma.vmaStart) && decide (newvma.vmaEnd ≤ userMemHigh)) =
      true := by
    simp only [huser.1, huser.2, decide_true, Bool.and_self]
  refine ⟨r.1.setProc 0 { r.1.proc 0 with
    pVmmap := insertArea { newvma with vmaObj := r.2 } (r.1.proc 0).pVmmap }, ?_, ?_⟩
  · simp only [vmmapMapAnon, hr, vmmapInsert, insertChecks, kassert_of hk1, kassert_of hk2,
      ok_bind, pure_eq_ok]
  · have hmap : (r.1.setProc 0 { r.1.proc 0 with
        pVmmap := insertArea { newvma with vmaObj := r.2 } (r.1.proc 0).pVmmap }).proc 0
        = ⟨insertArea { newvma with vmaObj := r.2 } (m.proc 0).pVmmap, (m.proc 0).pPagedir⟩ := by
      simp [Memory.setProc, hn.proc]
    have hc := hn.chains h.chains
    refine ⟨hn.nproc.trans h.nproc, { hc with }, ?_, ?_, ?_, ?_, ?_, ?_⟩
    · rw [hmap]
      refine ⟨insertArea_wellFormed { newvma with vmaObj := r.2 } hne
        h.areas.wellFormed hd, fun a ha => ?_, fun a ha => ?_⟩
      · obtain rfl | ha := mem_insertArea.mp ha
        · exact huser
        · exact h.areas.user a ha
      · obtain rfl | ha := mem_insertArea.mp ha
        · exact hfl
        · exact h.areas.flags a ha
    · rw [hmap]
      intro a ha
      obtain rfl | ha := mem_insertArea.mp ha
      · exact hn.lt
      · exact (h.objLt a ha).trans_le hn.nobj
    · rw [hmap]
      intro a ha x hx hs
      obtain ⟨hno, hold⟩ := hn.top h.chains hx hs
      obtain rfl | ha := mem_insertArea.mp ha
      · exact hno rfl
      · obtain ⟨hx', hs'⟩ := hold (h.objLt a ha)
        exact h.top a ha x hx' hs'
    · rw [hmap, ((insertArea_perm _ _).map _).nodup_iff, map_cons, nodup_cons]
      refine ⟨fun hmem => ?_, h.own⟩
      obtain ⟨a, ha, hobj⟩ := mem_map.mp hmem
      have h1 := h.objLt a ha
      have h2 := hn.ge
      change a.vmaObj = r.2 at hobj
      omega
    · intro o k
      change r.1.pframeHash o k = none
      rw [hn.hash]
      exact h.untouched o k
    · rw [hmap]
      exact h.unmapped

/-! ## 2. The invariant at the start -/

theorem AnonAreas.shapes {map : List Vmarea} (h : AnonAreas map) :
    AnonAreas (map.map Vmarea.shape) := by
  refine ⟨⟨?_, pairwise_map.mpr h.wellFormed.sorted⟩, ?_, ?_⟩
  · intro a ha
    obtain ⟨x, hx, rfl⟩ := mem_map.mp ha
    exact h.wellFormed.nonempty x hx
  · intro a ha
    obtain ⟨x, hx, rfl⟩ := mem_map.mp ha
    exact h.user x hx
  · intro a ha
    obtain ⟨x, hx, rfl⟩ := mem_map.mp ha
    exact h.flags x hx

theorem AnonSpace.cowInv (h : AnonSpace m) : CowInv ((m.proc 0).pVmmap.map Vmarea.shape) m := by
  have hz : ∀ {p : Nat}, p < m.nproc → p = 0 := fun hp => by
    rw [h.nproc] at hp
    omega
  refine ⟨h.chains, ?_, ?_, ?_, ?_, ?_, ?_⟩
  · intro p hp
    rw [hz hp]
  · intro p hp i a ha
    rw [hz hp] at ha
    exact h.objLt a (mem_of_getElem? ha)
  · intro p hp i a ha o ho
    rw [hz hp] at ha
    exact h.top a (mem_of_getElem? ha) o ho
  · intro p hp q hq i i' a a' ha ha' hobj
    refine ⟨?_, .inl ((hz hp).trans (hz hq).symm)⟩
    rw [hz hp] at ha
    rw [hz hq] at ha'
    have h1 : ((m.proc 0).pVmmap.map vmaObj)[i]? = some a.vmaObj := by
      rw [getElem?_map, ha]
      rfl
    have h2 : ((m.proc 0).pVmmap.map vmaObj)[i']? = some a.vmaObj := by
      rw [getElem?_map, ha', hobj]
      rfl
    have hi : i < ((m.proc 0).pVmmap.map vmaObj).length := (List.getElem?_eq_some_iff.mp h1).1
    exact (getElem?_inj hi h.own).mp (h1.trans h2.symm)
  · intro p hp q hq i a a' ha ha' _
    rw [hz hp] at ha
    rw [hz hq, ha] at ha'
    cases ha'
    rfl
  · intro p hp v f hv
    rw [hz hp, h.unmapped] at hv
    cases hv

theorem expect_nil (flags p v : Nat) : expect [] flags p v = fun _ => 0 := by
  funext off
  unfold expect
  split <;> rfl

theorem AnonSpace.holds (h : AnonSpace m) : Holds [] m := by
  have hzero : ∀ (k : Nat) {o : Nat}, o < m.nobj → Sees m k o fun _ => 0 := by
    intro k o
    induction o using Nat.strongRecOn with
    | ind o ih =>
      intro ho
      cases hs : (m.mmobj o).mmoShadowed with
      | none => exact .zero (h.untouched o k) hs
      | some o' =>
        have hlt := h.chains.lt ho hs
        exact .under (h.untouched o k) hs (ih o' hlt (hlt.trans ho))
  intro p hp v a hl
  rw [expect_nil]
  exact hzero _ (h.cowInv.lookup_objLt hp hl)

/-! ## 3. Runs -/

/-- Memory, and what happened to it with the latest event first. -/
structure MemState where
  mem : Memory
  hist : List MemEvent

variable {s : MemState}

/-- What a process of the family can do. -/
inductive MemCall where
  | doFork (p : Nat) (stale : Vmarea → Nat)
  | read (p vfn off : Nat)
  | write (p vfn off : Nat) (b : UInt8)

/-- One call.  A process that is killed by a page fault leaves the state as it is. -/
def memStep (s : MemState) : MemCall → Except Halt MemState
  | .doFork p stale => do
    return ⟨← doFork s.mem p stale, .forked p s.mem.nproc :: s.hist⟩
  | .read p vfn off => do
    match ← userRead s.mem p vfn off with
    | none => return s
    | some (m, _) => return ⟨m, s.hist⟩
  | .write p vfn off b => do
    match ← userWrite s.mem p vfn off b with
    | none => return s
    | some m => return ⟨m, .wrote p vfn off b :: s.hist⟩

/-- The calls are made by processes of the family, and accesses are to mapped areas. -/
def MemLegal (s : MemState) : MemCall → Prop
  | .doFork p _ => p < s.mem.nproc
  | .read p vfn _ | .write p vfn _ _ =>
    p < s.mem.nproc ∧ (vmmapLookup (s.mem.proc p).pVmmap vfn).isSome = true

instance (s : MemState) (c : MemCall) : Decidable (MemLegal s c) := by
  cases c <;> unfold MemLegal <;> infer_instance

/-- What every state of a run satisfies. -/
structure MemOk (shapes : List Vmarea) (s : MemState) : Prop where
  inv : CowInv shapes s.mem
  holds : Holds s.hist s.mem

/-- **Every legal call returns and keeps the invariant.** -/
theorem memStep_spec {shapes : List Vmarea} (hu : AnonAreas shapes) (h : MemOk shapes s)
    {c : MemCall} (hc : MemLegal s c) : ∃ t, memStep s c = .ok t ∧ MemOk shapes t := by
  cases c with
  | doFork p stale =>
    obtain ⟨m', heq, hinv, hh, -⟩ := doFork_spec hu h.inv h.holds hc stale
    exact ⟨⟨m', .forked p s.mem.nproc :: s.hist⟩, by simp only [memStep, heq, ok_bind, pure_eq_ok],
      hinv, hh⟩
  | read p vfn off =>
    obtain ⟨hp, hl⟩ := hc
    obtain ⟨a, ha⟩ := isSome_iff_exists.mp hl
    obtain ⟨m', heq, hinv, hh⟩ := userRead_spec hu h.inv h.holds hp ha off
    exact ⟨⟨m', s.hist⟩, by simp only [memStep, heq, ok_bind, pure_eq_ok], hinv, hh⟩
  | write p vfn off b =>
    obtain ⟨hp, hl⟩ := hc
    obtain ⟨a, ha⟩ := isSome_iff_exists.mp hl
    obtain ⟨m', heq, hinv, hh, -⟩ := userWrite_spec hu h.inv h.holds hp ha off b
    exact ⟨⟨m', .wrote p vfn off b :: s.hist⟩, by simp only [memStep, heq, ok_bind, pure_eq_ok],
      hinv, hh⟩

theorem memOk_of_run {m₀ : Memory} (h₀ : AnonSpace m₀)
    (hr : Lts.Run MemLegal memStep ⟨m₀, []⟩ s) : MemOk ((m₀.proc 0).pVmmap.map Vmarea.shape) s := by
  refine hr.invariant (I := MemOk _) ⟨h₀.cowInv, h₀.holds⟩ fun t c u ht hc hstep => ?_
  obtain ⟨t', heq, ht'⟩ := memStep_spec h₀.areas.shapes ht hc
  rw [heq] at hstep
  cases hstep
  exact ht'

/-- **Copy-on-write isolation.**  In every state of every run from an address space of anonymous
areas every call returns, a read of a private page returns what its process last wrote there since
the fork that created it, or else what its parent had there at that fork, and a read of a shared
page returns what any process last wrote there. -/
theorem cow_isolation {m₀ : Memory} (h₀ : AnonSpace m₀) {s : MemState}
    (hr : Lts.Run MemLegal memStep ⟨m₀, []⟩ s) :
    (∀ c, MemLegal s c → ∃ t, memStep s c = .ok t) ∧
    ∀ p < s.mem.nproc, ∀ v a, vmmapLookup (s.mem.proc p).pVmmap v = some a →
      ∀ off, (a.vmaFlags = mapPrivate →
        ∃ m', userRead s.mem p v off = .ok (some (m', privVal s.hist p v off))) ∧
      (a.vmaFlags = mapShared → ∃ m',
        userRead s.mem p v off = .ok (some (m', sharedVal s.hist v off))) := by
  have h := memOk_of_run h₀ hr
  refine ⟨fun c hc => ?_, fun p hp v a hl off => ?_⟩
  · obtain ⟨t, heq, -⟩ := memStep_spec h₀.areas.shapes h hc
    exact ⟨t, heq⟩
  · obtain ⟨m', heq, -⟩ := userRead_spec h₀.areas.shapes h.inv h.holds hp hl off
    constructor
    · intro hf
      rw [expect, if_pos hf] at heq
      exact ⟨m', heq⟩
    · intro hf
      have hn : a.vmaFlags ≠ mapPrivate := by
        rw [hf]
        decide
      rw [expect, if_neg hn] at heq
      exact ⟨m', heq⟩

/-- Two pages, the first private and the second shared. -/
def twoPages (junk : Nat → Nat → UInt8) : Except Halt Memory := do
  let m ← vmmapMapAnon (emptySpace junk) 0 ⟨0x500, 0x501, 0, 3, mapPrivate, 0⟩
  vmmapMapAnon m 0 ⟨0x600, 0x601, 0, 3, mapShared, 0⟩

theorem twoPages_anonSpace (junk : Nat → Nat → UInt8) :
    ∃ m, twoPages junk = .ok m ∧ AnonSpace m := by
  obtain ⟨m₁, heq₁, h₁⟩ := vmmapMapAnon_spec (emptySpace_anonSpace junk)
    ⟨0x500, 0x501, 0, 3, mapPrivate, 0⟩ (by decide) (by decide) (by decide)
    (by simp [emptySpace])
  have hmap : (m₁.proc 0).pVmmap = [⟨0x500, 0x501, 0, 3, mapPrivate, 1⟩] := by
    cases heq₁
    rfl
  obtain ⟨m₂, heq₂, h₂⟩ := vmmapMapAnon_spec h₁ ⟨0x600, 0x601, 0, 3, mapShared, 0⟩
    (by decide) (by decide) (by decide) (by rw [hmap]; simp [Vmarea.Disjoint])
  refine ⟨m₂, ?_, h₂⟩
  rw [twoPages, heq₁]
  exact heq₂

/-- The process writes two private bytes and forks, both sides write one of the two again, and the
child writes a shared byte. -/
def twoPagesCalls : List MemCall :=
  [.write 0 0x500 7 1, .write 0 0x500 8 2, .read 0 0x600 7, .doFork 0 (fun _ => 99),
    .write 0 0x500 7 3, .write 1 0x500 7 4, .write 1 0x600 7 5]

/-- The history of those calls, and where the pages are found after them. -/
def twoPagesTest (s : MemState) : Bool :=
  s.hist = [.wrote 1 0x600 7 5, .wrote 1 0x500 7 4, .wrote 0 0x500 7 3, .forked 0 1,
    .wrote 0 0x500 8 2, .wrote 0 0x500 7 1] ∧ s.mem.nproc = 2 ∧
  (vmmapLookup (s.mem.proc 0).pVmmap 0x500).map (·.vmaFlags) = some mapPrivate ∧
  (vmmapLookup (s.mem.proc 1).pVmmap 0x500).map (·.vmaFlags) = some mapPrivate ∧
  (vmmapLookup (s.mem.proc 0).pVmmap 0x600).map (·.vmaFlags) = some mapShared

theorem cow_isolation_two_pages : ∃ m₀ s, twoPages (fun _ _ => 0xff) = .ok m₀ ∧ AnonSpace m₀ ∧
    Lts.Run MemLegal memStep ⟨m₀, []⟩ s ∧
    (∃ m', userRead s.mem 0 0x500 7 = .ok (some (m', 3))) ∧
    (∃ m', userRead s.mem 1 0x500 7 = .ok (some (m', 4))) ∧
    (∃ m', userRead s.mem 1 0x500 8 = .ok (some (m', 2))) ∧
    (∃ m', userRead s.mem 0 0x600 7 = .ok (some (m', 5))) := by
  obtain ⟨m₀, heq, h₀⟩ := twoPages_anonSpace fun _ _ => 0xff
  have hrun : (twoPages fun _ _ => 0xff).toOption.any (fun m =>
      (Lts.drive MemLegal memStep twoPagesCalls ⟨m, []⟩).any twoPagesTest) = true := by
    decide +kernel
  rw [heq] at hrun
  obtain ⟨s, hs, htest⟩ := Lts.Run.of_drive_any hrun
  simp only [twoPagesTest, decide_eq_true_eq] at htest
  obtain ⟨hhist, hn, hl₀, hl₁, hl₂⟩ := htest
  obtain ⟨a₀, ha₀, hf₀⟩ := map_eq_some_iff.mp hl₀
  obtain ⟨a₁, ha₁, hf₁⟩ := map_eq_some_iff.mp hl₁
  obtain ⟨a₂, ha₂, hf₂⟩ := map_eq_some_iff.mp hl₂
  obtain ⟨-, hread⟩ := cow_isolation h₀ hs
  rw [hhist, hn] at hread
  exact ⟨m₀, s, heq, h₀, hs, (hread 0 (by decide) _ _ ha₀ 7).1 hf₀,
    (hread 1 (by decide) _ _ ha₁ 7).1 hf₁, (hread 1 (by decide) _ _ ha₁ 8).1 hf₁,
    (hread 0 (by decide) _ _ ha₂ 7).2 hf₂⟩

end Weenix.Vm
