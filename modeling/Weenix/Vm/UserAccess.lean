/-
# The kernel's access to user memory (`vm/vmmap.c`, `api/access.c`)

`vmmap_read` and `vmmap_write` copy between a kernel buffer and the page frames behind a range of
user addresses, and `copy_from_user` and `copy_to_user` ask `range_perm` first whether the process
may access the range.

A buffer is the function from an index to the byte there.  A `memcpy` that leaves the page frame it
works on reads or writes memory of somebody else; that is `.wild` here.  `vmmap_read` also reports
which part of which page each of its copies read.  `pframe_set_dirty` changes no byte and is left
out, as the dirty bits are.

The loops look up one area, never advance the buffer, copy a whole page each time and start it at
the same offset.  `range_perm` answers 1 to everything, so that the checks are right exactly where
nothing is to be refused (`user_access_checks`).
-/
import Weenix.Mm.Page
import Weenix.Vm.ShadowChain

namespace Weenix.Vm

open Option

open Weenix.Page (pageSize pageSize_eq)

variable {map : List Vmarea} {count fuel i obj off pf vaddr temp : Nat}
  {buf : Nat → UInt8} {m : Memory}

/-! ## 1. `vmmap_read` and `vmmap_write` -/

/-- `memcpy(dst + dstOff, src + srcOff, len)` -/
def memcpy (dst : Nat → UInt8) (dstOff : Nat) (src : Nat → UInt8) (srcOff len : Nat) :
    Nat → UInt8 :=
  fun i => if dstOff ≤ i ∧ i < dstOff + len then src (srcOff + (i - dstOff)) else dst i

/-- `int32_t temp = count` -/
def toInt32 (count : Nat) : Int := if count < 2 ^ 31 then count else count - 2 ^ 32

/-- The length of every `memcpy` of one call. -/
def copyLen (count : Nat) : Nat := if count < pageSize then count else pageSize

/-- A copy out of page `pagenum` of `obj`. -/
structure PageRead where
  obj : Nat
  pagenum : Nat
  off : Nat
  len : Nat
deriving DecidableEq, Repr

/-- What a call of `vmmap_read` leaves behind: memory, its return value, the buffer, and the
copies it made. -/
structure ReadResult where
  mem : Memory
  ret : Int
  buf : Nat → UInt8
  reads : List PageRead

/-- The loop of `vmmap_read`.  Only `temp` and `pagenum` move. -/
def readLoop (count off obj : Nat) :
    Nat → Int → Nat → Memory → (Nat → UInt8) → List PageRead → Except Halt ReadResult
  | 0, _, _, _, _, _ => .error .hang
  | fuel + 1, temp, pagenum, m, buf, reads =>
    if 0 < temp then do
      let (m, pf) ← pframeGet (m.nobj + 1) m obj pagenum
      if pageSize < off + copyLen count then .error .wild
      else
        readLoop count off obj fuel (temp - pageSize) ((pagenum + 1) % 2 ^ 32) m
          (memcpy buf 0 (m.pfAddr pf) off (copyLen count))
          (reads ++ [⟨obj, pagenum, off, copyLen count⟩])
    else .ok ⟨m, 0, buf, reads⟩

/-- `vmmap_read(map, vaddr, buf, count)` -/
def vmmapRead (m : Memory) (map : List Vmarea) (vaddr : Nat) (buf : Nat → UInt8) (count : Nat) :
    Except Halt ReadResult :=
  match vmmapLookup map (vaddr / pageSize) with
  | none => .ok ⟨m, -1, buf, []⟩
  | some vma =>
    readLoop count (vaddr % pageSize) vma.vmaObj (count + 1) (toInt32 count)
      (vma.pagenum (vaddr / pageSize)) m buf []

def writeLoop (count off obj : Nat) (buf : Nat → UInt8) :
    Nat → Int → Nat → Memory → Except Halt Memory
  | 0, _, _, _ => .error .hang
  | fuel + 1, temp, pagenum, m =>
    if 0 < temp then do
      let (m, pf) ← pframeGet (m.nobj + 1) m obj pagenum
      if pageSize < off + copyLen count then .error .wild
      else
        writeLoop count off obj buf fuel (temp - pageSize) ((pagenum + 1) % 2 ^ 32)
          (m.setFrame pf (memcpy (m.pfAddr pf) off buf 0 (copyLen count)))
    else .ok m

/-- `vmmap_write(map, vaddr, buf, count)` -/
def vmmapWrite (m : Memory) (map : List Vmarea) (vaddr : Nat) (buf : Nat → UInt8) (count : Nat) :
    Except Halt (Memory × Int) :=
  match vmmapLookup map (vaddr / pageSize) with
  | none => .ok (m, -1)
  | some vma => do
    let m ← writeLoop count (vaddr % pageSize) vma.vmaObj buf (count + 1) (toInt32 count)
      (vma.pagenum (vaddr / pageSize)) m
    return (m, 0)

/-! ## 2. Bytes of user memory -/

/-- Object, page and offset of the byte at a user address. -/
def locate (map : List Vmarea) (vaddr : Nat) : Option (Nat × Nat × Nat) :=
  (vmmapLookup map (vaddr / pageSize)).map fun vma =>
    (vma.vmaObj, vma.pagenum (vaddr / pageSize), vaddr % pageSize)

/-- The byte at a user address, if the page is resident in the area's object. -/
def byteAt (m : Memory) (map : List Vmarea) (vaddr : Nat) : Option UInt8 := do
  let (o, k, j) ← locate map vaddr
  let pf ← m.pframeHash o k
  return m.pfAddr pf j

/-! ## 3. The loop of `vmmap_read` -/

/-- The reading loop returns 0, and leaves everything past its one copy length alone, and all of the
buffer when it does not run or its copy does not fit the page. -/
theorem readLoop_spec {temp : Int} {pagenum : Nat}
    {reads : List PageRead} {r : ReadResult}
    (h : readLoop count off obj fuel temp pagenum m buf reads = .ok r) :
    r.ret = 0 ∧ ∀ i, copyLen count ≤ i ∨ temp ≤ 0 ∨ pageSize < off + copyLen count →
      r.buf i = buf i := by
  fun_induction readLoop count off obj fuel temp pagenum m buf reads with
  | case1 => cases h
  | case2 fuel temp pagenum m buf reads htemp ih =>
    obtain ⟨⟨m₁, pf⟩, -, h⟩ := bind_eq_ok h
    dsimp only at h
    split at h
    case isTrue => cases h
    case isFalse hfits =>
      obtain ⟨hret, hbuf⟩ := ih m₁ pf h
      refine ⟨hret, fun i hi => ?_⟩
      have hlen : copyLen count ≤ i := by omega
      rw [hbuf i (.inl hlen), memcpy, if_neg (by omega)]
  | case3 =>
    cases h
    exact ⟨rfl, fun _ _ => rfl⟩

/-- Memory with one anonymous object and no page in it. -/
def oneAnon : Memory where
  mmobj _ := ⟨.anon, none⟩
  nobj := 1
  pframeHash _ _ := none
  pfAddr _ _ := 0xff
  npframe := 0
  proc _ := ⟨[], fun _ => none⟩
  nproc := 1

/-- Two pages of it, with the given protection. -/
def twoPageMap (prot : Nat) : List Vmarea := [⟨0x400, 0x402, 0, prot, mapPrivate, 0⟩]

/-! ## 4. The checks of `api/access.c` -/

/-- `addr_perm(p, vaddr, perm)`; `pVmmap` is `p->p_vmmap`. -/
def addrPerm (pVmmap : Option (List Vmarea)) (vaddr perm : Nat) : Nat :=
  match pVmmap with
  | none => 0
  | some map =>
    match vmmapLookup map (vaddr / pageSize) with
    | none => 0
    | some vma => if vma.vmaProt &&& perm ≠ 0 then 1 else 0

/-- The loop of `range_perm`.  Pointers are compared and moved on 32 bits. -/
def rangePermLoop (pVmmap : Option (List Vmarea)) (last perm : Nat) : Nat → Nat → Except Halt Nat
  | 0, _ => .error .hang
  | fuel + 1, temp =>
    if temp ≤ last then
      if addrPerm pVmmap temp perm = 0 then .ok 1
      else rangePermLoop pVmmap last perm fuel ((temp + pageSize) % 2 ^ 32)
    else .ok 1

/-- `range_perm(p, avaddr, len, perm)`.  The pointer is back at its start after `2 ^ 20` rounds. -/
def rangePerm (pVmmap : Option (List Vmarea)) (avaddr len perm : Nat) : Except Halt Nat :=
  rangePermLoop pVmmap ((avaddr + len) % 2 ^ 32) perm (2 ^ 20 + 1) avaddr

/-- The `KASSERT` of `vmmap_lookup` on the map it is given. -/
def theMap (pVmmap : Option (List Vmarea)) : Except Halt (List Vmarea) :=
  match pVmmap with
  | none => .error (.kassert "NULL != map")
  | some map => .ok map

/-- `copy_from_user(kaddr, uaddr, nbytes)` -/
def copyFromUser (m : Memory) (pVmmap : Option (List Vmarea)) (kaddr : Nat → UInt8)
    (uaddr nbytes : Nat) : Except Halt ReadResult := do
  if (← rangePerm pVmmap uaddr nbytes protRead) = 0 then return ⟨m, -efault, kaddr, []⟩
  else
    let map ← theMap pVmmap
    vmmapRead m map uaddr kaddr nbytes

/-- `copy_to_user(uaddr, kaddr, nbytes)` -/
def copyToUser (m : Memory) (pVmmap : Option (List Vmarea)) (uaddr : Nat) (kaddr : Nat → UInt8)
    (nbytes : Nat) : Except Halt (Memory × Int) := do
  if (← rangePerm pVmmap uaddr nbytes protWrite) = 0 then return (m, -efault)
  else
    let map ← theMap pVmmap
    vmmapWrite m map uaddr kaddr nbytes

/-! ## 5. What the checks should do -/

/-- The page is in an area that has all of `perm`. -/
def grants (map : List Vmarea) (perm vfn : Nat) : Bool :=
  (vmmapLookup map vfn).any fun vma => vma.vmaProt &&& perm == perm

/-- Every byte of the range is in such an area. -/
def Granted (map : List Vmarea) (perm uaddr nbytes : Nat) : Prop :=
  ∀ i < nbytes, grants map perm ((uaddr + i) % 2 ^ 32 / pageSize) = true

instance (map : List Vmarea) (perm uaddr nbytes : Nat) :
    Decidable (Granted map perm uaddr nbytes) :=
  inferInstanceAs (Decidable (∀ i < nbytes, _))

/-- `range_perm` returns 1 exactly when the range grants `perm`. -/
def RangeChecked (map : List Vmarea) (perm uaddr nbytes : Nat) : Prop :=
  ∃ r, rangePerm (some map) uaddr nbytes perm = .ok r ∧ (r = 1 ↔ Granted map perm uaddr nbytes)

/-- `copy_from_user` reads from a range that grants `PROT_READ` only, and refuses any other. -/
structure ReadChecked (m : Memory) (map : List Vmarea) (kaddr : Nat → UInt8)
    (uaddr nbytes : Nat) : Prop where
  transfers : ∀ r, copyFromUser m (some map) kaddr uaddr nbytes = .ok r → r.reads ≠ [] →
    Granted map protRead uaddr nbytes
  refuses : ¬ Granted map protRead uaddr nbytes →
    copyFromUser m (some map) kaddr uaddr nbytes = .ok ⟨m, -efault, kaddr, []⟩

/-- `copy_to_user` changes a range that grants `PROT_WRITE` only, and refuses any other. -/
structure WriteChecked (m : Memory) (map : List Vmarea) (kaddr : Nat → UInt8)
    (uaddr nbytes : Nat) : Prop where
  transfers : ∀ m' ret, copyToUser m (some map) uaddr kaddr nbytes = .ok (m', ret) → m' ≠ m →
    Granted map protWrite uaddr nbytes
  refuses : ¬ Granted map protWrite uaddr nbytes →
    copyToUser m (some map) uaddr kaddr nbytes = .ok (m, -efault)

/-! ## 6. What they do -/

section
variable {map : List Vmarea} {perm last : Nat}

section
variable (hmap : ∀ vma ∈ map, userMemLow ≤ vma.vmaStart)
include hmap

theorem addrPerm_page_zero (h : vaddr / pageSize = 0) : addrPerm (some map) vaddr perm = 0 := by
  have hnone : vmmapLookup map 0 = none := by
    refine lookup_eq_none.mpr fun vma hvma hcov => ?_
    have hlow := hmap vma hvma
    unfold userMemLow at hlow
    omega
  simp only [addrPerm, h, hnone]

theorem rangePermLoop_page_zero (h : temp / pageSize = 0) (fuel : Nat) :
    rangePermLoop (some map) last perm (fuel + 1) temp = .ok 1 := by
  rw [rangePermLoop, addrPerm_page_zero hmap h, if_pos rfl, ite_self]

/-- The loop ends with 1: either way out of it does.  The induction is on the rounds; a pointer
that wraps around comes to page 0. -/
theorem rangePermLoop_eq {fuel : Nat} (h : 2 ^ 20 < fuel + temp / pageSize) :
    rangePermLoop (some map) last perm fuel temp = .ok 1 ∨ 2 ^ 32 ≤ temp := by
  fun_induction rangePermLoop (some map) last perm fuel temp with
  | case1 temp =>
    rw [pageSize_eq] at h
    right
    omega
  | case2 | case4 => exact .inl rfl
  | case3 fuel temp hle hperm ih =>
    rw [or_iff_not_imp_right]
    intro htemp
    by_cases hwrap : temp + pageSize < 2 ^ 32
    · rw [Nat.mod_eq_of_lt hwrap] at ih ⊢
      refine (ih ?_).resolve_right (by omega)
      rw [Nat.add_div_right _ (by decide)]
      omega
    · have hzero : (temp + pageSize) % 2 ^ 32 / pageSize = 0 := by
        rw [pageSize_eq] at *
        omega
      obtain _ | fuel := fuel
      · rw [pageSize_eq] at *
        omega
      · exact rangePermLoop_page_zero hmap hzero fuel

/-- **`range_perm` returns 1.** -/
theorem rangePerm_eq {avaddr : Nat}
    (ha : avaddr < 2 ^ 32) (len perm : Nat) : rangePerm (some map) avaddr len perm = .ok 1 :=
  (rangePermLoop_eq hmap (by rw [pageSize_eq]; omega)).resolve_right (by omega)

end

variable {m : Memory} {uaddr nbytes : Nat} {kaddr : Nat → UInt8}
  (hmap : ∀ vma ∈ map, userMemLow ≤ vma.vmaStart) (ha : uaddr < 2 ^ 32)
include hmap ha

theorem copyFromUser_ne_efault {r : ReadResult}
    (h : copyFromUser m (some map) kaddr uaddr nbytes = .ok r) :
    r.ret ≠ -efault := by
  rw [copyFromUser, rangePerm_eq hmap ha, ok_bind, if_neg (by decide)] at h
  change vmmapRead m map uaddr kaddr nbytes = .ok r at h
  rw [vmmapRead] at h
  split at h
  · cases h
    change (-1 : Int) ≠ -efault
    decide
  · rw [(readLoop_spec h).1]
    decide

theorem copyToUser_ne_efault {m' : Memory} {ret : Int}
    (h : copyToUser m (some map) uaddr kaddr nbytes = .ok (m', ret)) : ret ≠ -efault := by
  rw [copyToUser, rangePerm_eq hmap ha, ok_bind, if_neg (by decide)] at h
  change vmmapWrite m map uaddr kaddr nbytes = .ok (m', ret) at h
  rw [vmmapWrite] at h
  split at h
  · cases h
    decide
  · obtain ⟨m₁, -, h⟩ := bind_eq_ok h
    cases h
    decide

end

/-- **The checks are right exactly where every byte of the range is granted**: they let everything
through. -/
theorem user_access_checks {map : List Vmarea} (hmap : ∀ vma ∈ map, userMemLow ≤ vma.vmaStart)
    (m : Memory) (kaddr : Nat → UInt8) {uaddr nbytes : Nat} (ha : uaddr < 2 ^ 32) :
    (∀ perm, RangeChecked map perm uaddr nbytes ↔ Granted map perm uaddr nbytes) ∧
    (ReadChecked m map kaddr uaddr nbytes ↔ Granted map protRead uaddr nbytes) ∧
    (WriteChecked m map kaddr uaddr nbytes ↔ Granted map protWrite uaddr nbytes) := by
  refine ⟨fun perm => ⟨?_, fun hg => ⟨1, rangePerm_eq hmap ha _ _, by simpa using hg⟩⟩,
    ⟨?_, fun hg => ⟨fun _ _ _ => hg, fun hn => absurd hg hn⟩⟩,
    ⟨?_, fun hg => ⟨fun _ _ _ _ => hg, fun hn => absurd hg hn⟩⟩⟩
  · rintro ⟨r, hr, hiff⟩
    rw [rangePerm_eq hmap ha] at hr
    cases hr
    exact hiff.mp rfl
  · intro hchecked
    by_contra hn
    exact copyFromUser_ne_efault hmap ha (hchecked.refuses hn) rfl
  · intro hchecked
    by_contra hn
    exact copyToUser_ne_efault hmap ha (hchecked.refuses hn) rfl

theorem user_access_checks_granted : (∀ vma ∈ twoPageMap 3, userMemLow ≤ vma.vmaStart) ∧
    (0x400010 < 2 ^ 32) ∧ WriteChecked oneAnon (twoPageMap 3) (fun _ => 7) 0x400010 8 := by
  have hmap : ∀ vma ∈ twoPageMap 3, userMemLow ≤ vma.vmaStart := by decide
  refine ⟨hmap, by decide, ?_⟩
  exact (user_access_checks hmap oneAnon _ (by decide)).2.2.mpr (by decide)

/-- A page without `PROT_WRITE`: `copy_to_user` writes to it. -/
theorem copy_to_user_read_only : ¬ Granted (twoPageMap protRead) protWrite 0x400010 8 ∧
    ∃ m', copyToUser oneAnon (some (twoPageMap protRead)) 0x400010 (fun _ => 7) 8 = .ok (m', 0) ∧
      byteAt m' (twoPageMap protRead) 0x400010 = some 7 := by
  refine ⟨by decide, ?_⟩
  obtain ⟨⟨m', r⟩, heq, h⟩ :=
    @ok_of_any _ _ (copyToUser oneAnon (some (twoPageMap protRead)) 0x400010 (fun _ => 7) 8)
    (fun r => r.2 = 0 ∧ byteAt r.1 (twoPageMap protRead) 0x400010 = some 7) (by decide +kernel)
  obtain ⟨rfl, h⟩ := of_decide_eq_true h
  exact ⟨m', heq, h⟩

end Weenix.Vm
