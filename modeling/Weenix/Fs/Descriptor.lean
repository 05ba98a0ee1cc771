/-
# Bad descriptors (`fs/vfs_syscall.c`, `vm/mmap.c`)

Eight calls take a descriptor, and each makes its own range test.  Five of them let `NFILES` through
(`fd > NFILES`), which does no harm where `fget` looks again and finds nothing; `do_dup2` stores
into the slot `NFILES`, which is `p_cwd`, and `do_mmap` follows it.  A read of nothing passes the
missing file to `fput`; `do_lseek` looks at `whence` before the file; `do_mmap` looks at the address
and the flags first, never at the slot, and forgets the sign of its error.

`descriptor_validation` says of each call, for every state of the tables, on which bad
descriptors it returns `-EBADF` and changes nothing.  A call that does so fired no `KASSERT` and
stayed inside `p_files`.
-/
import Weenix.Fs.File
import Weenix.Lib.Yields
import Weenix.Vm.Vmmap

namespace Weenix.Fs

/-! ## 1. `do_mmap` -/

def mapShared : BitVec 32 := .ofNat 32 Vm.mapShared
def mapPrivate : BitVec 32 := .ofNat 32 Vm.mapPrivate
def mapFixed : BitVec 32 := 4
def mapAnon : BitVec 32 := 8

/-- `do_mmap`, as far as files go: `mapped` is what `vmmap_map` does.  The tests of `sizeof(len)`
and `sizeof(off)` are false; the slot is read for `MAP_ANON` too. -/
def doMmap (s : FileSys) (p : Nat) (addr flags : BitVec 32) (fd : Int) (mapped : Except Halt Int) :
    Except Halt (FileSys × Int) := do
  if addr % 4096 ≠ 0 then return (s, -einval)
  if flags &&& mapShared = 0 ∧ flags &&& mapPrivate = 0 ∧ flags &&& mapFixed = 0 ∧
    flags &&& mapAnon = 0 then
    return (s, einval)
  if flags &&& mapShared ≠ 0 ∧ flags &&& mapPrivate ≠ 0 then return (s, einval)
  if flags &&& mapAnon = 0 ∧ (fd < 0 ∨ nfiles < fd) then return (s, ebadf)
  match ← pFilesAt s p fd with
  | none => .error pageFaulted
  | some g =>
    let (s, f) ← fget s p (-1)
    match f with
    | none => return (s, enomem)
    | some _ =>
      if (s.file g).fMode &&& fmodeRead = 0 ∧ flags &&& mapPrivate ≠ 0 then return (s, eacces)
      let result ← mapped
      return (s, result)

/-! ## 2. The calls -/

/-- A call with descriptors, with what the rest of the kernel answers. -/
inductive FdCall where
  | read (fd : Int) (nbytes : Nat) (got : Int)
  | write (fd : Int) (nbytes : Nat) (put len : Int)
  | close (fd : Int)
  | dup (fd : Int)
  | dup2 (ofd nfd : Int)
  | getdent (fd got : Int)
  | lseek (fd offset whence : Int)
  | mmap (addr flags : BitVec 32) (fd : Int) (mapped : Except Halt Int)

def FdCall.run (s : FileSys) (p : Nat) : FdCall → Except Halt (FileSys × Int)
  | .read fd nbytes got => doRead s p fd nbytes got
  | .write fd nbytes put len => doWrite s p fd nbytes put len
  | .close fd => doClose s p fd
  | .dup fd => doDup s p fd
  | .dup2 ofd nfd => doDup2 s p ofd nfd
  | .getdent fd got => doGetdent s p fd got
  | .lseek fd offset whence => doLseek s p fd offset whence
  | .mmap addr flags fd mapped => doMmap s p addr flags fd mapped

def IsOpen (s : FileSys) (p : Nat) (fd : Int) : Prop :=
  validFd fd ∧ s.pFiles (p, fd.toNat) ≠ none
deriving Decidable

/-- A descriptor is out of range, or not open where an open file is needed.  A mapping with
`MAP_ANON` needs none. -/
def FdCall.Bad (s : FileSys) (p : Nat) : FdCall → Prop
  | .read fd _ _ | .write fd _ _ _ | .close fd | .dup fd | .getdent fd _ | .lseek fd _ _ =>
    ¬ IsOpen s p fd
  | .dup2 ofd nfd => ¬ IsOpen s p ofd ∨ ¬ validFd nfd
  | .mmap _ flags fd _ => flags &&& mapAnon = 0 ∧ ¬ IsOpen s p fd

/-- Where the tests catch what is bad. -/
def FdCall.Caught (s : FileSys) (p : Nat) : FdCall → Prop
  | .read fd nbytes _ => nbytes ≠ 0 ∨ fd < 0 ∨ nfiles < fd
  | .write _ _ _ _ | .close _ | .dup _ | .getdent _ _ => True
  | .dup2 ofd nfd => IsOpen s p ofd → nfd ≠ nfiles
  | .lseek fd _ whence => validFd fd → whence = seekSet ∨ whence = seekCur ∨ whence = seekEnd
  | .mmap _ _ _ _ => False

/-- Where `do_mmap` says `EBADF`, as a positive number. -/
def FdCall.Unsigned : FdCall → Prop
  | .mmap addr flags fd _ =>
    addr % 4096 = 0 ∧
      (flags &&& mapShared ≠ 0 ∨ flags &&& mapPrivate ≠ 0 ∨ flags &&& mapFixed ≠ 0) ∧
      ¬ (flags &&& mapShared ≠ 0 ∧ flags &&& mapPrivate ≠ 0) ∧ (fd < 0 ∨ nfiles < fd)
  | _ => False

/-! ## 3. What they do -/

section
variable {s : FileSys} {p : Nat} {fd : Int}

theorem fget_of_not_open (h : ¬ IsOpen s p fd) (hfd : fd ≠ -1) : fget s p fd = .ok (s, none) := by
  unfold fget
  rw [if_neg hfd]
  by_cases hrange : fd < 0 ∨ nfiles ≤ fd
  · rw [if_pos hrange]
  · have hvalid : validFd fd := by unfold validFd; omega
    have hnone : s.pFiles (p, fd.toNat) = none := by
      by_contra hsome
      exact h ⟨hvalid, hsome⟩
    rw [if_neg hrange, pFilesAt, if_pos hvalid, hnone]
    rfl

theorem fget_of_open (h : IsOpen s p fd) : Yields (fget s p fd) fun r => r.2 ≠ none := by
  obtain ⟨hvalid, hsome⟩ := h
  obtain ⟨f, hf⟩ := Option.ne_none_iff_exists'.mp hsome
  have hv := hvalid
  unfold validFd at hv
  unfold fget
  rw [if_neg (by omega), if_neg (by omega), pFilesAt, if_pos hvalid, hf, ok_bind]
  exact .seq fun s' => .pure nofun

theorem doRead_bad (h : ¬ IsOpen s p fd) (nbytes : Nat) (got : Int) : doRead s p fd nbytes got =
    if nbytes ≠ 0 ∨ fd < 0 ∨ nfiles < fd then .ok (s, -ebadf) else .error (.kassert "f") := by
  unfold doRead
  by_cases hrange : fd < 0 ∨ nfiles < fd
  · rw [if_pos hrange, if_pos (.inr hrange)]
    rfl
  · rw [if_neg hrange, fget_of_not_open h (by omega), ok_bind]
    by_cases hn : nbytes = 0
    · simp only [hn, ↓reduceIte, ne_eq, not_true_eq_false, false_or, if_neg hrange]
      rfl
    · simp only [hn, ↓reduceIte, ne_eq, not_false_eq_true, true_or]
      rfl

theorem ret_ne {a b : Int} (hab : a ≠ b) :
    (.ok (s, a) : Except Halt (FileSys × Int)) ≠ .ok (s, b) :=
  fun he => hab (congrArg Prod.snd (Except.ok.inj he))

/-- A call that makes a range test, looks the file up and has nothing to do without one. -/
theorem guarded_bad {c : Prop} [Decidable c] (hc : ¬ c → fd ≠ -1) (h : ¬ IsOpen s p fd)
    {rest : FileSys × Option Nat → Except Halt (FileSys × Int)}
    (hrest : rest (s, none) = .ok (s, -ebadf)) :
    (if c then pure (s, -ebadf) else fget s p fd >>= rest) = .ok (s, -ebadf) := by
  split
  · rfl
  · rw [fget_of_not_open h (hc ‹_›)]
    exact hrest

section
variable (h : ¬ IsOpen s p fd)
include h

theorem doWrite_bad (nbytes : Nat) (put len : Int) :
    doWrite s p fd nbytes put len = .ok (s, -ebadf) := guarded_bad (by omega) h rfl

theorem doClose_bad : doClose s p fd = .ok (s, -ebadf) :=
  guarded_bad (by omega) h rfl

theorem doDup_bad : doDup s p fd = .ok (s, -ebadf) :=
  guarded_bad (by omega) h rfl

theorem doGetdent_bad (got : Int) : doGetdent s p fd got = .ok (s, -ebadf) :=
  guarded_bad (by omega) h rfl

theorem doLseek_bad (offset whence : Int) : doLseek s p fd offset whence =
    if validFd fd ∧ ¬ (whence = seekSet ∨ whence = seekCur ∨ whence = seekEnd)
    then .ok (s, -einval) else .ok (s, -ebadf) := by
  unfold doLseek
  by_cases hrange : fd < 0 ∨ nfiles ≤ fd
  · have hvalid : ¬ validFd fd := by unfold validFd; omega
    rw [if_pos hrange, if_neg fun hc => hvalid hc.1]
    rfl
  · have hvalid : validFd fd := by unfold validFd; omega
    rw [if_neg hrange, fget_of_not_open h (by omega)]
    by_cases hw : whence = seekSet ∨ whence = seekCur ∨ whence = seekEnd
    · rw [if_neg (by tauto), if_neg fun hc => hc.2 hw]
      rfl
    · rw [if_pos (by tauto), if_pos ⟨hvalid, hw⟩]
      rfl

end

theorem doDup2_bad {ofd nfd : Int} (h : ¬ IsOpen s p ofd ∨ ¬ validFd nfd)
    (hnfd : IsOpen s p ofd → nfd ≠ nfiles) : doDup2 s p ofd nfd = .ok (s, -ebadf) := by
  unfold doDup2
  by_cases hn : nfd < 0 ∨ nfiles < nfd
  · rw [if_pos hn]
    split <;> rfl
  · rw [if_neg hn]
    refine guarded_bad (by omega) (fun hopen => ?_) rfl
    have hne := hnfd hopen
    have hbad := h.resolve_left (not_not_intro hopen)
    unfold validFd at hbad
    omega

/-- The range test of `do_dup2` lets `NFILES` through, and there is no such slot. -/
theorem doDup2_outside {ofd : Int} (h : IsOpen s p ofd) (r : FileSys × Int) :
    doDup2 s p ofd nfiles ≠ .ok r := by
  intro hok
  have hvalid := h.1
  have hnew : ¬ validFd nfiles := fun hin => Int.lt_irrefl _ hin.2
  have hne : ¬ (nfiles : Int) = ofd := fun he => hnew (he ▸ hvalid)
  unfold validFd at hvalid
  rw [doDup2, if_neg (by omega), if_neg (by omega)] at hok
  obtain ⟨⟨s₁, f⟩, hget, hok⟩ := bind_eq_ok hok
  cases f with
  | none => exact fget_of_open h _ hget rfl
  | some f =>
    simp only [if_neg hne, pFilesAt, if_neg hnew] at hok
    cases hok

/-- `do_mmap` returns an error with the wrong sign, or gets to the slot. -/
theorem doMmap_bad {addr flags : BitVec 32} {mapped : Except Halt Int}
    (hanon : flags &&& mapAnon = 0) (h : ¬ IsOpen s p fd) :
    doMmap s p addr flags fd mapped ≠ .ok (s, -ebadf) ∧
      (doMmap s p addr flags fd mapped = .ok (s, ebadf) ↔
        (FdCall.mmap addr flags fd mapped).Unsigned) := by
  unfold doMmap FdCall.Unsigned
  by_cases haddr : addr % 4096 ≠ 0
  · rw [if_pos haddr]
    exact ⟨ret_ne (by decide), iff_of_false (ret_ne (by decide)) fun hu => haddr hu.1⟩
  rw [if_neg haddr]
  by_cases hnone : flags &&& mapShared = 0 ∧ flags &&& mapPrivate = 0 ∧ flags &&& mapFixed = 0 ∧
    flags &&& mapAnon = 0
  · rw [if_pos hnone]
    exact ⟨ret_ne (by decide), iff_of_false (ret_ne (by decide)) fun hu => by tauto⟩
  rw [if_neg hnone]
  by_cases hboth : flags &&& mapShared ≠ 0 ∧ flags &&& mapPrivate ≠ 0
  · rw [if_pos hboth]
    exact ⟨ret_ne (by decide), iff_of_false (ret_ne (by decide)) fun hu => hu.2.2.1 hboth⟩
  rw [if_neg hboth]
  by_cases hrange : fd < 0 ∨ nfiles < fd
  · rw [if_pos ⟨hanon, hrange⟩]
    exact ⟨ret_ne (by decide), iff_of_true rfl (by tauto)⟩
  rw [if_neg fun hc => hrange hc.2]
  -- the slot is outside the table or empty
  have hstop : ∀ r, pFilesAt s p fd = .ok r → r = none := fun r hr => by
    unfold pFilesAt at hr
    split at hr
    next hvalid =>
      cases hr
      by_contra hsome
      exact h ⟨hvalid, hsome⟩
    next => cases hr
  cases hat : pFilesAt s p fd with
  | error e => exact ⟨fun he => (nomatch he), iff_of_false (fun he => (nomatch he)) (by tauto)⟩
  | ok r =>
    cases hstop r hat
    exact ⟨fun he => (nomatch he), iff_of_false (fun he => (nomatch he)) (by tauto)⟩

end

/-- **Bad descriptors.**  In every state, a call with a bad descriptor returns `-EBADF` and changes
nothing exactly where its tests catch it; where `do_mmap` catches one it returns `EBADF`. -/
theorem descriptor_validation {s : FileSys} {p : Nat} {c : FdCall} (hbad : c.Bad s p) :
    (c.run s p = .ok (s, -ebadf) ↔ c.Caught s p) ∧ (c.run s p = .ok (s, ebadf) ↔ c.Unsigned) := by
  have hsign : ∀ {x : Except Halt (FileSys × Int)}, x = .ok (s, -ebadf) → x ≠ .ok (s, ebadf) :=
    fun hx => hx ▸ ret_ne (by decide)
  cases c with
  | read fd nbytes got =>
    simp only [FdCall.run, doRead_bad hbad]
    split
    next hc => exact ⟨iff_of_true rfl hc, iff_of_false (hsign rfl) id⟩
    next hc => exact ⟨iff_of_false (fun he => (nomatch he)) hc,
      iff_of_false (fun he => (nomatch he)) id⟩
  | write fd nbytes put len =>
    have h := doWrite_bad hbad nbytes put len
    exact ⟨iff_of_true h trivial, iff_of_false (hsign h) id⟩
  | close fd =>
    have h := doClose_bad hbad
    exact ⟨iff_of_true h trivial, iff_of_false (hsign h) id⟩
  | dup fd =>
    have h := doDup_bad hbad
    exact ⟨iff_of_true h trivial, iff_of_false (hsign h) id⟩
  | getdent fd got =>
    have h := doGetdent_bad hbad got
    exact ⟨iff_of_true h trivial, iff_of_false (hsign h) id⟩
  | dup2 ofd nfd =>
    by_cases hc : IsOpen s p ofd → nfd ≠ nfiles
    · have h := doDup2_bad hbad hc
      exact ⟨iff_of_true h hc, iff_of_false (hsign h) id⟩
    · obtain ⟨hopen, rfl⟩ : IsOpen s p ofd ∧ nfd = nfiles := by tauto
      exact ⟨iff_of_false (doDup2_outside hopen _) hc, iff_of_false (doDup2_outside hopen _) id⟩
  | lseek fd offset whence =>
    simp only [FdCall.run, doLseek_bad hbad]
    split
    next hc =>
      refine ⟨iff_of_false (ret_ne (by decide)) fun hcaught => hc.2 (hcaught hc.1), ?_⟩
      exact iff_of_false (ret_ne (by decide)) id
    next hc =>
      have hcaught : (FdCall.lseek fd offset whence).Caught s p := fun hvalid => by tauto
      exact ⟨iff_of_true rfl hcaught, iff_of_false (hsign rfl) id⟩
  | mmap addr flags fd mapped =>
    obtain ⟨hneg, hpos⟩ := @doMmap_bad s p fd addr flags mapped hbad.1 hbad.2
    exact ⟨iff_of_false hneg id, hpos⟩

/-- The process 1 has one file open, as the descriptor 0. -/
def oneOpen : FileSys where
  file := fun _ => ⟨0, fmodeRead, 1, some 7⟩
  allocated := {100}
  slab := ⟨fun _ => none, nofun⟩
  procs := {1}
  dead := ∅
  pFiles := fun i => if i = (1, 0) then some 100 else none
  pCwd := fun _ => some 9
  vnode := fun _ => ⟨sIfreg, 100, 1, 0, false, true, true, true, false⟩
  serial := fun _ => 0
  nserial := 1
  log := []

theorem descriptor_validation_close : (FdCall.close 32).Bad oneOpen 1 ∧
    (FdCall.close 32).run oneOpen 1 = .ok (oneOpen, -ebadf) ∧
    (FdCall.dup2 0 33).Bad oneOpen 1 ∧
    (FdCall.dup2 0 33).run oneOpen 1 = .ok (oneOpen, -ebadf) := by
  have hclose : (FdCall.close 32).Bad oneOpen 1 := by unfold FdCall.Bad; decide
  have hdup2 : (FdCall.dup2 0 33).Bad oneOpen 1 := by unfold FdCall.Bad; decide
  have hcaught : (FdCall.dup2 0 33).Caught oneOpen 1 := by unfold FdCall.Caught; decide
  exact ⟨hclose, (descriptor_validation hclose).1.mpr trivial, hdup2,
    (descriptor_validation hdup2).1.mpr hcaught⟩

/-- The tests that let something through: an empty read from a descriptor that is not open,
`do_dup2` and `do_mmap` with `NFILES`, `do_mmap` of an empty slot, `do_lseek` with a bad `whence`,
and the sign of `do_mmap`. -/
theorem descriptor_not_validated : (FdCall.read 3 0 0).Bad oneOpen 1 ∧
    (FdCall.read 3 0 0).run oneOpen 1 = .error (.kassert "f") ∧
    (FdCall.dup2 0 32).Bad oneOpen 1 ∧ (FdCall.dup2 0 32).run oneOpen 1 = .error .wild ∧
    (FdCall.mmap 0 mapPrivate 32 (.ok 0)).Bad oneOpen 1 ∧
    (FdCall.mmap 0 mapPrivate 32 (.ok 0)).run oneOpen 1 = .error .wild ∧
    (FdCall.mmap 0 mapPrivate 3 (.ok 0)).Bad oneOpen 1 ∧
    (FdCall.mmap 0 mapPrivate 3 (.ok 0)).run oneOpen 1 = .error pageFaulted ∧
    (FdCall.lseek 3 0 7).Bad oneOpen 1 ∧
    (FdCall.lseek 3 0 7).run oneOpen 1 = .ok (oneOpen, -einval) ∧
    (FdCall.mmap 0 mapPrivate (-5) (.ok 0)).Bad oneOpen 1 ∧
    (FdCall.mmap 0 mapPrivate (-5) (.ok 0)).run oneOpen 1 = .ok (oneOpen, ebadf) := by
  refine ⟨by unfold FdCall.Bad; decide, rfl, by unfold FdCall.Bad; decide, rfl,
    by unfold FdCall.Bad; decide, rfl, by unfold FdCall.Bad; decide, rfl,
    by unfold FdCall.Bad; decide, rfl, by unfold FdCall.Bad; decide, rfl⟩

end Weenix.Fs
