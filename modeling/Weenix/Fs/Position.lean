/-
# The position of an open file (`fs/vfs_syscall.c`)

`do_read` and `do_write` move the position with `do_lseek`.  After a read that returned all that was
asked for, the seek is relative; after any other it goes to the end of the file, wherever the read
began and whether it failed or not.  `do_write` seeks by what the operation returned, also when that
is an error, or to the end of the file.  A relative seek past `INT_MAX` wraps to a negative
position, which `do_lseek` refuses.

On an open file the calls are computed exactly (`doLseek_open`, `doRead_open`, `doWrite_open`): the
file that `fget` took a reference to is given back, and only the position and the length change.
-/
import Weenix.Fs.FileInv

namespace Weenix.Fs

open FileSys

/-! ## 1. Open files -/

/-- The descriptor `fd` of `p` is the open file `f` on the vnode `v`. -/
structure OpenAt (s : FileSys) (p : Nat) (fd : Int) (f v : Nat) : Prop where
  valid : validFd fd
  slot : s.pFiles (p, fd.toNat) = some f
  vnode : (s.file f).fVnode = some v
  mode : 0 ≤ (s.file f).fMode.toInt ∧ (s.file f).fMode.toInt < 8
  refs : 0 < (s.file f).fRefcount
  pos : 0 ≤ (s.file f).fPos ∧ (s.file f).fPos < 2 ^ 31
  len : 0 ≤ (s.vnode v).vnLen ∧ (s.vnode v).vnLen < 2 ^ 31

/-- The position that `do_lseek` gives the file, unless it is negative. -/
def FileSys.landed (s : FileSys) (f : Nat) (pos : Int) : FileSys :=
  if pos < 0 then s else s.setFile f { s.file f with fPos := pos }

/-- The write of a file: its vnode has the length `len`. -/
def FileSys.resized (s : FileSys) (v : Nat) (len : Int) : FileSys :=
  s.setVnode v { s.vnode v with vnLen := len }

section
variable {s : FileSys} {p f v : Nat} {fd pos len : Int}

theorem landed_pos : ((s.landed f pos).file f).fPos = if pos < 0 then (s.file f).fPos else pos := by
  unfold landed
  split
  · rfl
  · simp [setFile]

@[simp] theorem landed_vnode : (s.landed f pos).vnode = s.vnode := by
  unfold landed
  split <;> rfl

theorem take_landed : (s.take f).landed f pos = (s.landed f pos).take f := by
  unfold landed
  split
  · rfl
  · simp [take, setFile]

theorem landed_landed {pos' : Int} (h : 0 ≤ pos') :
    (s.landed f pos).landed f pos' = s.landed f pos' := by
  unfold landed
  rw [if_neg (Int.not_lt.mpr h), if_neg (Int.not_lt.mpr h)]
  split
  · rfl
  · simp [setFile]

theorem landed_resized : (s.landed f pos).resized v len = (s.resized v len).landed f pos := by
  unfold landed
  split <;> rfl

namespace OpenAt

theorem landed {g : Nat} (h : OpenAt s p fd g v) (f : Nat) (hpos : pos < 2 ^ 31) :
    OpenAt (s.landed f pos) p fd g v := by
  unfold FileSys.landed
  split
  · exact h
  · next hneg =>
    obtain ⟨hfd, hslot, hv, hmode, hrefs, hpos', hlen⟩ := h
    obtain rfl | hne := eq_or_ne g f
    · refine ⟨hfd, hslot, ?_, ?_, ?_, ?_, hlen⟩ <;> simp only [setFile, update_self]
      · exact hv
      · exact hmode
      · exact hrefs
      · omega
    · refine ⟨hfd, hslot, ?_, ?_, ?_, ?_, hlen⟩ <;> simpa only [setFile, update_of_ne hne]

variable (h : OpenAt s p fd f v)
include h

theorem take : OpenAt (s.take f) p fd f v := by
  obtain ⟨hfd, hslot, hv, hmode, hrefs, hpos, hlen⟩ := h
  refine ⟨hfd, hslot, ?_, ?_, ?_, ?_, hlen⟩ <;>
    simp only [FileSys.take, FileSys.setFile, update_self]
  · exact hv
  · exact hmode
  · omega
  · exact hpos

theorem resized (hlen : 0 ≤ len ∧ len < 2 ^ 31) : OpenAt (s.resized v len) p fd f v :=
  { h with len := by simpa [FileSys.resized, FileSys.setVnode] using hlen }

theorem isSome : (s.file f).fVnode.isSome = true := by
  rw [h.vnode]
  rfl

theorem fget : fget s p fd = .ok (s.take f, some f) := by
  have hfd := h.valid
  have hpos : -1 ≤ (s.file f).fPos := by have := h.pos; omega
  unfold validFd at hfd
  unfold Fs.fget fref
  rw [if_neg (by omega), if_neg (by omega), pFilesAt_of_valid h.valid, h.slot, ok_bind]
  simp only [kassert_of (decide_eq_true h.mode), kassert_of (decide_eq_true hpos),
    kassert_of (decide_eq_true h.refs.le), h.isSome, Bool.or_true, kassert_true, ok_bind]
  rfl

/-- The reference that `fget` took is not the last. -/
theorem fput : fput (s.take f) (some f) = .ok s := by
  have hrefs := h.refs
  have ht := h.take
  have hpos : -1 ≤ ((s.take f).file f).fPos := by have := ht.pos; omega
  have hcount : ((s.take f).file f).fRefcount = (s.file f).fRefcount + 1 := by
    simp [FileSys.take, FileSys.setFile]
  unfold Fs.fput
  simp only [kassert_of (decide_eq_true ht.mode), kassert_of (decide_eq_true hpos),
    kassert_of (decide_eq_true ht.refs), ht.isSome, Bool.or_true, kassert_true, ok_bind]
  rw [if_neg (by omega)]
  simp [FileSys.take, FileSys.setFile]

end OpenAt

theorem vnodeOf_open (h : OpenAt s p fd f v) : vnodeOf s f = .ok v := by
  unfold vnodeOf
  rw [h.vnode]

end

/-! ## 2. The calls on an open file -/

section
variable {s : FileSys} {p f v : Nat} {fd : Int}

/-- Where `do_lseek` goes, as `newPos`. -/
def FileSys.target (s : FileSys) (f v : Nat) (offset whence : Int) : Int :=
  if whence = seekSet then offset
  else if whence = seekCur then wrap32 ((s.file f).fPos + offset)
  else wrap32 ((s.vnode v).vnLen + offset)

theorem wrap32_lt (x : Int) : wrap32 x < 2 ^ 31 := Int.bmod_lt (by decide)

theorem wrap32_of_nonneg {x : Int} (h : 0 ≤ x) (hx : x < 2 ^ 31) : wrap32 x = x :=
  Int.bmod_eq_of_le (by omega) (by omega)

/-- The state that a write of a file leaves, if the check passes. -/
def FileSys.written (s : FileSys) (f v : Nat) (put len : Int) : FileSys :=
  (s.resized v len).landed f
    (if (s.file f).fMode &&& fmodeAppend ≠ 0 then len else wrap32 ((s.file f).fPos + put))

theorem written_vnode {put len : Int} :
    (s.written f v put len).vnode v = { s.vnode v with vnLen := len } := by
  simp [written, resized, setVnode]

theorem OpenAt.written {g : Nat} {put len : Int} (h : OpenAt s p fd g v) (f : Nat)
    (hlen : 0 ≤ len ∧ len < 2 ^ 31) :
    OpenAt (s.written f v put len) p fd g v := by
  refine (h.resized hlen).landed f ?_
  split
  · exact hlen.2
  · exact wrap32_lt _

variable (h : OpenAt s p fd f v)
include h

theorem newPos_open (offset whence : Int) :
    newPos s f offset whence = .ok (s.target f v offset whence) := by
  unfold newPos target
  rw [vnodeOf_open h]
  split
  · rfl
  split <;> rfl

theorem doLseek_open {offset whence : Int} (hoff : offset < 2 ^ 31)
    (hw : whence = seekEnd ∨ whence = seekSet ∨ whence = seekCur) :
    doLseek s p fd offset whence = .ok (s.landed f (s.target f v offset whence),
      if s.target f v offset whence < 0 then -einval else s.target f v offset whence) := by
  have hfd := h.valid
  unfold validFd at hfd
  have hpos : s.target f v offset whence < 2 ^ 31 := by
    unfold target
    split
    · exact hoff
    split <;> exact wrap32_lt _
  have htake : (s.take f).target f v offset whence = s.target f v offset whence := by
    simp [target, take, setFile]
  unfold doLseek
  rw [if_neg (by omega), if_neg (by tauto), h.fget, ok_bind]
  dsimp only
  rw [newPos_open h.take, ok_bind, htake]
  have hput := (h.landed f hpos).fput
  rw [← take_landed] at hput
  unfold landed at hput ⊢
  split
  · next hneg =>
    simp only [if_pos hneg] at hput
    rw [hput]
    rfl
  · next hneg =>
    simp only [if_neg hneg] at hput
    rw [hput]
    rfl

theorem doLseek_end : doLseek s p fd 0 seekEnd = .ok (s.landed f (s.vnode v).vnLen,
    (s.vnode v).vnLen) := by
  have hlen := h.len
  have htarget : s.target f v 0 seekEnd = (s.vnode v).vnLen := by
    change wrap32 ((s.vnode v).vnLen + 0) = _
    rw [Int.add_zero, wrap32_of_nonneg hlen.1 hlen.2]
  rw [doLseek_open h (by decide) (.inl rfl), htarget, if_neg (by omega)]

/-- What `do_read` returns before it reads. -/
def FileSys.readRefused (s : FileSys) (f v nbytes : Nat) : Option Int :=
  if nbytes = 0 then some 0
  else if (s.file f).fMode &&& fmodeRead = 0 then some (-ebadf)
  else if (s.vnode v).isType sIfdir then some (-eisdir)
  else if !(s.vnode v).read then some (-eisdir)
  else none

/-- What `do_write` returns before it writes. -/
def FileSys.writeRefused (s : FileSys) (f v : Nat) : Option Int :=
  if (s.file f).fMode &&& fmodeWrite = 0 ∧ (s.file f).fMode &&& fmodeAppend = 0 then some (-ebadf)
  else if (s.vnode v).isType sIfdir then some (-eisdir)
  else if !(s.vnode v).write then some (-eisdir)
  else none

theorem doRead_open {n : Nat} {got : Int} (hgot : got < 2 ^ 31) :
    doRead s p fd n got = .ok (match s.readRefused f v n with
      | some r => (s, r)
      | none => (s.landed f (if (n - got) % 2 ^ 32 = 0 then wrap32 ((s.file f).fPos + got)
          else (s.vnode v).vnLen), got)) := by
  have hfd := h.valid
  unfold validFd at hfd
  have hfile : ((s.take f).file f).fMode = (s.file f).fMode := by simp [take, setFile]
  have hpos : ((s.take f).file f).fPos = (s.file f).fPos := by simp [take, setFile]
  unfold doRead readRefused
  rw [if_neg (by omega), h.fget, ok_bind]
  simp only [vnodeOf_open h.take, h.fput, hfile, ok_bind]
  split
  · rfl
  split
  · rfl
  change (if (s.vnode v).isType sIfdir then _ else _) = _
  split
  · rfl
  change (if !(s.vnode v).read then _ else _) = _
  split
  · rfl
  · split
    · rw [doLseek_open h.take hgot (.inr (.inr rfl)), ok_bind]
      change (do let s
        ← Fs.fput ((s.take f).landed f (wrap32 (((s.take f).file f).fPos + got))) (some f); _) = _
      rw [hpos, take_landed, (h.landed f (wrap32_lt _)).fput]
      rfl
    · rw [doLseek_end h.take, ok_bind]
      change (do let s ← Fs.fput ((s.take f).landed f (s.vnode v).vnLen) (some f); _) = _
      rw [take_landed, (h.landed f h.len.2).fput]
      rfl

def FileSys.writeChecked (s : FileSys) (f v : Nat) : Bool :=
  (s.vnode v).isType sIfchr || (s.vnode v).isType sIfblk ||
    ((s.vnode v).isType sIfreg && (s.file f).fPos ≤ (s.vnode v).vnLen)

theorem doWriteEnd_open (put : Int) {t : FileSys} {r : Int}
    (hr : doWrite.doWriteEnd (s.take f) f put = .ok (t, r)) : t = s ∧ r = put := by
  unfold doWrite.doWriteEnd at hr
  rw [h.fput, ok_bind, vnodeOf_open h, ok_bind] at hr
  obtain ⟨-, -, hr⟩ := bind_eq_ok hr
  cases hr
  exact ⟨rfl, rfl⟩

theorem doWriteEnd_checked (put : Int) (hc : s.writeChecked f v = true) :
    doWrite.doWriteEnd (s.take f) f put = .ok (s, put) := by
  unfold doWrite.doWriteEnd
  rw [h.fput, ok_bind, vnodeOf_open h, ok_bind]
  unfold writeChecked at hc
  dsimp only
  rw [kassert_of hc]
  rfl

theorem doWrite_open {n : Nat} {put len : Int} (hput : put < 2 ^ 31)
    (hlen : 0 ≤ len ∧ len < 2 ^ 31) :
    doWrite s p fd n put len = match s.writeRefused f v with
      | some r => .ok (s, r)
      | none => doWrite.doWriteEnd ((s.written f v put len).take f) f put := by
  have hfd := h.valid
  unfold validFd at hfd
  have hfile : ((s.take f).file f).fMode = (s.file f).fMode := by simp [take, setFile]
  have hpos : ((s.take f).file f).fPos = (s.file f).fPos := by simp [take, setFile]
  unfold doWrite writeRefused written
  rw [if_neg (by omega), h.fget, ok_bind]
  simp only [vnodeOf_open h.take, h.fput, hfile, ok_bind]
  split
  · rfl
  change (if (s.vnode v).isType sIfdir then _ else _) = _
  split
  · rfl
  change (if !(s.vnode v).write then _ else _) = _
  split
  · rfl
  · split
    · -- the two seeks to the end, before and after the write
      have hold := h.len
      rw [doLseek_end h.take, ok_bind]
      rw [if_neg (by simp only [take]; exact Int.not_lt.mpr hold.1)]
      have hw := ((h.take.landed f hold.2).resized hlen)
      have hnew : (((s.take f).landed f (s.vnode v).vnLen).resized v len).vnode v =
          { s.vnode v with vnLen := len } := by
        simp [resized, setVnode, take, setFile]
      have hend := doLseek_end hw
      rw [hnew] at hend
      change (doLseek (((s.take f).landed f (s.vnode v).vnLen).resized v len) p fd 0 seekEnd >>=
        _) = _
      rw [hend, ok_bind, landed_resized, landed_landed hlen.1]
      change doWrite.doWriteEnd (((s.resized v len).take f).landed f len) f put = _
      rw [take_landed]
    · change (doLseek ((s.take f).resized v len) p fd put seekCur >>= _) = _
      rw [doLseek_open (h.take.resized hlen) hput (.inr (.inr rfl)), ok_bind]
      change doWrite.doWriteEnd (((s.resized v len).take f).landed f
        (wrap32 (((s.take f).file f).fPos + put))) f put = _
      rw [hpos, take_landed]

end

/-! ## 3. Where they leave the position -/

/-- A read or a write, with what the operation of the file system returns and the length of the file
after it. -/
inductive Transfer where
  | read (nbytes : Nat) (got : Int)
  | write (nbytes : Nat) (put len : Int)

namespace Transfer

def run (s : FileSys) (p : Nat) (fd : Int) : Transfer → Except Halt (FileSys × Int)
  | .read nbytes got => doRead s p fd nbytes got
  | .write nbytes put len => doWrite s p fd nbytes put len

/-- The numbers are a `size_t`, an `int` and an `off_t` that is not negative. -/
def Typed : Transfer → Prop
  | .read nbytes got => nbytes < 2 ^ 32 ∧ -2 ^ 31 ≤ got ∧ got < 2 ^ 31
  | .write nbytes put len => nbytes < 2 ^ 32 ∧ (-2 ^ 31 ≤ put ∧ put < 2 ^ 31) ∧
    0 ≤ len ∧ len < 2 ^ 31

/-- The position after a call that returned `r`: as much further as was read or written, the end of
the file if the data was appended, and where it was after an error. -/
def Moves (s t : FileSys) (f v : Nat) (r : Int) : Transfer → Prop
  | .read _ _ => (t.file f).fPos = (s.file f).fPos + max r 0
  | .write _ _ _ =>
    if (s.file f).fMode &&& fmodeAppend ≠ 0 ∧ 0 ≤ r then (t.file f).fPos = (t.vnode v).vnLen
    else (t.file f).fPos = (s.file f).fPos + max r 0

/-- The seek by `r` from `pos` goes to a position that there is, or `r` is an error and the seek is
refused. -/
def Seeks (pos r : Int) : Prop := if 0 ≤ r then pos + r < 2 ^ 31 else pos + r < 0

/-- Where the calls do so. -/
def Exact (s : FileSys) (f v : Nat) : Transfer → Prop
  | .read nbytes got => s.readRefused f v nbytes = none → if (nbytes - got) % 2 ^ 32 = 0
    then Seeks (s.file f).fPos got
    else (s.vnode v).vnLen = (s.file f).fPos + max got 0
  | .write _ put len => s.writeRefused f v = none →
    if (s.file f).fMode &&& fmodeAppend ≠ 0 then put < 0 → len = (s.file f).fPos
    else Seeks (s.file f).fPos put

end Transfer

section
variable {s t : FileSys} {p f v : Nat} {fd r : Int}

theorem seek_exact {pos : Int} (h : 0 ≤ pos ∧ pos < 2 ^ 31) (hr : -2 ^ 31 ≤ r ∧ r < 2 ^ 31) :
    (if wrap32 (pos + r) < 0 then pos else wrap32 (pos + r)) = pos + max r 0 ↔
      Transfer.Seeks pos r := by
  unfold wrap32 Transfer.Seeks
  rw [Int.bmod_def]
  split <;> split <;> split <;> omega

theorem readRefused_nonpos {nbytes : Nat} (h : s.readRefused f v nbytes = some r) : r ≤ 0 := by
  unfold readRefused at h
  split_ifs at h <;> cases h <;> decide

theorem writeRefused_neg (h : s.writeRefused f v = some r) : r < 0 := by
  unfold writeRefused at h
  split_ifs at h <;> cases h <;> decide

/-- The calls leave the position of an open file where they should exactly under
`Transfer.Exact`. -/
theorem position_exact (h : OpenAt s p fd f v) {c : Transfer} (hc : c.Typed)
    (hr : c.run s p fd = .ok (t, r)) :
    c.Moves s t f v r ↔ c.Exact s f v := by
  have hpos := h.pos
  have hlen := h.len
  cases c with
  | read nbytes got =>
    obtain ⟨-, hgot⟩ := hc
    have heq := (doRead_open (n := nbytes) h hgot.2).symm.trans hr
    simp only [Transfer.Moves, Transfer.Exact]
    cases hrefused : s.readRefused f v nbytes with
    | some e =>
      rw [hrefused] at heq
      cases heq
      have hneg := readRefused_nonpos hrefused
      simp only [reduceCtorEq, false_implies, iff_true]
      omega
    | none =>
      rw [hrefused] at heq
      cases heq
      rw [landed_pos, imp_iff_right rfl]
      by_cases hfull : ((nbytes : Int) - r) % 2 ^ 32 = 0
      · simp only [if_pos hfull]
        exact seek_exact hpos hgot
      · simp only [if_neg hfull]
        rw [if_neg (by omega)]
  | write nbytes put len =>
    obtain ⟨-, hput, hnew⟩ := hc
    have heq := (doWrite_open (n := nbytes) h hput.2 hnew).symm.trans hr
    simp only [Transfer.Moves, Transfer.Exact]
    cases hrefused : s.writeRefused f v with
    | some e =>
      rw [hrefused] at heq
      cases heq
      have hneg := writeRefused_neg hrefused
      rw [if_neg (by omega)]
      simp only [reduceCtorEq, false_implies, iff_true]
      omega
    | none =>
      rw [hrefused] at heq
      obtain ⟨rfl, rfl⟩ := doWriteEnd_open (h.written f hnew) put heq
      have hpos' : ((s.written f v r len).file f).fPos = _ := landed_pos
      change _ = if _ then (s.file f).fPos else _ at hpos'
      rw [written_vnode, hpos', imp_iff_right rfl]
      by_cases happend : (s.file f).fMode &&& fmodeAppend ≠ 0
      · simp only [happend, true_and, ne_eq, not_false_eq_true, if_true,
          if_neg (Int.not_lt.mpr hnew.1)]
        split
        · exact ⟨fun _ hneg => by omega, fun _ => trivial⟩
        · omega
      · simp only [happend, false_and, if_false]
        exact seek_exact hpos hput

/-- Process 0 has a file of three bytes open for reading, at the position `pos`. -/
def threeBytes (pos : Int) : FileSys :=
  { bootFiles {0} (fun _ => ⟨sIfreg, 3, 1, 0, false, true, true, true, false⟩) (fun _ => none)
      ⟨fun _ => none, fun _ _ h => nomatch h⟩ with
    file := fun _ => ⟨pos, fmodeRead, 1, some 0⟩
    pFiles := fun _ => some 0 }

theorem threeBytes_open (pos : Int) (h : 0 ≤ pos ∧ pos < 2 ^ 31) :
    OpenAt (threeBytes pos) 0 0 0 0 where
  valid := by decide
  slot := rfl
  vnode := rfl
  mode := (by decide : 0 ≤ fmodeRead.toInt ∧ fmodeRead.toInt < 8)
  refs := (by decide : (0 : Int) < 1)
  pos := h
  len := (by decide : (0 : Int) ≤ 3 ∧ (3 : Int) < 2 ^ 31)

/-- Two bytes, from the start. -/
theorem position_exact_two : ∃ t, doRead (threeBytes 0) 0 0 2 2 = .ok (t, 2) ∧
    (Transfer.Moves (threeBytes 0) t 0 0 2 (.read 2 2) ↔
      Transfer.Exact (threeBytes 0) 0 0 (.read 2 2)) := by
  have hopen := threeBytes_open 0 (by decide)
  have hread := doRead_open (n := 2) hopen (by decide : (2 : Int) < 2 ^ 31)
  have htyped : (Transfer.read 2 2).Typed :=
    (by decide : 2 < 2 ^ 32 ∧ -2 ^ 31 ≤ (2 : Int) ∧ (2 : Int) < 2 ^ 31)
  exact ⟨_, hread, position_exact hopen htyped hread⟩

/-- A read at position 10, behind the end, returns 0 and leaves the position at 3. -/
theorem short_read_moves_back :
    ∃ t, doRead (threeBytes 10) 0 0 5 0 = .ok (t, 0) ∧ (t.file 0).fPos = 3 ∧
    ¬ Transfer.Moves (threeBytes 10) t 0 0 0 (.read 5 0) := by
  have hread := doRead_open (n := 5) (threeBytes_open 10 (by decide))
    (by decide : (0 : Int) < 2 ^ 31)
  exact ⟨_, hread, by decide, by change ¬ (3 : Int) = 10 + max 0 0; decide⟩

end

end Weenix.Fs
