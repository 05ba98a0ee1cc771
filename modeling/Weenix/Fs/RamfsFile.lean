/-
# A file of the memory file system as an array of bytes (`fs/ramfs/ramfs.c`, `fs/vfs_syscall.c`)

A regular file is one page and a length.  The calls on it are those of `Position.lean` with the
operations of `Ramfs.lean`: `do_read` and `do_write` pass the position (with `O_APPEND`, the end of
the file), and what the operation returns moves it.

The file is compared with an array of bytes, `Store`.  `ramfs_write` takes the smaller of `count`
and `PAGE_SIZE - offset` and gives it to `memcpy`, so that behind the page, or with a `count` that
is negative as an `off_t`, it copies almost the whole address space.
-/
import Weenix.Fs.Position
import Weenix.Fs.RamfsOps
import Weenix.Lib.Run

namespace Weenix.Vfs

open Fs FileSys Ramfs

/-! ## 1. The calls -/

/-- The open files and the file system that their vnodes are on. -/
structure RamSys where
  files : FileSys
  ram : Ramfs

/-- A call on the descriptor `fd` of `p`, which is the open file `f`. -/
inductive FileCall where
  | lseek (p : Nat) (fd : Int) (f : Nat) (offset whence : Int)
  | read (p : Nat) (fd : Int) (f : Nat) (nbytes : Nat)
  | write (p : Nat) (fd : Int) (f : Nat) (buf : List UInt8)

/-- Where a write goes: with `FMODE_APPEND` there is a seek to the end before it. -/
def RamSys.writePos (s : RamSys) (f x : Nat) : Int :=
  if (s.files.file f).fMode &&& fmodeAppend ≠ 0 then (s.files.vnode x).vnLen
    else (s.files.file f).fPos

/-- What a call returns, and the bytes that it read. -/
def FileCall.run (s : RamSys) (x : Nat) : FileCall → Except Halt (RamSys × Int × List UInt8)
  | .lseek p fd _ offset whence => do
    let (files, r) ← doLseek s.files p fd offset whence
    return (⟨files, s.ram⟩, r, [])
  | .read p fd f nbytes => do
    let bytes ← if s.files.readRefused f x nbytes = none
      then ramfsRead s.ram x (s.files.file f).fPos.toNat nbytes else .ok []
    let (files, r) ← doRead s.files p fd nbytes bytes.length
    return (⟨files, s.ram⟩, r, bytes)
  | .write p fd f buf =>
    if s.files.writeRefused f x = none then do
      let (put, ram) ← ramfsWrite s.ram x (s.writePos f x).toNat buf
      let vn ← ram.getVnode x
      let (files, r) ← doWrite s.files p fd buf.length put vn.vnLen
      return (⟨files, ram⟩, r, [])
    else do
      let (files, r) ← doWrite s.files p fd buf.length 0 0
      return (⟨files, s.ram⟩, r, [])

/-! ## 2. The array -/

/-- An array of `PAGE_SIZE` bytes, of which the first `len` are the file. -/
structure Store where
  mem : Nat → UInt8
  len : Int

namespace Store

variable (a : Store) (pos : Int)

/-- As many bytes of `n` as there is room for. -/
def room (n : Nat) : Int := max 0 (min (n : Int) (pageSize - pos))

def write (buf : List UInt8) : Store where
  mem k := if pos ≤ k ∧ (k : Int) < pos + room pos buf.length
    then buf.getD (k - pos.toNat) 0 else a.mem k
  len := max a.len (pos + room pos buf.length)

def read (n : Nat) : List UInt8 :=
  (List.range (max 0 (min (n : Int) (a.len - pos))).toNat).map fun k => a.mem (pos.toNat + k)

end Store

/-- What the array, read and written at the positions of the open files, says of a call. -/
def FileCall.onStore (s : RamSys) (x : Nat) (a : Store) : FileCall → Store × Option Int × List UInt8
  | .lseek .. => (a, none, [])
  | .read _ _ f nbytes =>
    match s.files.readRefused f x nbytes with
    | some r => (a, some r, [])
    | none => (a, some (a.read (s.files.file f).fPos nbytes).length,
      a.read (s.files.file f).fPos nbytes)
  | .write _ _ f buf =>
    match s.files.writeRefused f x with
    | some r => (a, some r, [])
    | none => (a.write (s.writePos f x) buf, some (Store.room (s.writePos f x) buf.length), [])

/-- The inode `x` and its vnode have the array. -/
structure Holds (ram : Ramfs) (x : Nat) (a : Store) : Prop where
  inode : ∃ n, ram.rfsInodes x = some ⟨a.len, .data a.mem, n⟩
  vnode : ∃ vn, ram.vnode x = some vn ∧ vn.vnLen = a.len
  len : 0 ≤ a.len ∧ a.len ≤ pageSize

/-- The regular file `x` is the array. -/
structure HasStore (s : RamSys) (x : Nat) (a : Store) : Prop where
  holds : Holds s.ram x a
  type : (s.files.vnode x).isType sIfreg
  vnLen : (s.files.vnode x).vnLen = a.len

/-- The calls that the array describes: what is written begins in the page, and a `count` is
an `off_t`. -/
def FileCall.Within (s : RamSys) (x : Nat) : FileCall → Prop
  | .lseek _ _ _ offset _ => offset < 2 ^ 31
  | .read _ _ _ nbytes => nbytes < 2 ^ 31
  | .write _ _ f buf => s.files.writeRefused f x = none →
    buf.length < 2 ^ 31 ∧ s.writePos f x ≤ pageSize

def FileCall.Opened (s : FileSys) (x : Nat) : FileCall → Prop
  | .lseek p fd f _ _ | .read p fd f _ | .write p fd f _ => OpenAt s p fd f x

/-- A call returned what the array says, left the file as the array is then, and no descriptor was
lost. The bytes that it read are in the page. -/
structure Behaves (s : RamSys) (x : Nat) (a : Store) (c : FileCall) (t : RamSys) (r : Int)
    (bytes : List UInt8) :
    Prop where
  store : HasStore t x (c.onStore s x a).1
  ret : ∀ r' ∈ (c.onStore s x a).2.1, r = r'
  gave : bytes = (c.onStore s x a).2.2
  inPage : ∀ p fd f n, c = .read p fd f n → bytes ≠ [] →
    (s.files.file f).fPos + bytes.length ≤ pageSize
  opened : ∀ p fd f, OpenAt s.files p fd f x → OpenAt t.files p fd f x

section
variable {s : RamSys} {x : Nat} {a : Store} {buf : List UInt8} {ram : Ramfs}

theorem Holds.fileOf (h : Holds ram x a) : ∃ n, fileOf ram x = .ok (a.len, a.mem, n) := by
  obtain ⟨n, hinode⟩ := h.inode
  obtain ⟨vn, hvn, -⟩ := h.vnode
  refine ⟨n, ?_⟩
  simp [Vfs.fileOf, getVnode, hvn, dirOf, hinode]

theorem Holds.write {pos : Int} (h : Holds ram x a) (hpos : 0 ≤ pos ∧ pos ≤ pageSize)
    (hcount : buf.length < 2 ^ 31) :
    ∃ ram', ramfsWrite ram x pos.toNat buf = .ok (Store.room pos buf.length, ram') ∧
      Holds ram' x (a.write pos buf) := by
  obtain ⟨n, hfile⟩ := h.fileOf
  obtain ⟨vn, hvn, hvnLen⟩ := h.vnode
  have hlen := h.len
  have hmin : min (wrap32 buf.length)
      (pageSize - (pos.toNat : Int)) = Store.room pos buf.length := by
    rw [wrap32_of_nonneg (by omega) (by exact_mod_cast hcount),
      Int.toNat_of_nonneg hpos.1, Store.room]
    omega
  have hroom : 0 ≤ Store.room pos buf.length ∧ pos + Store.room pos buf.length ≤ pageSize := by
    rw [Store.room]
    omega
  rw [ramfsWrite, hfile, ok_bind]
  simp only [hmin]
  rw [if_neg (by omega), getVnode, hvn, ok_bind, kassert_of (by simp [hvnLen]), ok_bind, hvnLen]
  refine ⟨_, rfl, ⟨n, ?_⟩, ⟨_, update_self .., ?_⟩, ?_⟩
  · simp [Ramfs.setVnode, Ramfs.setInode, Store.write, Int.toNat_of_nonneg hpos.1]
  · simp [Store.write, Int.toNat_of_nonneg hpos.1]
  · change 0 ≤ max a.len (pos + _) ∧ max a.len (pos + _) ≤ pageSize
    omega

/-- Only the position of an open file moves. -/
theorem HasStore.landed (h : HasStore s x a) (f : Nat) (pos : Int) :
    HasStore ⟨s.files.landed f pos, s.ram⟩ x a :=
  ⟨h.holds, by simpa using h.type, by simpa using h.vnLen⟩

section
variable {p f : Nat} {fd : Int} (h : HasStore s x a) (ho : OpenAt s.files p fd f x)
include h ho

/-- A position in the file passes the check of `do_write`. -/
theorem doWrite_store {ret len : Int} (n : Nat) (hrefused : s.files.writeRefused f x = none)
    (hret : 0 ≤ ret ∧ s.writePos f x + ret ≤ len) (hlen : len < 2 ^ 31) :
    doWrite s.files p fd n ret len = .ok (s.files.written f x ret len, ret) := by
  have hpos := ho.pos
  have hold := ho.len
  have hend : 0 ≤ len ∧ ((s.files.written f x ret len).file f).fPos ≤ len ∧ ret < 2 ^ 31 := by
    unfold written
    rw [landed_pos]
    unfold RamSys.writePos at hret
    by_cases happend : (s.files.file f).fMode &&& fmodeAppend ≠ 0
    · simp only [if_pos happend] at hret ⊢
      omega
    · simp only [if_neg happend] at hret ⊢
      rw [wrap32_of_nonneg (by omega) (by omega)]
      omega
  have htype : ({ s.files.vnode x with vnLen := len } : Fs.Vnode).isType sIfreg = true := h.type
  rw [doWrite_open ho hend.2.2 ⟨hend.1, hlen⟩, hrefused]
  refine doWriteEnd_checked (ho.written f ⟨hend.1, hlen⟩) ret ?_
  rw [writeChecked, written_vnode, htype, decide_eq_true hend.2.1]
  simp

theorem lseek_behaves {offset whence : Int} (hw : offset < 2 ^ 31) :
    ∃ t r bytes, (FileCall.lseek p fd f offset whence).run s x = .ok (t, r, bytes) ∧
      Behaves s x a (.lseek p fd f offset whence) t r bytes := by
  by_cases hwhence : whence = seekEnd ∨ whence = seekSet ∨ whence = seekCur
  · have htarget : s.files.target f x offset whence < 2 ^ 31 := by
      unfold target
      split_ifs
      · exact hw
      · exact wrap32_lt _
      · exact wrap32_lt _
    rw [FileCall.run, doLseek_open ho hw hwhence, ok_bind]
    exact ⟨_, _, _, rfl, h.landed f _, nofun, rfl, nofun, fun p' fd' g hg => hg.landed f htarget⟩
  · have hfd := ho.valid
    unfold validFd at hfd
    refine ⟨s, -einval, [], ?_, h, nofun, rfl, nofun, fun p' fd' g hg => hg⟩
    rw [FileCall.run, doLseek, if_neg (by omega), if_pos (by tauto)]
    rfl

theorem read_behaves {n : Nat} (hn : n < 2 ^ 31) :
    ∃ t r bytes, (FileCall.read p fd f n).run s x = .ok (t, r, bytes) ∧
      Behaves s x a (.read p fd f n) t r bytes := by
  have hpos := ho.pos
  have hlen := h.holds.len
  rw [FileCall.run]
  cases hrefused : s.files.readRefused f x n with
  | some r =>
    refine ⟨s, r, [], ?_, ?_⟩
    · rw [if_neg (by simp), ok_bind]
      change (doRead s.files p fd n 0 >>= _) = _
      rw [doRead_open ho (by decide), hrefused]
      rfl
    · refine ⟨?_, ?_, ?_, fun _ _ _ _ _ hne => absurd rfl hne, fun p' fd' g hg => hg⟩ <;>
        simp only [FileCall.onStore, hrefused]
      · exact h
      · rintro r' ⟨⟩
        rfl
  | none =>
    obtain ⟨k, hfile⟩ := h.holds.fileOf
    have hread : ramfsRead s.ram x (s.files.file f).fPos.toNat n =
        .ok (a.read (s.files.file f).fPos n) := by
      rw [ramfsRead, hfile, ok_bind, wrap32_of_nonneg (by omega) (by exact_mod_cast hn)]
      simp only [Int.toNat_of_nonneg hpos.1]
      rfl
    have hcount : ((a.read (s.files.file f).fPos n).length : Int) =
        max 0 (min (n : Int) (a.len - (s.files.file f).fPos)) := by
      rw [Store.read, List.length_map, List.length_range, Int.toNat_of_nonneg (by omega)]
    rw [if_pos rfl, hread, ok_bind]
    dsimp only
    rw [doRead_open ho (by omega), hrefused, ok_bind]
    refine ⟨_, _, _, rfl, ?_, ?_, ?_, ?_, fun p' fd' g hg => hg.landed f ?_⟩
    · simp only [FileCall.onStore, hrefused]
      exact h.landed f _
    · simp only [FileCall.onStore, hrefused]
      rintro r' ⟨⟩
      rfl
    · simp only [FileCall.onStore, hrefused]
    · rintro _ _ _ _ ⟨⟩ hne
      have := List.length_pos_iff.mpr hne
      omega
    · have := ho.len
      split
      · exact wrap32_lt _
      · omega

theorem write_behaves (hw : s.files.writeRefused f x = none →
    buf.length < 2 ^ 31 ∧ s.writePos f x ≤ pageSize) :
    ∃ t r bytes, (FileCall.write p fd f buf).run s x = .ok (t, r, bytes) ∧
      Behaves s x a (.write p fd f buf) t r bytes := by
  rw [FileCall.run]
  cases hrefused : s.files.writeRefused f x with
  | some r =>
    refine ⟨s, r, [], ?_, ?_⟩
    · rw [if_neg (by simp), doWrite_open ho (by decide) (by decide), hrefused]
      rfl
    · refine ⟨?_, ?_, ?_, nofun, fun p' fd' g hg => hg⟩ <;> simp only [FileCall.onStore, hrefused]
      · exact h
      · rintro r' ⟨⟩
        rfl
  | none =>
    obtain ⟨hcount, hpage⟩ := hw hrefused
    have hat : 0 ≤ s.writePos f x := by
      unfold RamSys.writePos
      split
      · exact ho.len.1
      · exact ho.pos.1
    obtain ⟨ram, hram, hholds⟩ := h.holds.write ⟨hat, hpage⟩ hcount
    obtain ⟨vn, hvn, hvnLen⟩ := hholds.vnode
    have hlen := hholds.len
    have hend : s.writePos f x + Store.room (s.writePos f x) buf.length ≤ vn.vnLen := by
      rw [hvnLen, Store.write]
      exact le_max_right ..
    have hroom : 0 ≤ Store.room (s.writePos f x) buf.length := le_max_left ..
    have hsmall : vn.vnLen < 2 ^ 31 := lt_of_le_of_lt (hvnLen ▸ hlen.2) (by decide)
    rw [if_pos rfl, hram, ok_bind]
    dsimp only
    rw [getVnode, hvn, ok_bind, doWrite_store h ho _ hrefused ⟨hroom, hend⟩ hsmall, ok_bind]
    refine ⟨_, _, _, rfl, ?_, ?_, ?_, nofun,
      fun p' fd' g hg => hg.written f ⟨hvnLen ▸ hlen.1, hsmall⟩⟩ <;>
      simp only [FileCall.onStore, hrefused]
    · refine ⟨hholds, ?_, ?_⟩
      · rw [written_vnode]
        exact h.type
      · rw [written_vnode]
        exact hvnLen
    · rintro r' ⟨⟩
      rfl

end

theorem run_behaves {c : FileCall} (h : HasStore s x a) (ho : c.Opened s.files x)
    (hw : c.Within s x) :
    ∃ t r bytes, c.run s x = .ok (t, r, bytes) ∧ Behaves s x a c t r bytes := by
  cases c with
  | lseek p fd f offset whence => exact lseek_behaves h ho hw
  | read p fd f n => exact read_behaves h ho hw
  | write p fd f buf => exact write_behaves h ho hw

end

/-! ## 3. Every run -/

/-- A call on the file, with the array beside it. -/
def fileStep (x : Nat) (s : RamSys × Store) (c : FileCall) : Except Halt (RamSys × Store) := do
  let (t, _, _) ← c.run s.1 x
  return (t, (c.onStore s.1 x s.2).1)

/-- Calls on descriptors that were open at the beginning. -/
def FileLegal (s₀ : RamSys) (x : Nat) (s : RamSys × Store) (c : FileCall) : Prop :=
  c.Opened s₀.files x ∧ c.Within s.1 x

/-- In every run from an empty file, the file is the array, and every further call behaves
as on it. -/
theorem file_is_store {s₀ s : RamSys} {x : Nat} {a : Store} (h₀ : HasStore s₀ x ⟨fun _ => 0, 0⟩)
    (hrun : Lts.Run (FileLegal s₀ x) (fileStep x) (s₀, ⟨fun _ => 0, 0⟩) (s, a)) :
    HasStore s x a ∧ ∀ c, FileLegal s₀ x (s, a) c →
      ∃ t r bytes, c.run s x = .ok (t, r, bytes) ∧ Behaves s x a c t r bytes := by
  have hinv : HasStore s x a ∧ ∀ p fd f, OpenAt s₀.files p fd f x → OpenAt s.files p fd f x := by
    refine Lts.Run.invariant (I := fun s : RamSys × Store =>
      HasStore s.1 x s.2 ∧ ∀ p fd f, OpenAt s₀.files p fd f x → OpenAt s.1.files p fd f x)
      ⟨h₀, fun _ _ _ h => h⟩ ?_ hrun
    rintro ⟨s, a⟩ c t ⟨hs, hopen⟩ ⟨ho, hw⟩ hstep
    have ho' : c.Opened s.files x := by cases c <;> exact hopen _ _ _ ho
    obtain ⟨u, r, bytes, hcall, hb⟩ := run_behaves hs ho' hw
    rw [fileStep, hcall] at hstep
    cases hstep
    exact ⟨hb.store, fun p fd f h => hb.opened p fd f (hopen p fd f h)⟩
  refine ⟨hinv.1, fun c hc => run_behaves hinv.1 ?_ hc.2⟩
  cases c <;> exact hinv.2 _ _ _ hc.1

/-- An empty file `1`, open for reading and writing with the position `pos`. -/
def emptyFile (pos : Int) : RamSys where
  files := { threeBytes pos with
    vnode := fun _ => ⟨sIfreg, 0, 1, 0, false, true, true, true, false⟩
    file := fun _ => ⟨pos, fmodeRead ||| fmodeWrite, 1, some 1⟩ }
  ram := ⟨fun _ => some ⟨0, zeroPage, 2⟩, fun _ => some ⟨0, 1, 0⟩, none⟩

theorem emptyFile_store (pos : Int) : HasStore (emptyFile pos) 1 ⟨fun _ => 0, 0⟩ :=
  ⟨⟨⟨2, rfl⟩, ⟨_, rfl, rfl⟩, by decide⟩,
    (by decide : Fs.Vnode.isType ⟨sIfreg, 0, 1, 0, false, true, true, true, false⟩ sIfreg = true),
      rfl⟩

theorem emptyFile_open : OpenAt (emptyFile 0).files 0 0 0 1 :=
  ⟨by decide, rfl, rfl,
    (by decide : 0 ≤ (fmodeRead ||| fmodeWrite).toInt ∧ (fmodeRead ||| fmodeWrite).toInt < 8),
    (by decide : (0 : Int) < 1), (by decide : (0 : Int) ≤ 0 ∧ (0 : Int) < 2 ^ 31),
    (by decide : (0 : Int) ≤ 0 ∧ (0 : Int) < 2 ^ 31)⟩

/-- Two bytes are written to an empty file and, after a seek back to its beginning, read. -/
theorem file_is_store_two : ∃ s t a r bytes,
    Lts.Run (FileLegal (emptyFile 0) 1) (fileStep 1) (emptyFile 0, ⟨fun _ => 0, 0⟩) (s, a) ∧
      (FileCall.read 0 0 0 2).run s 1 = .ok (t, r, bytes) ∧ r = 2 ∧ bytes = [7, 8] ∧
      HasStore t 1 a := by
  obtain ⟨s, a, hrun, hpos, hmode, hread⟩ : ∃ s a,
      Lts.Run (FileLegal (emptyFile 0) 1) (fileStep 1) (emptyFile 0, ⟨fun _ => 0, 0⟩) (s, a) ∧
        (s.files.file 0).fPos = 0 ∧ s.files.readRefused 0 1 2 = none ∧ a.read 0 2 = [7, 8] :=
    ⟨_, _, .tail (a := .lseek 0 0 0 0 seekSet)
      (.tail (a := .write 0 0 0 [7, 8]) .refl ⟨emptyFile_open, fun _ => by decide⟩ rfl)
      ⟨emptyFile_open, (by decide : (0 : Int) < 2 ^ 31)⟩ rfl,
      by decide +kernel, by decide +kernel, by decide +kernel⟩
  obtain ⟨t, r, bytes, ht, hb⟩ := (file_is_store (emptyFile_store 0) hrun).2 (.read 0 0 0 2)
    ⟨emptyFile_open, (by decide : 2 < 2 ^ 31)⟩
  obtain ⟨hstore, hret, hgave, -, -⟩ := hb
  simp only [FileCall.onStore, hmode, hpos, hread] at hstore hret hgave
  exact ⟨s, t, a, r, bytes, hrun, ht, hret _ rfl, hgave, hstore⟩

/-- Behind the page a write of one byte does not return 0: `memcpy` is given the length -1. -/
theorem write_behind_page : Store.room 4097 1 = 0 ∧
    (FileCall.write 0 0 0 [7]).run (emptyFile 4097) 1 = .error .wild :=
  ⟨by decide, by rfl⟩

end Weenix.Vfs
