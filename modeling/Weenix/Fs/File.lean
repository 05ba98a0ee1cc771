/-
# Open files (`fs/file.c`, `fs/open.c`, `fs/vfs_syscall.c`)

A descriptor is an index into `p_files` of the process, which points to a `file_t`; several
descriptors, of several processes after a fork, may point to one.  `fget` takes a reference and
`fput` drops it, and the last one releases the vnode and frees the `file_t`.

The functions take the process that makes the call in place of `curproc`.  A read or a write outside
`p_files` is `wild`, and a `NULL` that is followed is the page fault that the kernel panics on.
What the file system answers (`vn_ops->read`, `open_namev`, the device tables, the slab allocator)
are arguments or come from the state, where the environment may change it between calls.

`serial`, `nserial` and `log` are a history that no call reads: every `file_t` that is allocated
gets a number that was not used before, and the log records what became of it.
-/
import Mathlib.Data.Finset.Prod
import Weenix.Kernel
import Weenix.Lib.Refcount

namespace Weenix.Fs

open Refcount

/-! ## 1. Constants -/

def nfiles : Nat := 32

def enxio : Int := 6
def enoexec : Int := 8
def ebadf : Int := 9
def enomem : Int := 12
def eacces : Int := 13
def enotdir : Int := 20
def eisdir : Int := 21
def einval : Int := 22
def emfile : Int := 24

def fmodeRead : BitVec 32 := 1
def fmodeWrite : BitVec 32 := 2
def fmodeAppend : BitVec 32 := 4

def oRdonly : BitVec 32 := 0
def oWronly : BitVec 32 := 1
def oRdwr : BitVec 32 := 2
def oCreat : BitVec 32 := 0x100
def oAppend : BitVec 32 := 0x400

def seekSet : Int := 0
def seekCur : Int := 1
def seekEnd : Int := 2

def sIfchr : Nat := 0x0100
def sIfdir : Nat := 0x0200
def sIfblk : Nat := 0x0400
def sIfreg : Nat := 0x0800

/-- `sizeof(struct dirent)`: two words and a name of 29 characters, padded -/
def sizeofDirent : Int := 40

def sizeofEhdr : Nat := 52

/-- An `int` or an `off_t` after arithmetic. -/
def wrap32 (x : Int) : Int := x.bmod (2 ^ 32)

/-! ## 2. The state -/

/-- The part of `vnode_t` that the calls look at.  `read`, `write` and `readdir` say whether the
operation is there; `linked` is what `query_vnode` answers. -/
structure Vnode where
  vnMode : Nat
  vnLen : Int
  vnRefcount : Int
  vnNrespages : Int
  vnBusy : Bool
  linked : Bool
  read : Bool
  write : Bool
  readdir : Bool

def Vnode.isType (v : Vnode) (t : Nat) : Bool := (v.vnMode &&& 0xff00) = t

structure File where
  fPos : Int
  fMode : BitVec 32
  fRefcount : Int
  fVnode : Option Nat

/-- What happened to the `file_t` with the number `k`: `open_namev` found its vnode; a descriptor
slot that pointed to it was cleared, after which `n` slots still do; its vnode was released; it was
freed. -/
inductive FileEvent where
  | found (k v : Nat)
  | cleared (k n : Nat)
  | vput (k v : Nat)
  | freed (k : Nat)
deriving DecidableEq

def FileEvent.serial : FileEvent → Nat
  | .found k _ | .cleared k _ | .vput k _ | .freed k => k

/-- `slab_obj_alloc(file_allocator)`, given what is allocated: it fails or returns an object that is
not. -/
structure Slab where
  alloc : Finset Nat → Option Nat
  fresh : ∀ A a, alloc A = some a → a ∉ A

structure FileSys where
  file : Nat → File
  allocated : Finset Nat
  slab : Slab
  procs : Finset Nat
  dead : Finset Nat
  pFiles : Nat × Nat → Option Nat
  pCwd : Nat → Option Nat
  vnode : Nat → Vnode
  serial : Nat → Nat
  nserial : Nat
  log : List FileEvent

/-- Every descriptor slot there is. -/
def FileSys.places (s : FileSys) : Finset (Nat × Nat) := s.procs ×ˢ Finset.range nfiles

/-- The number of slots, over all processes, that point to `f`. -/
def FileSys.slots (s : FileSys) (f : Nat) : Nat := census s.places s.pFiles f

def FileSys.setFile (s : FileSys) (f : Nat) (x : File) : FileSys :=
  { s with file := update s.file f x }

def FileSys.setVnode (s : FileSys) (v : Nat) (x : Vnode) : FileSys :=
  { s with vnode := update s.vnode v x }

def FileSys.setSlot (s : FileSys) (i : Nat × Nat) (x : Option Nat) : FileSys :=
  { s with
    pFiles := update s.pFiles i x
    log := s.log ++ (match s.pFiles i with
      | some f => [.cleared (s.serial f) (census s.places (update s.pFiles i x) f)]
      | none => []) }

/-- Following `NULL`: `_pt_fault_handler` panics. -/
def pageFaulted : Halt := .panic "\nPage faulted while accessing 0x%08x\n"

/-- An index into `p_files`. -/
def validFd (fd : Int) : Prop := 0 ≤ fd ∧ fd < nfiles
deriving Decidable

/-- `curproc->p_files[fd]` -/
def pFilesAt (s : FileSys) (p : Nat) (fd : Int) : Except Halt (Option Nat) :=
  if validFd fd then .ok (s.pFiles (p, fd.toNat)) else .error .wild

/-- `curproc->p_files[fd] = x` -/
def setPFiles (s : FileSys) (p : Nat) (fd : Int) (x : Option Nat) : Except Halt FileSys :=
  if validFd fd then .ok (s.setSlot (p, fd.toNat) x) else .error .wild

/-- `f->f_vnode->...` -/
def vnodeOf (s : FileSys) (f : Nat) : Except Halt Nat :=
  match (s.file f).fVnode with
  | some v => .ok v
  | none => .error pageFaulted

/-! ## 3. References -/

def vref (s : FileSys) (v : Nat) : Except Halt FileSys := do
  kassert (0 < (s.vnode v).vnRefcount) "0 < vn->vn_refcount"
  return s.setVnode v { s.vnode v with vnRefcount := (s.vnode v).vnRefcount + 1 }

/-- When the last active reference to a vnode without links goes, its resident pages go first, and
the references they hold with them. -/
def vput (s : FileSys) (v : Nat) : Except Halt FileSys := do
  let x := s.vnode v
  kassert (0 ≤ x.vnNrespages) "0 <= vn->vn_nrespages"
  kassert (x.vnNrespages < x.vnRefcount) "vn->vn_nrespages < vn->vn_refcount"
  kassert (!x.vnBusy) "!(VN_BUSY & vn->vn_flags)"
  if x.vnNrespages = x.vnRefcount - 1 ∧ !x.linked then
    return s.setVnode v { x with vnNrespages := 0, vnRefcount := 0 }
  else
    return s.setVnode v { x with vnRefcount := x.vnRefcount - 1 }

def fref (s : FileSys) (f : Nat) : Except Halt FileSys := do
  let x := s.file f
  kassert (0 ≤ x.fMode.toInt ∧ x.fMode.toInt < 8) "f->f_mode >= 0 && f->f_mode < 8"
  kassert (-1 ≤ x.fPos) "f->f_pos >= -1"
  kassert (0 ≤ x.fRefcount) "f->f_refcount >= 0"
  kassert (x.fRefcount = 0 || x.fVnode.isSome) "f->f_vnode"
  return s.setFile f { x with fRefcount := x.fRefcount + 1 }

/-- The branch of `fget` for `fd == -1`: a new, zeroed `file_t`. -/
def fgetNew (s : FileSys) : Except Halt (FileSys × Option Nat) :=
  match s.slab.alloc s.allocated with
  | none => .ok (s, none)
  | some f => do
    let s := { s with
      file := update s.file f ⟨0, 0, 0, none⟩
      allocated := insert f s.allocated
      serial := update s.serial f s.nserial
      nserial := s.nserial + 1 }
    let s ← fref s f
    return (s, some f)

def fget (s : FileSys) (p : Nat) (fd : Int) : Except Halt (FileSys × Option Nat) :=
  if fd = -1 then fgetNew s
  else if fd < 0 ∨ nfiles ≤ fd then .ok (s, none)
  else do
    match ← pFilesAt s p fd with
    | none => return (s, none)
    | some f =>
      let s ← fref s f
      return (s, some f)

/-- `slab_obj_free(file_allocator, f)` -/
def FileSys.free (s : FileSys) (f : Nat) : FileSys :=
  { s with
    allocated := s.allocated.erase f
    log := s.log ++ [.freed (s.serial f)] }

/-- The `vput` on behalf of the file `f`, with its entry in the log. -/
def vputFor (s : FileSys) (f v : Nat) : Except Halt FileSys := do
  let s ← vput s v
  return { s with log := s.log ++ [.vput (s.serial f) v] }

def fput (s : FileSys) (f : Option Nat) : Except Halt FileSys := do
  match f with
  | none => .error (.kassert "f")
  | some f =>
    let x := s.file f
    kassert (0 ≤ x.fMode.toInt ∧ x.fMode.toInt < 8) "f->f_mode >= 0 && f->f_mode < 8"
    kassert (-1 ≤ x.fPos) "f->f_pos >= -1"
    kassert (0 < x.fRefcount) "f->f_refcount > 0"
    kassert (x.fRefcount = 1 || x.fVnode.isSome) "f->f_vnode"
    let s := s.setFile f { x with fRefcount := x.fRefcount - 1 }
    if x.fRefcount - 1 = 0 then
      match x.fVnode with
      | some v =>
        let s ← vputFor s f v
        return s.free f
      | none => return s.free f
    else
      return s

/-! ## 4. The calls -/

def getEmptyFd (s : FileSys) (p : Nat) : Int :=
  match (List.range nfiles).find? (fun fd => s.pFiles (p, fd) = none) with
  | some fd => fd
  | none => -emfile

/-- Where `do_lseek` goes. -/
def newPos (s : FileSys) (f : Nat) (offset whence : Int) : Except Halt Int :=
  if whence = seekSet then .ok offset
  else if whence = seekCur then .ok (wrap32 ((s.file f).fPos + offset))
  else do
    let v ← vnodeOf s f
    return wrap32 ((s.vnode v).vnLen + offset)

def doLseek (s : FileSys) (p : Nat) (fd offset whence : Int) : Except Halt (FileSys × Int) := do
  if fd < 0 ∨ nfiles ≤ fd then return (s, -ebadf)
  if whence ≠ seekEnd ∧ whence ≠ seekSet ∧ whence ≠ seekCur then return (s, -einval)
  let (s, f) ← fget s p fd
  match f with
  | none => return (s, -ebadf)
  | some f =>
    let pos ← newPos s f offset whence
    if pos < 0 then
      let s ← fput s (some f)
      return (s, -einval)
    let s := s.setFile f { s.file f with fPos := pos }
    let s ← fput s (some f)
    return (s, pos)

/-- `got` is what `vn_ops->read` returns. -/
def doRead (s : FileSys) (p : Nat) (fd : Int) (nbytes : Nat) (got : Int) :
    Except Halt (FileSys × Int) := do
  if fd < 0 ∨ nfiles < fd then return (s, -ebadf)
  let (s, f) ← fget s p fd
  if nbytes = 0 then
    let s ← fput s f
    return (s, 0)
  match f with
  | none => return (s, -ebadf)
  | some f =>
    if (s.file f).fMode &&& fmodeRead = 0 then
      let s ← fput s (some f)
      return (s, -ebadf)
    let v ← vnodeOf s f
    if (s.vnode v).isType sIfdir then
      let s ← fput s (some f)
      return (s, -eisdir)
    if !(s.vnode v).read then
      let s ← fput s (some f)
      return (s, -eisdir)
    let (s, _) ←
      (if (nbytes - got) % 2 ^ 32 = 0 then doLseek s p fd got seekCur
      else doLseek s p fd 0 seekEnd)
    let s ← fput s (some f)
    return (s, got)

/-- `put` is what `vn_ops->write` returns, and `len` the length of the file after it. -/
def doWrite (s : FileSys) (p : Nat) (fd : Int) (_nbytes : Nat) (put len : Int) :
    Except Halt (FileSys × Int) := do
  if fd < 0 ∨ nfiles < fd then return (s, -ebadf)
  let (s, f) ← fget s p fd
  match f with
  | none => return (s, -ebadf)
  | some f =>
    let mode := (s.file f).fMode
    if mode &&& fmodeWrite = 0 ∧ mode &&& fmodeAppend = 0 then
      let s ← fput s (some f)
      return (s, -ebadf)
    let v ← vnodeOf s f
    if (s.vnode v).isType sIfdir then
      let s ← fput s (some f)
      return (s, -eisdir)
    if !(s.vnode v).write then
      let s ← fput s (some f)
      return (s, -eisdir)
    if mode &&& fmodeAppend ≠ 0 then
      let (s, r) ← doLseek s p fd 0 seekEnd
      if r < 0 then
        let s ← fput s (some f)
        return (s, r)
      let s := s.setVnode v { s.vnode v with vnLen := len }
      let (s, _) ← doLseek s p fd 0 seekEnd
      doWriteEnd s f put
    else
      let s := s.setVnode v { s.vnode v with vnLen := len }
      let (s, _) ← doLseek s p fd put seekCur
      doWriteEnd s f put
where
  /-- The end of both ways: `fput`, and the check that follows it. -/
  doWriteEnd (s : FileSys) (f : Nat) (put : Int) : Except Halt (FileSys × Int) := do
    let s ← fput s (some f)
    let v ← vnodeOf s f
    let x := s.vnode v
    kassert (x.isType sIfchr || x.isType sIfblk || (x.isType sIfreg && (s.file f).fPos ≤ x.vnLen))
      ("(S_ISCHR(f->f_vnode->vn_mode)) || (S_ISBLK(f->f_vnode->vn_mode)) || " ++
        "((S_ISREG(f->f_vnode->vn_mode)) && (f->f_pos <= f->f_vnode->vn_len))")
    return (s, put)

def doClose (s : FileSys) (p : Nat) (fd : Int) : Except Halt (FileSys × Int) := do
  if fd < 0 ∨ nfiles < fd then return (s, -ebadf)
  let (s, f) ← fget s p fd
  match f with
  | none => return (s, -ebadf)
  | some f =>
    let s ← fput s (some f)
    let s ← setPFiles s p fd none
    let s ← fput s (some f)
    return (s, 0)

def doDup (s : FileSys) (p : Nat) (fd : Int) : Except Halt (FileSys × Int) := do
  if fd < 0 ∨ nfiles < fd then return (s, -ebadf)
  let (s, f) ← fget s p fd
  match f with
  | none => return (s, -ebadf)
  | some f =>
    let newfd := getEmptyFd s p
    if newfd = -emfile then
      let s ← fput s (some f)
      return (s, -emfile)
    let s ← setPFiles s p newfd (some f)
    return (s, newfd)

def doDup2 (s : FileSys) (p : Nat) (ofd nfd : Int) : Except Halt (FileSys × Int) := do
  if ofd < 0 ∨ nfiles < ofd then return (s, -ebadf)
  if nfd < 0 ∨ nfiles < nfd then return (s, -ebadf)
  let (s, f) ← fget s p ofd
  match f with
  | none => return (s, -ebadf)
  | some f =>
    if nfd = ofd then
      let s ← fput s (some f)
      return (s, nfd)
    match ← pFilesAt s p nfd with
    | some _ =>
      let (s, _) ← doClose s p nfd
      let s ← setPFiles s p nfd (some f)
      return (s, nfd)
    | none =>
      let s ← setPFiles s p nfd (some f)
      return (s, nfd)

/-- `got` is what `vn_ops->readdir` returns. -/
def doGetdent (s : FileSys) (p : Nat) (fd got : Int) : Except Halt (FileSys × Int) := do
  if fd < 0 ∨ nfiles ≤ fd then return (s, -ebadf)
  let (s, f) ← fget s p fd
  match f with
  | none => return (s, -ebadf)
  | some f =>
    let v ← vnodeOf s f
    if !(s.vnode v).isType sIfdir then
      let s ← fput s (some f)
      return (s, -enotdir)
    if !(s.vnode v).readdir then
      let s ← fput s (some f)
      return (s, -enotdir)
    let s ← fput s (some f)
    if got < 0 then return (s, got)
    if got ≠ 0 then
      let (s, _) ← doLseek s p fd got seekCur
      return (s, sizeofDirent)
    let (s, _) ← doLseek s p fd 0 seekEnd
    return (s, got)

/-- What `do_open` gets from `open_namev`, and whether the device of a special file is there. -/
structure Namev where
  result : Int
  pVnode : Nat
  device : Bool

/-- The combinations of flags that `do_open` accepts. -/
def openFlags : List (BitVec 32) :=
  [oRdonly, oWronly, oRdwr, oAppend, oRdonly ||| oCreat, oRdwr ||| oCreat, oRdwr ||| oAppend]

/-- `f_mode` -/
def openMode (oflags : BitVec 32) : BitVec 32 :=
  if oflags = oRdonly then fmodeRead
  else if oflags = oWronly then fmodeWrite
  else if oflags = oRdwr then fmodeRead ||| fmodeWrite
  else if oflags = oAppend then fmodeWrite ||| fmodeAppend
  else if oflags = oRdonly ||| oCreat then fmodeRead
  else if oflags = oRdwr ||| oCreat then fmodeRead ||| fmodeWrite
  else fmodeRead ||| fmodeWrite ||| fmodeAppend

/-- The reference that `open_namev` returns with a vnode. -/
def FileSys.found (s : FileSys) (f v : Nat) : FileSys :=
  { s.setVnode v { s.vnode v with vnRefcount := (s.vnode v).vnRefcount + 1 } with
    log := s.log ++ [.found (s.serial f) v] }

def doOpen (s : FileSys) (p : Nat) (oflags : BitVec 32) (w : Namev) :
    Except Halt (FileSys × Int) := do
  if oflags ∉ openFlags then return (s, -einval)
  let fd := getEmptyFd s p
  if fd = -emfile then return (s, -emfile)
  let (s, f) ← fget s p (-1)
  match f with
  | none => return (s, -enomem)
  | some f =>
    let s ← setPFiles s p fd (some f)
    let s := s.setFile f { s.file f with fMode := openMode oflags }
    if w.result ≠ 0 then
      let s ← setPFiles s p fd none
      let s ← fput s (some f)
      return (s, w.result)
    let s := s.found f w.pVnode
    let x := s.vnode w.pVnode
    if x.isType sIfdir ∧ (oflags &&& oWronly ≠ 0 ∨ oflags &&& oRdwr ≠ 0) then
      let s ← setPFiles s p fd none
      let s ← vputFor s f w.pVnode
      let s ← fput s (some f)
      return (s, -eisdir)
    if (x.isType sIfblk || x.isType sIfchr) && !w.device then
      let s ← setPFiles s p fd none
      let s ← fput s (some f)
      let s ← vputFor s f w.pVnode
      return (s, -enxio)
    let s := s.setFile f { s.file f with fPos := 0, fVnode := some w.pVnode }
    return (s, fd)

end Weenix.Fs
