/-
# Fork, exit and program loading, as far as open files go
(`proc/fork.c`, `proc/proc.c`, `api/binfmt.c`, `api/elf32.c`)

`do_fork` copies the descriptors of the parent one by one and takes a reference for each.
`proc_cleanup` closes whatever is open.  `binfmt_load` opens the program, and the ELF loader opens
the interpreter it names, if it names one; both read through descriptors of the calling process and
leave by a common end that drops what was taken on the way.

Whatever the loader decides on the contents of the files, the address space and the allocator are
arguments here (`Elf`); each of its returns is a branch.

`fsStep` is one system call of one process.  The environment may change what vnodes look like, and
what the slab allocator will do, between any two calls.
-/
import Weenix.Fs.File

namespace Weenix.Fs

/-! ## 1. Processes -/

/-- `proc_create`: no descriptor is open. -/
def procCreate (s : FileSys) (child : Nat) : FileSys :=
  { s with
    procs := insert child s.procs
    dead := s.dead.erase child
    pFiles := fun i => if i.1 = child then none else s.pFiles i
    pCwd := update s.pCwd child none }

/-- The loop of `do_fork` over the descriptors. -/
def forkFiles (p child : Nat) : List Nat → FileSys → Except Halt FileSys
  | [], s => .ok s
  | i :: is, s => do
    let s := s.setSlot (child, i) (s.pFiles (p, i))
    match s.pFiles (child, i) with
    | some f =>
      let s ← fref s f
      forkFiles p child is s
    | none => forkFiles p child is s

/-- `do_fork`; `pid` is the one `proc_create` gave the child. -/
def doFork (s : FileSys) (p : Nat) (child : Option Nat) (pid : Int) : Except Halt (FileSys × Int) :=
  match child with
  | none => .ok (s, -1)
  | some child => do
    let s ← forkFiles p child (List.range nfiles) (procCreate s child)
    match s.pCwd p with
    | none => .error (.kassert "vn")
    | some v =>
      let s ← vref { s with pCwd := update s.pCwd child (some v) } v
      return (s, pid)

/-- A loop over the descriptors that calls `do_close(arg)` for each one that is open; `arg` depends
on the descriptor. -/
def closeAll (p : Nat) (arg : Nat → Int) : List Nat → FileSys → Except Halt FileSys
  | [], s => .ok s
  | fd :: fds, s =>
    match s.pFiles (p, fd) with
    | some _ => do
      let (s, _) ← doClose s p (arg fd)
      closeAll p arg fds s
    | none => closeAll p arg fds s

/-- `proc_cleanup` -/
def procCleanup (s : FileSys) (p : Nat) : Except Halt FileSys := do
  let s ← (match s.pCwd p with
    | some v => vput s v
    | none => .ok s)
  let s ← closeAll p (fun fd => fd) (List.range nfiles) s
  return { s with dead := insert p s.dead }

/-! ## 2. Program loading -/

/-- What the loader reads of an ELF file: what `vn_ops->read` returns for the header and what the
checks of the header say; whether there is memory for the program header table, where and how long
the table is, and what `read` returns for it. -/
structure ElfImage where
  ehdrRead : Int
  ehdr : Int
  pht : Bool
  phoff : Int
  phtsize : Nat
  phtRead : Int

/-- The interpreter: where its name is in the program, whether there is memory for the name, what
`read` returns for it; the file; and what follows, up to the auxiliary table. -/
structure Interp where
  offset : Int
  filesz : Nat
  name : Bool
  nameRead : Int
  namev : Namev
  image : ElfImage
  phinterp : Int
  nested : Bool
  range : Bool
  progsegs : Int
  auxv : Bool

/-- A program: the file, and what `_elf32_map_progsegs`, `_elf32_find_phinterp` and the rest, from
the auxiliary table of a program without interpreter or the stack on, return. -/
structure Elf where
  image : ElfImage
  map : Bool
  progsegs : Int
  phinterp : Int
  interp : Option Interp
  rest : Except Halt Int

/-- `_elf32_load_ehdr` -/
def elf32LoadEhdr (s : FileSys) (p : Nat) (fd : Int) (e : ElfImage) :
    Except Halt (FileSys × Int) := do
  let (s, err) ← doRead s p fd sizeofEhdr e.ehdrRead
  if err < 0 then return (s, err)
  return (s, e.ehdr)

/-- `_elf32_load_phtable` -/
def elf32LoadPhtable (s : FileSys) (p : Nat) (fd : Int) (e : ElfImage) :
    Except Halt (FileSys × Int) := do
  let (s, err) ← doLseek s p fd e.phoff seekSet
  if err < 0 then return (s, err)
  let (s, err) ← doRead s p fd e.phtsize e.phtRead
  if err < 0 then return (s, err)
  kassert (err ≤ e.phtsize) "err <= (int)phtsize"
  if err < e.phtsize then return (s, -enoexec)
  return (s, 0)

/-- The interpreter's file, once it is open. -/
def elf32LoadInterp (s : FileSys) (p : Nat) (interpfd : Int) (i : Interp)
    (rest : Except Halt Int) : Except Halt (FileSys × Int) := do
  let (s, err) ← elf32LoadEhdr s p interpfd i.image
  if err < 0 then return (s, err)
  if !i.image.pht then return (s, -enomem)
  let (s, err) ← elf32LoadPhtable s p interpfd i.image
  if err < 0 then return (s, err)
  if i.phinterp < 0 then return (s, i.phinterp)
  if i.nested then return (s, -einval)
  if !i.range then return (s, -enomem)
  if i.progsegs < 0 then return (s, i.progsegs)
  if !i.auxv then return (s, -enomem)
  let err ← rest
  return (s, err)

/-- What follows `done:` of `_elf32_load`. -/
def elf32Done (s : FileSys) (p : Nat) (file : Nat) (interpfd : Int) (interpfile : Option Nat) :
    Except Halt FileSys := do
  let s ← fput s (some file)
  let s ← (if 0 ≤ interpfd then Prod.fst <$> doClose s p interpfd else .ok s)
  match interpfile with
  | some f => fput s (some f)
  | none => return s

/-- The name of the interpreter, read from the program, and the interpreter. -/
def elf32FindInterp (s : FileSys) (p : Nat) (fd : Int) (file : Nat) (i : Interp)
    (rest : Except Halt Int) : Except Halt (FileSys × Int) := do
  let (s, err) ← doLseek s p fd i.offset seekSet
  if err < 0 then return (← elf32Done s p file (-1) none, err)
  if !i.name then return (← elf32Done s p file (-1) none, -enomem)
  let (s, err) ← doRead s p fd i.filesz i.nameRead
  if err < 0 then return (← elf32Done s p file (-1) none, err)
  if err ≠ i.filesz then return (← elf32Done s p file (-1) none, -enoexec)
  let (s, interpfd) ← doOpen s p oRdonly i.namev
  if interpfd < 0 then return (← elf32Done s p file interpfd none, interpfd)
  let (s, interpfile) ← fget s p interpfd
  match interpfile with
  | none => .error (.kassert "NULL != interpfile")
  | some f =>
    let (s, err) ← elf32LoadInterp s p interpfd i rest
    return (← elf32Done s p file interpfd (some f), err)

/-- `_elf32_load` -/
def elf32Load (s : FileSys) (p : Nat) (fd : Int) (w : Elf) : Except Halt (FileSys × Int) := do
  let (s, file) ← fget s p fd
  match file with
  | none => .error (.kassert "NULL != file")
  | some file =>
    let (s, err) ← elf32LoadEhdr s p fd w.image
    if err < 0 then return (← elf32Done s p file (-1) none, err)
    if !w.map then return (← elf32Done s p file (-1) none, -enomem)
    if !w.image.pht then return (← elf32Done s p file (-1) none, -enomem)
    let (s, err) ← elf32LoadPhtable s p fd w.image
    if err < 0 then return (← elf32Done s p file (-1) none, err)
    if w.progsegs < 0 then return (← elf32Done s p file (-1) none, w.progsegs)
    if w.phinterp < 0 then return (← elf32Done s p file (-1) none, w.phinterp)
    match w.interp with
    | some i => elf32FindInterp s p fd file i w.rest
    | none =>
      let err ← w.rest
      return (← elf32Done s p file (-1) none, err)

/-- `binfmt_load`, with the one loader there is. -/
def binfmtLoad (s : FileSys) (p : Nat) (namev : Namev) (w : Elf) : Except Halt (FileSys × Int) := do
  let (s, fd) ← doOpen s p oRdonly namev
  if fd < 0 then return (s, fd)
  let (s, file) ← fget s p fd
  match file with
  | none => .error (.kassert "NULL != file")
  | some file =>
    let v ← vnodeOf s file
    if (s.vnode v).isType sIfdir then
      let s ← fput s (some file)
      let (s, _) ← doClose s p fd
      return (s, -eisdir)
    if !(s.vnode v).isType sIfreg then
      let s ← fput s (some file)
      let (s, _) ← doClose s p fd
      return (s, -eacces)
    let s ← fput s (some file)
    let (s, err) ← elf32Load s p fd w
    let (s, _) ← doClose s p fd
    return (s, err)

/-! ## 3. Steps -/

/-- A system call of the process `p`, with what the file system answers; `world` is anything that
happens outside these calls. -/
inductive FsCall where
  | open_ (p : Nat) (oflags : BitVec 32) (namev : Namev)
  | close (p : Nat) (fd : Int)
  | dup (p : Nat) (fd : Int)
  | dup2 (p : Nat) (ofd nfd : Int)
  | read (p : Nat) (fd : Int) (nbytes : Nat) (got : Int)
  | write (p : Nat) (fd : Int) (nbytes : Nat) (put len : Int)
  | lseek (p : Nat) (fd offset whence : Int)
  | getdent (p : Nat) (fd got : Int)
  | fork (p : Nat) (child : Option Nat) (pid : Int)
  | load (p : Nat) (namev : Namev) (w : Elf)
  | exit (p : Nat)
  | reap (p : Nat)
  | world (vnode : Nat → Vnode) (pCwd : Nat → Option Nat) (slab : Slab)

def fsStep (s : FileSys) : FsCall → Except Halt FileSys
  | .open_ p oflags namev => Prod.fst <$> doOpen s p oflags namev
  | .close p fd => Prod.fst <$> doClose s p fd
  | .dup p fd => Prod.fst <$> doDup s p fd
  | .dup2 p ofd nfd => Prod.fst <$> doDup2 s p ofd nfd
  | .read p fd nbytes got => Prod.fst <$> doRead s p fd nbytes got
  | .write p fd nbytes put len => Prod.fst <$> doWrite s p fd nbytes put len
  | .lseek p fd offset whence => Prod.fst <$> doLseek s p fd offset whence
  | .getdent p fd got => Prod.fst <$> doGetdent s p fd got
  | .fork p child pid => Prod.fst <$> doFork s p child pid
  | .load p namev w => Prod.fst <$> binfmtLoad s p namev w
  | .exit p => procCleanup s p
  | .reap p => .ok { s with procs := s.procs.erase p, dead := s.dead.erase p }
  | .world vnode pCwd slab => .ok { s with vnode := vnode, pCwd := pCwd, slab := slab }

/-- A process that may make calls. -/
def FileSys.running (s : FileSys) (p : Nat) : Prop := p ∈ s.procs ∧ p ∉ s.dead
deriving Decidable

/-- Running processes call, with descriptors in range, and read something; a child is a `proc_t`
that is not in use, and a process that is reaped has exited. -/
def FsLegal (s : FileSys) : FsCall → Prop
  | .open_ p _ _ | .load p _ _ | .exit p => s.running p
  | .close p fd | .dup p fd | .write p fd _ _ _ | .lseek p fd _ _ | .getdent p fd _ =>
    s.running p ∧ validFd fd
  | .dup2 p ofd nfd => s.running p ∧ validFd ofd ∧ validFd nfd
  | .read p fd nbytes _ => s.running p ∧ validFd fd ∧ nbytes ≠ 0
  | .fork p child _ => s.running p ∧ ∀ c ∈ child, c ∉ s.procs
  | .reap p => p ∈ s.dead
  | .world _ _ _ => True

instance (s : FileSys) (c : FsCall) : Decidable (FsLegal s c) := by
  cases c <;> unfold FsLegal <;> infer_instance

/-- No file is open, in any of the processes there are. -/
def bootFiles (procs : Finset Nat) (vnode : Nat → Vnode) (pCwd : Nat → Option Nat) (slab : Slab) :
    FileSys where
  file := fun _ => ⟨0, 0, 0, none⟩
  allocated := ∅
  slab := slab
  procs := procs
  dead := ∅
  pFiles := fun _ => none
  pCwd := pCwd
  vnode := vnode
  serial := fun _ => 0
  nserial := 0
  log := []

end Weenix.Fs
