/-
# Paths and the calls on them (`fs/namev.c`, `fs/open.c`, `fs/vfs_syscall.c`)

A call takes the vnode of the working directory in place of `curproc`.  `dir_namev` writes into the
caller's buffer: it overwrites the slashes at the end of the path, and what `do_rmdir` and
`do_rename` read afterwards is that buffer, `Path.after`.  A path that is made of slashes only is
cut past its beginning, up to the bytes in front of the buffer, which are `before`.

What the rest of the kernel answers comes with the call: whether memory is to be had (`room`), a
free descriptor, a `file_t`, whether a device exists.
-/
import Mathlib.Data.List.DropRight
import Weenix.Fs.Ramfs

namespace Weenix.Vfs

open Fs (enotdir einval eisdir enxio emfile enomem oRdonly oWronly oRdwr oCreat oAppend)

/-! ## 1. Paths -/

def strMax : Nat := 32

def maxpathlen : Nat := 1024

/-- A string in a buffer, and the bytes in front of it, the nearest first. -/
structure Path where
  text : List Char
  before : List Char
deriving DecidableEq

/-- The text between runs of slashes.  Only a run at the very beginning gives an empty piece. -/
def pieces (acc : List Char) : List Char → List (List Char)
  | [] => [acc.reverse]
  | c :: cs =>
    if c = '/' then
      if cs.head? = some '/' then pieces acc cs else acc.reverse :: pieces [] cs
    else pieces (c :: acc) cs

namespace Path

variable (path : Path)

/-- What is cut into pieces: one slash is skipped at the beginning, and all those at the end are
overwritten. -/
def rest : List Char :=
  (if path.text.head? = some '/' then path.text.tail else path.text).rdropWhile (· = '/')

def dirs : List (List Char) := (pieces [] path.rest).dropLast

/-- `*name` and `*namelen` -/
def name : Name :=
  if path.text = ['/'] then ⟨['.'], 1⟩
  else
    let last := (pieces [] path.rest).getLastD []
    ⟨last, if last = [] then 2 ^ 32 - 1 else last.length⟩

/-- The buffer after `dir_namev` has returned 0. -/
def after : Path :=
  if path.text = ['/'] then path else { path with text := path.text.rdropWhile (· = '/') }

end Path

/-! ## 2. Lookup -/

section
variable (s : Ramfs) (cwd : Nat)

def lookup (dir : Nat) (name : Name) : Except Halt (Except Int Nat × Ramfs) := do
  if ← s.sIsdir dir then
    if strMax < name.len then pure (.error (-enametoolong), s)
    else ramfsLookup s dir name
  else pure (.error (-enotdir), s)

/-- The loop of `dir_namev`. -/
def walk (s : Ramfs) (cur : Nat) : List (List Char) → Except Halt (Except Int Nat × Ramfs)
  | [] => do
    if ← s.sIsdir cur then pure (.ok cur, s)
    else pure (.error (-enotdir), ← vput s cur)
  | c :: cs => do
    if ← s.sIsdir cur then
      match ← lookup s cur ⟨c, c.length⟩ with
      | (.ok next, s) => do walk (← vput s cur) next cs
      | (.error e, s) => do pure (.error e, ← vput s cur)
    else pure (.error (-enotdir), ← vput s cur)

/-- `dir_namev`, with the directory as its result; `*name` and `*namelen` are `path.name`. -/
def dirNamev (path : Path) : Except Halt (Except Int Nat × Ramfs) :=
  if path.text = [] then pure (.error (-einval), s)
  else if maxpathlen < path.text.length then pure (.error (-enametoolong), s)
  else do
    let s ← vref s cwd
    if path.text.head? = some '/' then do
      let s ← vref (← vput s cwd) rootIno
      if path.text = ['/'] then pure (.ok rootIno, s)
      -- a byte in front of the buffer is overwritten
      else if path.rest = [] ∧ path.before.head? = some '/' then .error .wild
      else walk s rootIno path.dirs
    else walk s cwd path.dirs

def openNamev (path : Path) (flag : BitVec 32) (room : Bool) :
    Except Halt (Except Int Nat × Ramfs) := do
  match ← dirNamev s cwd path with
  | (.error e, s) => pure (.error e, s)
  | (.ok dir, s) => do
    if ← s.sIsdir dir then
      match ← lookup s dir path.name with
      | (.ok x, s) => do pure (.ok x, ← vput s dir)
      | (.error e, s) => do
        if e = -enoent ∧ flag &&& oCreat ≠ 0 then do
          let (r, s) ← ramfsCreate s dir path.name room
          pure (r, ← vput s dir)
        else pure (.error e, ← vput s dir)
    else pure (.error (-enotdir), ← vput s dir)

/-! ## 3. The calls -/

def doMknod (path : Path) (mode devid : Nat) (room : Bool) : Except Halt (Int × Ramfs) :=
  if !(sIschr mode || sIsblk mode) then pure (-einval, s)
  else if maxpathlen < path.text.length then pure (-enametoolong, s)
  else do
    match ← dirNamev s cwd path with
    | (.error e, s) => pure (e, s)
    | (.ok dir, s) => do
      match ← lookup s dir path.name with
      | (.ok _, s) => do pure (-eexist, ← vput s dir)
      | (.error e, s) => do
        kassert (← s.sIsdir dir) "NULL != dir_vnode->vn_ops->mknod"
        if e = -enoent then do
          let (r, s) ← ramfsMknod s dir path.name mode devid room
          pure (r, ← vput s dir)
        else pure (e, ← vput s dir)

def doMkdir (path : Path) (room : Bool) : Except Halt (Int × Ramfs) :=
  if maxpathlen < path.text.length then pure (-enametoolong, s)
  else do
    match ← dirNamev s cwd path with
    | (.error e, s) => pure (e, s)
    | (.ok dir, s) => do
      if nameLen < path.name.str.length then pure (-enametoolong, ← vput s dir)
      else
        match ← lookup s dir path.name with
        | (.ok x, s) => do pure (-eexist, ← vput (← vput s x) dir)
        | (.error _, s) => do
          kassert (← s.sIsdir dir) "NULL != pVnode->vn_ops->mkdir"
          let (r, s) ← ramfsMkdir s dir path.name room
          pure (r, ← vput s dir)

/-- `do_rmdir`.  When `dir_namev` fails, the pointer it was to set is compared with `NULL` first;
`null` says what was left in it. -/
def doRmdir (path : Path) (null : Bool) : Except Halt (Int × Ramfs) :=
  if maxpathlen < path.text.length then pure (-enametoolong, s)
  else do
    match ← dirNamev s cwd path with
    | (.error e, s) => pure (if null then -enoent else e, s)
    | (.ok dir, s) => do
      let bytes := path.after.text.reverse ++ path.before
      if bytes.head? = some '.' then
        if bytes.tail.head? = some '.' then pure (-enotempty, ← vput s dir)
        else pure (-einval, ← vput s dir)
      else if ← s.sIsdir dir then do
        let (r, s) ← ramfsRmdir s dir path.name
        pure (r, ← vput s dir)
      else pure (-enotdir, ← vput s dir)

def doUnlink (path : Path) : Except Halt (Int × Ramfs) :=
  if maxpathlen < path.text.length then pure (-enametoolong, s)
  else do
    match ← dirNamev s cwd path with
    | (.error e, s) => pure (e, s)
    | (.ok dir, s) => do
      if nameLen < path.name.str.length then pure (-enametoolong, ← vput s dir)
      else
        match ← lookup s dir path.name with
        | (.error e, s) => do pure (e, ← vput s dir)
        | (.ok x, s) => do
          if ← s.sIsdir x then pure (-eisdir, ← vput (← vput s dir) x)
          else do
            kassert (← s.sIsdir dir) "NULL != pVnode->vn_ops->unlink"
            let (r, s) ← ramfsUnlink s dir path.name
            pure (r, ← vput (← vput s dir) x)

def doLink (source target : Path) : Except Halt (Int × Ramfs) :=
  if maxpathlen < source.text.length ∨ maxpathlen < target.text.length then pure (-enametoolong, s)
  else if target.text = [] ∨ source.text = [] then pure (-einval, s)
  else do
    match ← openNamev s cwd source 0 false with
    | (.error e, s) => pure (e, s)
    | (.ok old, s) => do
      match ← dirNamev s cwd target with
      | (.error e, s) => do pure (e, ← vput s old)
      | (.ok dir, s) => do
        if nameLen < target.name.str.length then pure (-enametoolong, ← vput (← vput s old) dir)
        else
          match ← lookup s dir target.name with
          | (.ok x, s) => do pure (-eexist, ← vput (← vput (← vput s old) dir) x)
          | (.error _, s) => do
            if ← s.sIsdir dir then do
              let (r, s) ← ramfsLink s old dir target.name
              pure (r, ← vput (← vput s old) dir)
            else pure (-enotdir, ← vput (← vput s old) dir)

def doRename (oldname newname : Path) : Except Halt (Int × Ramfs) := do
  let (r, s) ← doLink s cwd oldname newname
  if r ≠ 0 then pure (r, s) else doUnlink s cwd oldname.after

/-- `do_stat`, with what is written to the buffer.  `temp_res_vnode->vn_ops` is read after the vnode
was put; only `ramfs_stat` can be there. -/
def doStat (path : Path) : Except Halt ((Int × Option Stat) × Ramfs) :=
  if maxpathlen < path.text.length then pure ((-enametoolong, none), s)
  else if path.text = [] then pure ((-einval, none), s)
  else do
    match ← dirNamev s cwd path with
    | (.error e, s) => pure ((e, none), s)
    | (.ok dir, s) => do
      if ← s.sIsdir dir then
        match ← lookup s dir path.name with
        | (.error e, s) => do pure ((e, none), ← vput s dir)
        | (.ok x, s) => do
          let s ← vput s dir
          let buf ← ramfsStat s x
          pure ((0, some buf), ← vput s x)
      else pure ((-enotdir, none), ← vput s dir)

/-- `do_chdir`, with the new working directory if there is one. -/
def doChdir (path : Path) : Except Halt ((Int × Option Nat) × Ramfs) :=
  if maxpathlen < path.text.length then pure ((-enametoolong, none), s)
  else do
    match ← openNamev s cwd path 0 false with
    | (.error e, s) => pure ((e, none), s)
    | (.ok x, s) => do
      if ← s.sIsdir x then pure ((0, some x), ← vput s cwd)
      else pure ((-enotdir, none), ← vput s x)

/-- What `do_open` finds: a free descriptor, a `file_t`, memory for a new file, the device. -/
structure OpenEnv where
  fd : Option Nat
  file : Option Nat
  room : Bool
  device : Bool

/-- For the test of `oflags`. -/
local instance lawfulFlags : LawfulBEq (BitVec 32) := inferInstance

/-- `do_open`, with the `file_t` and the vnode that is stored in it. -/
def doOpen (path : Path) (oflags : BitVec 32) (env : OpenEnv) :
    Except Halt ((Int × Option (Nat × Nat)) × Ramfs) :=
  if oflags ∉ [oRdonly, oWronly, oRdwr, oAppend, oRdonly ||| oCreat, oRdwr ||| oCreat,
      oRdwr ||| oAppend] then pure ((-einval, none), s)
  else
    match env.fd, env.file with
    | none, _ => pure ((-emfile, none), s)
    | some _, none => pure ((-enomem, none), s)
    | some fd, some f => do
      match ← openNamev s cwd path oflags env.room with
      | (.error e, s) => pure ((e, none), s)
      | (.ok x, s) => do
        if (← s.sIsdir x) ∧ (oflags &&& oWronly ≠ 0 ∨ oflags &&& oRdwr ≠ 0) then
          pure ((-eisdir, none), ← vput s x)
        else
          match s.rfsInodes x with
          | some ⟨_, .chr _, _⟩ | some ⟨_, .blk _, _⟩ => do
            if env.device then pure (((fd : Int), some (f, x)), s)
            else pure ((-enxio, none), ← vput s x)
          | _ => pure (((fd : Int), some (f, x)), s)

end

/-! ## 4. Processes and open files -/

/-- The file system, the working directories of the processes and the vnodes of the open files. -/
structure VfsSys where
  ram : Ramfs
  procs : Finset Nat
  pCwd : Nat → Option Nat
  files : Finset Nat
  fVnode : Nat → Option Nat

inductive VfsCall where
  /-- `kmain.c` gives the first processes the root as their working directory -/
  | start (p : Nat)
  | fork (p child : Nat)
  | exit (p : Nat)
  | open (p : Nat) (path : Path) (oflags : BitVec 32) (env : OpenEnv)
  /-- The last reference to a `file_t` is dropped. -/
  | close (f : Nat)
  | mknod (p : Nat) (path : Path) (mode devid : Nat) (room : Bool)
  | mkdir (p : Nat) (path : Path) (room : Bool)
  | rmdir (p : Nat) (path : Path) (null : Bool)
  | unlink (p : Nat) (path : Path)
  | link (p : Nat) (source target : Path)
  | rename (p : Nat) (oldname newname : Path)
  | chdir (p : Nat) (path : Path)
  | stat (p : Nat) (path : Path)
  /-- `pframe_alloc` and `pframe_free` for a page of a vnode -/
  | cachePage (x : Nat)
  | freePage (x : Nat)

namespace VfsSys

variable (s : VfsSys)

/-- `curproc->p_cwd` -/
def cwd (p : Nat) : Except Halt Nat :=
  match s.pCwd p with
  | some x => .ok x
  | none => .error .wild

/-- The file system as a call finds it: the call has made no entry yet. -/
def found : Ramfs := { s.ram with entered := none }

/-- A call that changes the file system only. -/
def onRam (p : Nat) (call : Ramfs → Nat → Except Halt (Int × Ramfs)) :
    Except Halt (Int × VfsSys) := do
  let x ← s.cwd p
  let (r, ram) ← call s.found x
  pure (r, { s with ram := ram })

end VfsSys

def vfsCall (s : VfsSys) : VfsCall → Except Halt (Int × VfsSys)
  | .start p => do
    let ram ← vref s.found rootIno
    pure (0, { s with
      ram := ram, procs := insert p s.procs, pCwd := update s.pCwd p (some rootIno) })
  | .fork p child => do
    let x ← s.cwd p
    let ram ← vref s.found x
    pure (0, { s with
      ram := ram, procs := insert child s.procs, pCwd := update s.pCwd child (some x) })
  | .exit p => do
    let x ← s.cwd p
    let ram ← vput s.found x
    pure (0, { s with
      ram := ram, procs := s.procs.erase p, pCwd := update s.pCwd p none })
  | .open p path oflags env => do
    let x ← s.cwd p
    let ((r, opened), ram) ← doOpen s.found x path oflags env
    match opened with
    | some (f, vn) => pure (r, { s with
        ram := ram, files := insert f s.files, fVnode := update s.fVnode f (some vn) })
    | none => pure (r, { s with ram := ram })
  | .close f =>
    match s.fVnode f with
    | some x => do
      let ram ← vput s.found x
      pure (0, { s with
        ram := ram, files := s.files.erase f, fVnode := update s.fVnode f none })
    | none => .error .wild
  | .mknod p path mode devid room => s.onRam p fun ram x => doMknod ram x path mode devid room
  | .mkdir p path room => s.onRam p fun ram x => doMkdir ram x path room
  | .rmdir p path null => s.onRam p fun ram x => doRmdir ram x path null
  | .unlink p path => s.onRam p fun ram x => doUnlink ram x path
  | .link p source target => s.onRam p fun ram x => doLink ram x source target
  | .rename p oldname newname => s.onRam p fun ram x => doRename ram x oldname newname
  | .chdir p path => do
    let x ← s.cwd p
    let ((r, new), ram) ← doChdir s.found x path
    match new with
    | some y => pure (r, { s with ram := ram, pCwd := update s.pCwd p (some y) })
    | none => pure (r, { s with ram := ram })
  | .stat p path => s.onRam p fun ram x =>
      (fun r => (r.1.1, r.2)) <$> doStat ram x path
  | .cachePage x => do
    let ram ← vref s.found x
    let vn ← ram.getVnode x
    pure (0, { s with
      ram := ram.setVnode x (some { vn with vnNrespages := vn.vnNrespages + 1 }) })
  | .freePage x => do
    let vn ← s.found.getVnode x
    let ram ← vput (s.found.setVnode x (some { vn with vnNrespages := vn.vnNrespages - 1 })) x
    pure (0, { s with ram := ram })

def vfsStep (s : VfsSys) (call : VfsCall) : Except Halt VfsSys := Prod.snd <$> vfsCall s call

/-- Who may call: a process that runs; a process, a child and a `file_t` that begin are new; a page
that is freed is resident. -/
def vfsLegal (s : VfsSys) : VfsCall → Prop
  | .start p => p ∉ s.procs
  | .fork p child => p ∈ s.procs ∧ child ∉ s.procs
  | .open p _ _ env => p ∈ s.procs ∧ ∀ f ∈ env.file, f ∉ s.files
  | .close f => f ∈ s.files
  | .exit p | .mknod p _ _ _ _ | .mkdir p _ _ | .rmdir p _ _ | .unlink p _ | .link p _ _
  | .rename p _ _ | .chdir p _ | .stat p _ => p ∈ s.procs
  | .cachePage _ => True
  | .freePage x => ∀ vn ∈ s.ram.vnode x, 0 < vn.vnNrespages

instance (s : VfsSys) : ∀ call, Decidable (vfsLegal s call)
  | .start p => inferInstanceAs (Decidable (p ∉ s.procs))
  | .fork p child => inferInstanceAs (Decidable (p ∈ s.procs ∧ child ∉ s.procs))
  | .open p _ _ env => inferInstanceAs (Decidable (p ∈ s.procs ∧ ∀ f ∈ env.file, f ∉ s.files))
  | .close f => inferInstanceAs (Decidable (f ∈ s.files))
  | .exit p | .mknod p _ _ _ _ | .mkdir p _ _ | .rmdir p _ _ | .unlink p _ | .link p _ _
  | .rename p _ _ | .chdir p _ | .stat p _ => inferInstanceAs (Decidable (p ∈ s.procs))
  | .cachePage _ => inferInstanceAs (Decidable True)
  | .freePage x => inferInstanceAs (Decidable (∀ vn ∈ s.ram.vnode x, 0 < vn.vnNrespages))

/-- The file system is mounted; no process runs. -/
def vfsBoot : VfsSys where
  ram := ramfsMount
  procs := ∅
  pCwd := fun _ => none
  files := ∅
  fVnode := fun _ => none

end Weenix.Vfs
