/-
# The memory file system (`fs/ramfs/ramfs.c`) and the vnodes on it (`fs/vnode.c`)

`rfs_inodes` is a table of 64 inodes.  A directory keeps its entries in the page of its inode, 128
slots of which those with an empty name are free; `rf_linkcount` counts the entries that name the
inode and the in-memory vnode.  There is one mounted file system, so a vnode is given by its inode
number, and `vn_mode`, which `ramfs_read_vnode` sets from the inode, is read from there.

A function that follows a vnode which is not in memory is `wild`.  Whether `kmalloc` and
`page_alloc` succeed is the argument `room`.  `entered` is a history that no call reads: the last
entry made, with its directory, the name asked for and the inode, as long as no directory was
changed after it.
-/
import Weenix.Fs.File

namespace Weenix.Vfs

open Fs (enotdir sIfchr sIfdir sIfblk sIfreg)

/-! ## 1. Constants -/

def enoent : Int := 2
def eexist : Int := 17
def enospc : Int := 28
def enametoolong : Int := 36
def enotempty : Int := 39

def nameLen : Nat := 28

def ramfsMaxFiles : Nat := 64

/-- `RAMFS_MAX_DIRENT`, the number of `ramfs_dirent_t` in a page -/
def ramfsMaxDirent : Nat := 128

def sizeofRamfsDirent : Int := 32

def pageSize : Int := 4096

/-- `vfs_root_vn`: `ramfs_mount` asserts that the root gets the first inode. -/
def rootIno : Nat := 0

/-! ## 2. The state -/

/-- A name as it is passed between functions: a string and a length, which need not be the length of
the string. -/
structure Name where
  str : List Char
  len : Nat
deriving DecidableEq

def nameMatch (fname : List Char) (name : Name) : Bool :=
  fname.length = name.len ∧ name.str.take name.len = fname

/-- What `strncpy` and the final NUL leave in `rd_name`. -/
def Name.stored (name : Name) : List Char := name.str.take (min name.len (nameLen - 1))

/-- `ramfs_dirent_t` -/
structure Dirent where
  rdIno : Nat
  rdName : List Char
deriving DecidableEq

/-- `rf_mode` together with what `rf_mem` holds for it. -/
inductive RfMem where
  | data (page : Nat → UInt8)
  | dir (entries : List Dirent)
  | chr (devid : Nat)
  | blk (devid : Nat)

/-- `ramfs_inode_t` -/
structure Inode where
  rfSize : Int
  rfMem : RfMem
  rfLinkcount : Int

/-- `vnode_t` -/
structure Vnode where
  vnLen : Int
  vnRefcount : Int
  vnNrespages : Int

structure Ramfs where
  rfsInodes : Nat → Option Inode
  vnode : Nat → Option Vnode
  entered : Option (Nat × Name × Nat)

namespace Ramfs

variable (s : Ramfs) (x d : Nat)

def dirOf : Option (List Dirent) :=
  match s.rfsInodes x with
  | some ⟨_, .dir entries, _⟩ => some entries
  | _ => none

def setInode (inode : Option Inode) : Ramfs :=
  { s with rfsInodes := update s.rfsInodes x inode }

def setVnode (vn : Option Vnode) : Ramfs :=
  { s with vnode := update s.vnode x vn }

/-- The page of a directory is rewritten and `rf_size` moved. -/
def editDir (edit : List Dirent → List Dirent) (grow : Int) (made : Option (Nat × Name × Nat)) :
    Ramfs :=
  match s.rfsInodes d with
  | some ⟨size, .dir entries, n⟩ =>
    { s.setInode d (some ⟨size + grow, .dir (edit entries), n⟩) with entered := made }
  | _ => s

/-- `rf_linkcount += by` -/
def addLink (by_ : Int) : Ramfs :=
  match s.rfsInodes x with
  | some inode => s.setInode x (some { inode with rfLinkcount := inode.rfLinkcount + by_ })
  | none => s

/-- A vnode pointer that is followed. -/
def getVnode : Except Halt Vnode :=
  match s.vnode x with
  | some vn => .ok vn
  | none => .error .wild

/-- `S_ISDIR(vn->vn_mode)` -/
def sIsdir : Except Halt Bool := do
  let _ ← s.getVnode x
  pure (s.dirOf x).isSome

def vnodeToDirent : Except Halt (List Dirent) := do
  let _ ← s.getVnode x
  match s.dirOf x with
  | some entries => .ok entries
  | none => .error .wild

end Ramfs

/-! ## 3. Vnodes -/

section
variable (s : Ramfs)

def vref (x : Nat) : Except Halt Ramfs := do
  let vn ← s.getVnode x
  kassert (0 < vn.vnRefcount) "0 < vn->vn_refcount"
  pure (s.setVnode x (some { vn with vnRefcount := vn.vnRefcount + 1 }))

/-- `vget`, with `ramfs_read_vnode` for a vnode that is not in memory. -/
def vget (x : Nat) : Except Halt Ramfs :=
  match s.vnode x with
  | some _ => vref s x
  | none =>
    match s.rfsInodes x with
    | some inode =>
      .ok ((s.setInode x (some { inode with rfLinkcount := inode.rfLinkcount + 1 })).setVnode x
        (some ⟨inode.rfSize, 1, 0⟩))
    | none => .error (.kassert "inode && inode->rf_ino == vn->vn_vno")

/-- `ramfs_delete_vnode`, and the vnode leaves the list of those in use. -/
def ramfsDeleteVnode (x : Nat) (inode : Inode) : Ramfs :=
  let s := s.setVnode x none
  if inode.rfLinkcount - 1 = 0 then s.setInode x none
  else s.setInode x (some { inode with rfLinkcount := inode.rfLinkcount - 1 })

def vput (x : Nat) : Except Halt Ramfs := do
  let vn ← s.getVnode x
  kassert (0 ≤ vn.vnNrespages) "0 <= vn->vn_nrespages"
  kassert (vn.vnNrespages < vn.vnRefcount) "vn->vn_nrespages < vn->vn_refcount"
  match s.rfsInodes x with
  | none => .error .wild
  | some inode =>
    -- every page that is freed takes one off both counts; `ramfs_query_vnode` is the second test
    let vn := if vn.vnNrespages = vn.vnRefcount - 1 ∧ ¬ 1 < inode.rfLinkcount then
        { vn with vnRefcount := vn.vnRefcount - vn.vnNrespages, vnNrespages := 0 }
      else vn
    if 0 < vn.vnRefcount - 1 then
      pure (s.setVnode x (some { vn with vnRefcount := vn.vnRefcount - 1 }))
    else do
      kassert (vn.vnNrespages = 0) "0 == vn->vn_nrespages"
      pure (ramfsDeleteVnode s x inode)

/-! ## 4. Operations on directories -/

def ramfsLookup (dir : Nat) (name : Name) : Except Halt (Except Int Nat × Ramfs) := do
  let entries ← s.vnodeToDirent dir
  match entries.find? fun e => nameMatch e.rdName name with
  | some e => do
    let s ← vget s e.rdIno
    pure (.ok e.rdIno, s)
  | none => pure (.error (-enoent), s)

/-- How the four operations that make an entry begin: the name must not be there, and a free slot is
looked for.  A lookup that finds nothing changes nothing. -/
def findRoom (dir : Nat) (name : Name) : Except Halt (Option Nat) := do
  let r ← ramfsLookup s dir name
  kassert (!r.1.isOk) "0 != ramfs_lookup(dir, name, name_len, &vn)"
  let entries ← s.vnodeToDirent dir
  pure (entries.findIdx? fun e => e.rdName = [])

/-- `ramfs_alloc_inode`, for the type that goes with `mem` -/
def ramfsAllocInode (mem : RfMem) (room : Bool) : Except Int Nat × Ramfs :=
  match (List.range ramfsMaxFiles).find? fun i => (s.rfsInodes i).isNone with
  | some i =>
    if room then (.ok i, { s.setInode i (some ⟨0, mem, 1⟩) with entered := none })
    else (.error (-enospc), s)
  | none => (.error (-enospc), s)

/-- Slot `i` of the directory gets the entry. -/
def setEntry (dir i ino : Nat) (name : Name) : Ramfs :=
  s.editDir dir (fun es => es.set i ⟨ino, name.stored⟩) sizeofRamfsDirent (some (dir, name, ino))

/-- The first slot that matches is freed. -/
def clearSlot (name : Name) (entries : List Dirent) : List Dirent :=
  match entries.findIdx? fun e => nameMatch e.rdName name with
  | some i => entries.modify i fun e => { e with rdName := [] }
  | none => entries

def clearEntry (dir : Nat) (name : Name) : Ramfs :=
  s.editDir dir (clearSlot name) (-sizeofRamfsDirent) none

def zeroPage : RfMem := .data fun _ => 0

def blankDir : List Dirent := List.replicate ramfsMaxDirent ⟨0, []⟩

/-- The slots of a new directory, with '.' and '..' in the first two. -/
def dottedDir (ino parent : Nat) : List Dirent :=
  ⟨ino, ['.']⟩ :: ⟨parent, ['.', '.']⟩ :: List.replicate (ramfsMaxDirent - 2) ⟨0, []⟩

def ramfsCreate (dir : Nat) (name : Name) (room : Bool) : Except Halt (Except Int Nat × Ramfs) := do
  match ← findRoom s dir name with
  | none => pure (.error (-enospc), s)
  | some i =>
    match ramfsAllocInode s zeroPage room with
    | (.error e, s) => pure (.error e, s)
    | (.ok ino, s) => do
      let s ← vget s ino
      pure (.ok ino, setEntry s dir i ino name)

/-- `S_ISCHR(mode)` and `S_ISBLK(mode)` -/
def sIschr (mode : Nat) : Bool := mode &&& 0xff00 = sIfchr
def sIsblk (mode : Nat) : Bool := mode &&& 0xff00 = sIfblk

def ramfsMknod (dir : Nat) (name : Name) (mode devid : Nat) (room : Bool) :
    Except Halt (Int × Ramfs) := do
  match ← findRoom s dir name with
  | none => pure (-enospc, s)
  | some i =>
    if sIschr mode || sIsblk mode then
      match ramfsAllocInode s (if sIschr mode then .chr devid else .blk devid) room with
      | (.error e, s) => pure (e, s)
      | (.ok ino, s) => pure (0, setEntry s dir i ino name)
    else .error (.panic "Invalid mode!\n")

def ramfsLink (old dir : Nat) (name : Name) : Except Halt (Int × Ramfs) := do
  match ← findRoom s dir name with
  | none => pure (-enospc, s)
  | some i => do
    let _ ← s.getVnode old
    pure (0, (setEntry s dir i old name).addLink old 1)

def ramfsMkdir (dir : Nat) (name : Name) (room : Bool) : Except Halt (Int × Ramfs) := do
  match ← findRoom s dir name with
  | none => pure (-enospc, s)
  | some i =>
    match ramfsAllocInode s (.dir blankDir) room with
    | (.error e, s) => pure (e, s)
    | (.ok ino, s) =>
      pure (0, (setEntry s dir i ino name).setInode ino (some ⟨2 * sizeofRamfsDirent,
        .dir (dottedDir ino dir), 1⟩))

/-- The end of `ramfs_unlink` and `ramfs_rmdir`: the entry goes, the link and the reference that the
lookup took. -/
def removeEntry (dir : Nat) (name : Name) (vn : Nat) : Except Halt Ramfs :=
  vput ((clearEntry s dir name).addLink vn (-1)) vn

def ramfsUnlink (dir : Nat) (name : Name) : Except Halt (Int × Ramfs) := do
  match ← ramfsLookup s dir name with
  | (.error _, _) => .error (.kassert "0 == ret")
  | (.ok vn, s) => do
    kassert (!(← s.sIsdir vn)) "!S_ISDIR(vn->vn_mode)"
    pure (0, ← removeEntry s dir name vn)

/-- An entry other than '.' and '..' -/
def Dirent.named (e : Dirent) : Bool := e.rdName ≠ [] ∧ e.rdName ≠ ['.'] ∧ e.rdName ≠ ['.', '.']

def ramfsRmdir (dir : Nat) (name : Name) : Except Halt (Int × Ramfs) := do
  kassert (!nameMatch ['.'] name && !nameMatch ['.', '.'] name)
    "!name_match(\".\", name, name_len) && !name_match(\"..\", name, name_len)"
  match ← ramfsLookup s dir name with
  | (.error e, s) => pure (e, s)
  | (.ok vn, s) => do
    if ← s.sIsdir vn then
      if (← s.vnodeToDirent vn).any Dirent.named then
        pure (-enotempty, ← vput s vn)
      else
        pure (0, ← removeEntry s dir name vn)
    else
      pure (-enotdir, ← vput s vn)

/-! ## 5. Operations on files -/

/-- `VNODE_TO_RAMFSINODE` of a regular file, which is what the two operations are called on. -/
def fileOf (file : Nat) : Except Halt (Int × (Nat → UInt8) × Int) := do
  let _ ← s.getVnode file
  kassert (!(s.dirOf file).isSome) "!S_ISDIR(file->vn_mode)"
  match s.rfsInodes file with
  | some ⟨size, .data page, n⟩ => pure (size, page, n)
  | _ => .error .wild

/-- `ramfs_read`: the bytes that are copied to the buffer; their number is returned.  `count` is
cast to an `off_t`. -/
def ramfsRead (file offset count : Nat) : Except Halt (List UInt8) := do
  let (size, page, _) ← fileOf s file
  pure ((List.range (max 0 (min (Fs.wrap32 count) (size - offset))).toNat).map fun k =>
    page (offset + k))

/-- `ramfs_write`.  A negative length is passed to `memcpy` as a large one. -/
def ramfsWrite (file offset : Nat) (buf : List UInt8) : Except Halt (Int × Ramfs) := do
  let (size, page, n) ← fileOf s file
  let ret := min (Fs.wrap32 buf.length) (pageSize - offset)
  if ret < 0 then .error .wild
  else do
    let vn ← s.getVnode file
    kassert (vn.vnLen = size) "file->vn_len == inode->rf_size"
    let len := max vn.vnLen (offset + ret)
    let page := fun k => if offset ≤ k ∧ (k : Int) < offset + ret
      then buf.getD (k - offset) 0 else page k
    pure (ret, (s.setInode file (some ⟨len, .data page, n⟩)).setVnode file
      (some { vn with vnLen := len }))

/-- `struct stat`, the part `ramfs_stat` fills in from the inode -/
structure Stat where
  stMode : Nat
  stIno : Nat
  stRdev : Nat
  stNlink : Int
  stSize : Int

/-- The mode `ramfs_read_vnode` gives a vnode. -/
def RfMem.mode : RfMem → Nat
  | .data _ => sIfreg
  | .dir _ => sIfdir
  | .chr _ => sIfchr
  | .blk _ => sIfblk

def ramfsStat (file : Nat) : Except Halt Stat := do
  let _ ← s.getVnode file
  match s.rfsInodes file with
  | some inode =>
    let rdev := match inode.rfMem with
      | .chr devid | .blk devid => devid
      | _ => 0
    pure ⟨inode.rfMem.mode, file, rdev, inode.rfLinkcount - 1, inode.rfSize⟩
  | none => .error .wild

end

/-! ## 6. The mounted file system and its operations as steps -/

/-- `ramfs_mount`: the root directory, and its vnode with one reference. -/
def ramfsMount : Ramfs where
  rfsInodes := fun x =>
    if x = rootIno then some ⟨2 * sizeofRamfsDirent, .dir (dottedDir rootIno rootIno), 2⟩ else none
  vnode := fun x => if x = rootIno then some ⟨2 * sizeofRamfsDirent, 1, 0⟩ else none
  entered := none

inductive RamfsOp where
  | vref (x : Nat)
  | vget (x : Nat)
  | vput (x : Nat)
  | lookup (dir : Nat) (name : Name)
  | create (dir : Nat) (name : Name) (room : Bool)
  | mknod (dir : Nat) (name : Name) (mode devid : Nat) (room : Bool)
  | link (old dir : Nat) (name : Name)
  | unlink (dir : Nat) (name : Name)
  | mkdir (dir : Nat) (name : Name) (room : Bool)
  | rmdir (dir : Nat) (name : Name)
  | read (file offset count : Nat)
  | write (file offset : Nat) (buf : List UInt8)

def ramfsStep (s : Ramfs) : RamfsOp → Except Halt Ramfs
  | .vref x => vref s x
  | .vget x => vget s x
  | .vput x => vput s x
  | .lookup dir name => Prod.snd <$> ramfsLookup s dir name
  | .create dir name room => Prod.snd <$> ramfsCreate s dir name room
  | .mknod dir name mode devid room => Prod.snd <$> ramfsMknod s dir name mode devid room
  | .link old dir name => Prod.snd <$> ramfsLink s old dir name
  | .unlink dir name => Prod.snd <$> ramfsUnlink s dir name
  | .mkdir dir name room => Prod.snd <$> ramfsMkdir s dir name room
  | .rmdir dir name => Prod.snd <$> ramfsRmdir s dir name
  | .read file offset count => (fun _ => s) <$> ramfsRead s file offset count
  | .write file offset buf => Prod.snd <$> ramfsWrite s file offset buf

/-- The final component of a path as `dir_namev` returns it: its length, or -1 as a `size_t` for a
path of slashes only. -/
def Name.Final (name : Name) : Prop :=
  name.len = if name.str = [] then 2 ^ 32 - 1 else name.str.length
deriving Decidable

/-- How the VFS layer calls the operations that change a directory. -/
def ramfsLegal (_ : Ramfs) : RamfsOp → Prop
  | .create _ name _ | .mknod _ name _ _ _ | .link _ _ name | .unlink _ name | .mkdir _ name _
  | .rmdir _ name => name.Final
  | _ => True

instance (s : Ramfs) : ∀ op, Decidable (ramfsLegal s op)
  | .create _ name _ | .mknod _ name _ _ _ | .link _ _ name | .unlink _ name | .mkdir _ name _
  | .rmdir _ name => inferInstanceAs (Decidable name.Final)
  | .vref _ | .vget _ | .vput _ | .lookup .. | .read .. | .write .. =>
    inferInstanceAs (Decidable True)

end Weenix.Vfs
