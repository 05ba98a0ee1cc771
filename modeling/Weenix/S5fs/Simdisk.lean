/-
# The image tool's view of a disk

`tools/fsmaker/api.py` edits an s5 disk image through a file.  The file is a `Bytes.Mem`, and each
method of `Simdisk`, `Block` and `Inode` is a function on it that returns the new file, or raises.

`struct.pack` raises when a value does not fit, and the classes raise `S5fsException` with a text.
A block or an inode is only a place in the file: the objects of the classes hold no other state.
-/
import Weenix.Lib.Bytes

namespace Weenix.S5fs

open Bytes

/-! ## 1. The format -/

def s5Magic : Nat := 0x727f
def s5CurrentVersion : Nat := 3
def s5BlockSize : Nat := 4096
def s5NblksPerFnode : Nat := 30
def s5NdirectBlocks : Nat := 28
def s5MaxFileBlocks : Nat := s5NdirectBlocks + s5BlockSize / 4
def s5MaxFileSize : Nat := s5MaxFileBlocks * s5BlockSize
def s5NameLen : Nat := 28
def s5DirentSize : Nat := s5NameLen + 4
def s5InodeSize : Nat := 16 + s5NdirectBlocks * 4
def s5InodesPerBlock : Nat := s5BlockSize / s5InodeSize

def s5TypeFree : Nat := 0
def s5TypeData : Nat := 1
def s5TypeDir : Nat := 2
def s5TypeChr : Nat := 4
def s5TypeBlk : Nat := 8

/-- The end of the list of free blocks, and of the list of free inodes. -/
def listEnd : Nat := 0xffffffff

/-- What the tool raises.  `struct` is `struct.error`: a value out of range. -/
inductive ToolError where
  | s5fs (msg : String)
  | diskSpace
  | struct
deriving DecidableEq, Repr

/-- The file. -/
abbrev Simdisk := Mem

/-- Write `val` in `width` bytes, as `struct.pack("I", val)` (4) and `struct.pack("H",
val)` (2) do. -/
def Simdisk.put (d : Simdisk) (offset width val : Nat) : Except ToolError Simdisk :=
  if val < 256 ^ width then .ok (d.write offset (pack width val)) else .error .struct

/-! ## 2. The superblock -/

namespace Simdisk

def setMagic (d : Simdisk) (val : Nat) : Except ToolError Simdisk := d.put 0 4 val
def getFreeInode (d : Simdisk) : Nat := d.word 4
def setFreeInode (d : Simdisk) (val : Nat) : Except ToolError Simdisk := d.put 4 4 val
def getNfree (d : Simdisk) : Nat := d.word 8
def setNfree (d : Simdisk) (val : Nat) : Except ToolError Simdisk := d.put 8 4 val

def freeBlockError (index : Nat) : ToolError :=
  let max := s5NblksPerFnode - 2
  .s5fs s!"free block index {index} greater than max {max}"

def getFreeBlock (d : Simdisk) (index : Nat) : Except ToolError Nat :=
  if index < s5NblksPerFnode - 1 then .ok (d.word (12 + 4 * index))
    else .error (freeBlockError index)

def setFreeBlock (d : Simdisk) (index val : Nat) : Except ToolError Simdisk :=
  if index < s5NblksPerFnode - 1 then d.put (12 + 4 * index) 4 val
    else .error (freeBlockError index)

def getLastFreeBlock (d : Simdisk) : Nat := d.word (12 + 4 * (s5NblksPerFnode - 1))

def setLastFreeBlock (d : Simdisk) (val : Nat) : Except ToolError Simdisk :=
  d.put (12 + 4 * (s5NblksPerFnode - 1)) 4 val

def getNumInodes (d : Simdisk) : Nat := d.word (16 + 4 * s5NblksPerFnode)
def setNumInodes (d : Simdisk) (val : Nat) :
    Except ToolError Simdisk := d.put (16 + 4 * s5NblksPerFnode) 4 val
def setVersion (d : Simdisk) (val : Nat) : Except ToolError Simdisk :=
  d.put (20 + 4 * s5NblksPerFnode) 4 val

end Simdisk

/-! ## 3. Blocks -/

structure Block where
  offset : Nat
  blockno : Nat
deriving DecidableEq, Repr

def getBlock (index : Nat) : Block := ⟨s5BlockSize * index, index⟩

namespace Block

def read (d : Simdisk) (b : Block) (offset size : Nat) : Except ToolError (List UInt8) :=
  let stop := offset + size
  if stop > s5BlockSize
    then .error (.s5fs s!"cannot read to {stop}, exceeds block size of {s5BlockSize}")
  else .ok (Mem.read d (b.offset + offset) size)

def write (d : Simdisk) (b : Block) (offset : Nat) (data : List UInt8) : Except ToolError Simdisk :=
  let stop := offset + data.length
  if stop > s5BlockSize
    then .error (.s5fs s!"cannot write to {stop}, exceeds block size of {s5BlockSize}")
  else .ok (Mem.write d (b.offset + offset) data)

def zero (d : Simdisk) (b : Block) : Simdisk := Mem.write d b.offset (List.replicate s5BlockSize 0)

/-- `struct.unpack("I", block.read(offset, 4))[0]` -/
def readWord (d : Simdisk) (b : Block) (offset : Nat) : Except ToolError Nat := do
  return unpack (← b.read d offset 4)

/-- The superblock's node of the free list, written to a block. -/
def writeFnode (d : Simdisk) (b : Block) : Except ToolError Simdisk := do
  let d ← (List.range (s5NblksPerFnode - 1)).foldlM (fun d i => do
    b.write d (i * 4) (pack 4 (← d.getFreeBlock i))) d
  b.write d ((s5NblksPerFnode - 1) * 4) (pack 4 d.getLastFreeBlock)

def free (d : Simdisk) (b : Block) : Except ToolError Simdisk := do
  if d.getNfree < s5NblksPerFnode - 1 then
    let d ← d.setFreeBlock d.getNfree b.blockno
    d.setNfree (d.getNfree + 1)
  else
    let d ← b.writeFnode d
    let d ← d.setLastFreeBlock b.blockno
    d.setNfree 0

end Block

/-- The superblock's node of the free list, read from a block. -/
def Simdisk.readFnode (d : Simdisk) (block : Block) : Except ToolError Simdisk := do
  let d ← (List.range (s5NblksPerFnode - 1)).foldlM (fun d i => do
    d.setFreeBlock i (← block.readWord d (i * 4))) d
  d.setLastFreeBlock (← block.readWord d ((s5NblksPerFnode - 1) * 4))

def Simdisk.allocBlock (d : Simdisk) : Except ToolError (Simdisk × Block) := do
  let nfree := d.getNfree
  let max := s5NblksPerFnode - 1
  if nfree > max then throw (.s5fs s!"nfree {nfree} is invalid, maximum value is {max}")
  if nfree = 0 then
    if d.getLastFreeBlock = listEnd then throw .diskSpace
    let block := getBlock d.getLastFreeBlock
    let d ← d.readFnode block
    let d ← d.setNfree max
    return (d, block)
  else
    let d ← d.setNfree (nfree - 1)
    return (d, getBlock (← d.getFreeBlock d.getNfree))

/-! ## 4. Inodes -/

structure Inode where
  number : Nat
  offset : Nat
deriving DecidableEq, Repr

namespace Inode

variable (d : Simdisk) (n : Inode)

def getSize : Nat := d.word n.offset
def setSize (val : Nat) : Except ToolError Simdisk := d.put n.offset 4 val
def getNextFree : Nat := n.getSize d
def setNextFree (val : Nat) : Except ToolError Simdisk := n.setSize d val
def getNumber : Nat := d.word (n.offset + 4)
def setNumber (val : Nat) : Except ToolError Simdisk := d.put (n.offset + 4) 4 val
def getType : Nat := unpack (Mem.read d (n.offset + 8) 2)
def setType (val : Nat) : Except ToolError Simdisk := d.put (n.offset + 8) 2 val

/-- `struct.pack("h", ..)`, which is signed. -/
def setLinkCount (val : Int) : Except ToolError Simdisk :=
  if -2 ^ 15 ≤ val ∧ val < 2 ^ 15 then d.put (n.offset + 10) 2 (val % 2 ^ 16).toNat
    else .error .struct

def directError (index : Nat) : ToolError :=
  .s5fs s!"direct block index {index} greater than max {s5NdirectBlocks}"

def getDirectBlockno (index : Nat) : Except ToolError Nat :=
  if index < s5NdirectBlocks then .ok (d.word (n.offset + 12 + index * 4))
    else .error (directError index)

def setDirectBlockno (index val : Nat) : Except ToolError Simdisk :=
  if index < s5NdirectBlocks then d.put (n.offset + 12 + index * 4) 4 val
    else .error (directError index)

def getIndirectBlockno : Nat := d.word (n.offset + 12 + 4 * s5NdirectBlocks)

def setIndirectBlockno (val : Nat) : Except ToolError Simdisk :=
  d.put (n.offset + 12 + 4 * s5NdirectBlocks) 4 val

/-- `"{0:02x}".format(t)` -/
def hex02 (t : Nat) : String :=
  let digits := Nat.toDigits 16 t
  String.ofList (List.replicate (2 - digits.length) '0' ++ digits)

def getTypeStr : String :=
  let t := n.getType d
  let hex := hex02 t
  let name :=
    if t = s5TypeFree then "S5_TYPE_FREE"
    else if t = s5TypeData then "S5_TYPE_DATA"
    else if t = s5TypeDir then "S5_TYPE_DIR"
    else if t = s5TypeBlk then "S5_TYPE_BLK"
    else if t = s5TypeChr then "S5_TYPE_CHR"
    else "INVALID"
  s!"{name} (0x{hex})"

/-- Data and directory inodes have blocks. -/
def hasBlocks : Bool := n.getType d == s5TypeData || n.getType d == s5TypeDir

/-- The block of the file at `blockloc`, 0 if there is none. -/
def blocknoAt (blockloc : Nat) : Except ToolError Nat :=
  if blockloc < s5NdirectBlocks then n.getDirectBlockno d blockloc
  else if n.getIndirectBlockno d = 0 then .ok 0
  else (getBlock (n.getIndirectBlockno d)).readWord d ((blockloc - s5NdirectBlocks) * 4)

/-- The loop of `Inode.read`, with at most `fuel` rounds. -/
def readLoop : Nat → Nat → Nat → Except ToolError (List UInt8)
  | 0, _, _ => .ok []
  | fuel + 1, offset, size =>
    if size = 0 then .ok [] else do
      let blockoff := offset % s5BlockSize
      let ammount := min (s5BlockSize - blockoff) size
      let blockno ← n.blocknoAt d (offset / s5BlockSize)
      let part ← if blockno = 0 then .ok (List.replicate ammount 0)
        else (getBlock blockno).read d blockoff ammount
      return part ++ (← readLoop fuel (offset + ammount) (size - ammount))

/-- `Inode.read`; every round but the last ends at a block, so `size` rounds are enough. -/
def read (offset size : Nat) : Except ToolError (List UInt8) := do
  let typeStr := n.getTypeStr d
  unless n.hasBlocks d do throw (.s5fs s!"cannot read from inode of type {typeStr}")
  let size := min size (min s5MaxFileSize (n.getSize d) - offset)
  n.readLoop d size offset size

/-- The block of the file at `blockloc`, 0 if there is none, after the indirect block was made if
that is missing. -/
def findBlock (blockloc : Nat) : Except ToolError (Simdisk × Nat) :=
  if blockloc < s5NdirectBlocks then do
    pure (d, ← n.getDirectBlockno d blockloc)
  else if n.getIndirectBlockno d = 0 then do
    let (d, indirect) ← d.allocBlock
    let d := indirect.zero d
    pure (← n.setIndirectBlockno d indirect.blockno, 0)
  else do
    pure (d, ← (getBlock (n.getIndirectBlockno d)).readWord d ((blockloc - s5NdirectBlocks) * 4))

/-- A new block where there is none. -/
def attach (n : Inode) (blockloc : Nat) : Simdisk × Nat → Except ToolError (Simdisk × Block)
  | (d, blockno) =>
    if blockno = 0 then do
      let (d, block) ← d.allocBlock
      let d := block.zero d
      if blockloc < s5NdirectBlocks then
        return (← n.setDirectBlockno d blockloc block.blockno, block)
      else
        let indirect := getBlock (n.getIndirectBlockno d)
        return (← indirect.write d ((blockloc - s5NdirectBlocks) * 4) (pack 4 block.blockno), block)
    else return (d, getBlock blockno)

/-- The block of the file at `blockloc`, allocated if there is none. -/
def blockFor (blockloc : Nat) : Except ToolError (Simdisk × Block) := do
  n.attach blockloc (← n.findBlock d blockloc)

/-- The loop of `Inode.write`, with at most `fuel` rounds; `data` is what remains. -/
def writeLoop (n : Inode) : Nat → Simdisk → Nat → List UInt8 → Except ToolError (Simdisk × Nat)
  | 0, d, offset, _ => .ok (d, offset)
  | fuel + 1, d, offset, data =>
    if data = [] then .ok (d, offset) else do
      let blockoff := offset % s5BlockSize
      let ammount := min (s5BlockSize - blockoff) data.length
      let (d, block) ← n.blockFor d (offset / s5BlockSize)
      let d ← block.write d blockoff (data.take ammount)
      n.writeLoop fuel d (offset + ammount) (data.drop ammount)

def write (offset : Nat) (data : List UInt8) : Except ToolError Simdisk := do
  let typeStr := n.getTypeStr d
  unless n.hasBlocks d do throw (.s5fs s!"cannot write to inode of type {typeStr}")
  let stop := offset + data.length
  if stop > s5MaxFileSize then
    throw (.s5fs s!"cannot write up to byte {stop}, max file size is {s5MaxFileSize}")
  let (d, offset) ← n.writeLoop data.length d offset data
  if offset > n.getSize d then n.setSize d offset else return d

/-- The bytes up to the first NUL: `.split('\0', 1)[0]`. -/
def cstr (bytes : List UInt8) : List UInt8 := bytes.takeWhile (· != 0)

/-- `name.ljust(S5_NAME_LEN, '\0')` -/
def ljust (name : List UInt8) : List UInt8 := name ++ List.replicate (s5NameLen - name.length) 0

/-- The scan of `_make_dirent`: the last offset it calls empty, if any. -/
def scanDirents (name : List UInt8) (size : Nat) : Except ToolError (Option Nat) :=
  (List.range (size / s5DirentSize)).foldlM (fun empty k => do
    let i := k * s5DirentSize
    let direntname := cstr (← n.read d (i + 4) s5NameLen)
    if direntname = name then
      throw (.s5fs ("directory already has entry with same name: " ++
        String.ofList (name.map fun b => Char.ofNat b.toNat)))
    return if name.length = 0 then some i else empty) none

def makeDirent (inode : Nat) (name : List UInt8) : Except ToolError Simdisk := do
  let typeStr := n.getTypeStr d
  let size := n.getSize d
  let text := String.ofList (name.map fun b => Char.ofNat b.toNat)
  let limit := s5NameLen - 1
  if n.getType d ≠ s5TypeDir then
    throw (.s5fs s!"cannot create directory entry in non-directory inode of type {typeStr}")
  if size % s5DirentSize ≠ 0 then
    throw (.s5fs s!"cannot create directory entry, inode has size {size} not a multiple of dirent size {s5DirentSize}")
  if name.length ≥ s5NameLen then
    throw (.s5fs s!"directroy entry name '{text}' too long, limit is {limit} characters")
  if inode ≥ 2 ^ 32 then throw .struct
  match ← n.scanDirents d name size with
  | some empty =>
    let d ← n.write d empty (pack 4 inode)
    n.write d (empty + 4) (ljust name)
  | none =>
    let d ← n.write d size (pack 4 inode)
    n.write d (n.getSize d) (ljust name)

end Inode

/-! ## 5. Formatting -/

def Simdisk.getInode (d : Simdisk) (index : Nat) : Except ToolError Inode :=
  let max := d.getNumInodes
  let offset :=
    s5BlockSize * (1 + index / s5InodesPerBlock) + s5InodeSize * (index % s5InodesPerBlock)
  if index ≥ max
    then .error (.s5fs s!"cannot get inode {index}, there are only {max} inodes on disk")
  else .ok ⟨index, offset⟩

def Simdisk.allocInode (d : Simdisk) : Except ToolError (Simdisk × Inode) := do
  if d.getFreeInode = listEnd then throw (.s5fs "disk is out of inodes")
  let inode ← d.getInode d.getFreeInode
  let d ← d.setFreeInode (inode.getNextFree d)
  return (d, inode)

namespace Simdisk

/-- Inode `i` in the list of free inodes. -/
def formatInode (d : Simdisk) (i : Nat) : Except ToolError Simdisk := do
  let inode ← d.getInode i
  let d ← inode.setNumber d i
  let d ← inode.setType d s5TypeFree
  inode.setNextFree d (i + 1)

/-- Block `num` on the list of free blocks; `i` is the number of entries of the
superblock's node. -/
def formatBlock (s : Simdisk × Nat) (num : Nat) : Except ToolError (Simdisk × Nat) := do
  let (d, i) := s
  if i = s5NblksPerFnode - 1 then
    let d ← (getBlock num).writeFnode d
    return (← d.setLastFreeBlock num, 0)
  else return (← d.setFreeBlock i num, i + 1)

def formatRoot (d : Simdisk) : Except ToolError Simdisk := do
  let (d, root) ← d.allocInode
  let d ← (List.range s5NdirectBlocks).foldlM (fun d i => root.setDirectBlockno d i 0) d
  let d ← root.setIndirectBlockno d 0
  let d ← root.setType d s5TypeDir
  let d ← root.setSize d 0
  let d ← root.setLinkCount d 1
  let d ← root.makeDirent d (root.getNumber d) [0x2e]
  let d ← root.makeDirent d (root.getNumber d) [0x2e, 0x2e]
  root.setLinkCount d 1

/-- The blocks that hold the inodes are 1 up to this one. -/
def inodeBlocks (inodes : Nat) : Nat := (inodes - 1) / s5InodesPerBlock + 1

/-- `Simdisk.format`.  What the file held before is of no account. -/
def format (d : Simdisk) (inodes size : Nat) : Except ToolError Simdisk := do
  if inodes < 1
    then throw (.s5fs s!"cannot format disk with {inodes} inodes, must have at least one")
  if size % s5BlockSize ≠ 0 then
    throw (.s5fs s!"cannot format disk to size {size} which is not a multiple of the block size {s5BlockSize}")
  let blocks := size / s5BlockSize
  let iblocks := inodeBlocks inodes
  let least := (1 + iblocks) * s5BlockSize
  if iblocks + 1 ≥ blocks then
    throw (.s5fs s!"cannot format disk of size {size} with {inodes} inodes, the inodes require at least {least} bytes of space")
  let d ← d.setMagic s5Magic
  let d ← d.setVersion s5CurrentVersion
  let d ← d.setNumInodes inodes
  let d ← (List.range inodes).foldlM formatInode d
  let last ← d.getInode (inodes - 1)
  let d ← last.setNextFree d listEnd
  let d ← d.setFreeInode 0
  let d ← d.setLastFreeBlock listEnd
  let (d, i) ← (List.range' iblocks (blocks - iblocks)).foldlM formatBlock (d, 0)
  let d ← d.setNfree i
  d.formatRoot

end Simdisk

end Weenix.S5fs
