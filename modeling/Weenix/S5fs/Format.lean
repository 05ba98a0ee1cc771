/-
# A formatted image

`Simdisk.format` is to leave four kinds of blocks: the superblock, the blocks of the inodes, the
blocks of the root directory, and the free ones, all apart and together the disk (`Partitioned`).
The inodes are in blocks 1 up to `iblocks`, and the loop that frees blocks starts at `iblocks`: the
last block of inodes is on the free list of every image the tool makes (`format_frees_last_inodes`).
 The rest is right: without that block the list would be as it should.

The proof follows the calls of `format`.

* The loop over the blocks frees each of them as `Block.free` would, with the number of entries kept
  in a variable until the end (`formatBlock_spec`, `formatBlocks_spec`).
* Making the root directory takes one block off the list, the last one that was put on it
  (`Root.write`, `formatRoot_spec`).
-/
import Mathlib.Data.List.Nodup
import Weenix.Lib.Yields
import Weenix.S5fs.FreeList

namespace Weenix.S5fs

open Bytes Bytes.Mem List Simdisk Inode

variable {name : List UInt8} {b i inodes lo n offset val width : Nat} {d : Simdisk}

/-! ## 1. What an image should be -/

/-- The blocks of a file: those that hold its data, and its indirect block. -/
def Inode.blocks (d : Simdisk) (n : Inode) : List Nat :=
  let direct := (List.range s5NdirectBlocks).map fun i => d.word (n.offset + 12 + i * 4)
  let blockno := n.getIndirectBlockno d
  let indirect := if blockno = 0 then []
    else blockno :: (List.range (s5BlockSize / 4)).map fun i =>
      d.word (s5BlockSize * blockno + i * 4)
  (direct ++ indirect).filter (· ≠ 0)

/-- The blocks of the root directory, the first inode that `format` takes. -/
def rootBlocks (d : Simdisk) : List Nat :=
  match d.getInode 0 with
  | .ok n => n.blocks d
  | .error _ => []

/-- The blocks in which `get_inode` finds inodes 0 to `inodes - 1`. -/
def blocksOfInodes (d : Simdisk) (inodes : Nat) : List Nat :=
  (List.range inodes).filterMap fun i => (d.getInode i).toOption.map fun n => n.offset / s5BlockSize

/-- With `st` as the free blocks, every block has exactly one use. -/
structure PartitionedBy (d : Simdisk) (inodes blocks : Nat) (st : List Nat) : Prop where
  nodup : st.Nodup
  free : ∀ b ∈ st, b ≠ 0 ∧ b ∉ rootBlocks d ∧ b ∉ blocksOfInodes d inodes
  root : ∀ b ∈ rootBlocks d, b ≠ 0 ∧ b ∉ blocksOfInodes d inodes
  inode : 0 ∉ blocksOfInodes d inodes
  all : ∀ b, b < blocks ↔ b = 0 ∨ b ∈ st ∨ b ∈ rootBlocks d ∨ b ∈ blocksOfInodes d inodes

def Partitioned (d : Simdisk) (inodes blocks : Nat) : Prop :=
  ∃ st, FreeStack d st ∧ PartitionedBy d inodes blocks st

/-! ## 2. The list of a range of blocks -/

/-- The `n` blocks from `lo` on, freed in this order. -/
def freeRange (lo n : Nat) : List Nat := (List.range' lo n).reverse

theorem freeRange_succ (lo n : Nat) : freeRange lo (n + 1) = (lo + n) :: freeRange lo n := by
  rw [freeRange, range'_1_concat, reverse_append]
  rfl

@[simp] theorem mem_freeRange : b ∈ freeRange lo n ↔ lo ≤ b ∧ b < lo + n := by
  rw [freeRange, mem_reverse, mem_range'_1]

theorem nodup_freeRange (lo n : Nat) : (freeRange lo n).Nodup :=
  nodup_reverse.mpr nodup_range'

/-- A block of the list has as many below it as its place says. -/
theorem length_below {below : List Nat} (h : b :: below <:+ freeRange lo n) :
    b = lo + below.length ∧ below.length < n := by
  induction n with
  | zero => exact absurd (suffix_nil.mp h) (cons_ne_nil _ _)
  | succ n ih =>
    rw [freeRange_succ] at h
    obtain heq | hsuf := suffix_cons_iff.mp h
    · obtain ⟨rfl, rfl⟩ := cons.inj heq
      have hlen : (freeRange lo n).length = n := by rw [freeRange, length_reverse, length_range']
      exact ⟨by rw [hlen], by rw [hlen]; exact Nat.lt_succ_self n⟩
    · obtain ⟨hb, hlt⟩ := ih hsuf
      exact ⟨hb, Nat.lt_succ_of_lt hlt⟩

/-- The list is in the superblock and in blocks from the thirtieth of the range on. -/
theorem FreeStack.frame {d d' : Mem} (h : FreeStack d (freeRange lo n))
    (hsuper : ∀ x, 8 ≤ x → x < 132 → d' x = d x)
    (hnodes : ∀ x, 4096 * (lo + 29) ≤ x → x < 4096 * (lo + n) → d' x = d x) :
    FreeStack d' (freeRange lo n) := by
  refine h.congr hsuper fun b below hsuf hlen x hle hlt => ?_
  obtain ⟨rfl, hplace⟩ := length_below hsuf
  exact hnodes x (by omega) (by omega)

/-! ## 3. The loop over the blocks -/

section
variable {d : Simdisk} {i num lo k inodes : Nat}

theorem put_yields {v : Nat} :
    Yields (d.put offset 4 v) fun t => v < 2 ^ 32 ∧ t = d.setWord offset v :=
  .ite (fun h => .ok ⟨h, rfl⟩) fun _ => .error _

theorem formatBlock_entry (hi : i < 29) (hnum : num < 2 ^ 32) :
    formatBlock (d, i) num = .ok (d.setWord (12 + 4 * i) num, i + 1) := by
  rw [formatBlock, if_neg (show ¬ i = s5NblksPerFnode - 1 from hi.ne), setFreeBlock_eq hi hnum]
  rfl

theorem formatBlock_node (hnum : num < 2 ^ 32) :
    formatBlock (d, 29) num = .ok ((copy (4096 * num) 12 120 d).setWord 128 num, 0) := by
  rw [formatBlock, if_pos (show 29 = s5NblksPerFnode - 1 from rfl), writeFnode_eq, ok_bind,
    setLastFreeBlock, put_eq hnum]
  rfl

theorem formatBlock_yields_lt (hi : i ≤ 29) :
    Yields (formatBlock (d, i) num) fun _ => num < 2 ^ 32 := by
  intro t ht
  by_contra hnum
  have hput : ∀ (d : Simdisk) (offset : Nat), d.put offset 4 num = .error .struct :=
    fun d offset => if_neg hnum
  obtain rfl | hlt := Nat.eq_or_lt_of_le hi
  · rw [formatBlock, if_pos (show 29 = s5NblksPerFnode - 1 from rfl), writeFnode_eq, ok_bind,
      setLastFreeBlock, hput] at ht
    cases ht
  · rw [formatBlock, if_neg (show ¬ i = s5NblksPerFnode - 1 from hlt.ne),
      setFreeBlock, if_pos (show i < s5NblksPerFnode - 1 from hlt), hput] at ht
    cases ht

/-- In the loop: the list is the one that the entries up to now make. -/
structure Formatting (inodes : Nat) (st : List Nat) (s : Simdisk × Nat) : Prop where
  freeInode : s.1.word 4 = 0
  numInodes : s.1.word 136 = inodes
  le : s.2 ≤ 29
  stack : FreeStack (s.1.setWord 8 s.2) st

/-- A round puts its block on the list.  Only the block with the number of the list's end, if it is
to be a node, ends the list. -/
theorem formatBlock_spec {st : List Nat} {s : Simdisk × Nat} (h : Formatting inodes st s)
    (h0 : num ≠ 0)
    (hnew : num ∉ st) :
    Yields (formatBlock s num) fun t =>
      Formatting inodes (num :: st) t ∨ (num = listEnd ∧ Formatting inodes [] t) := by
  obtain ⟨d, i⟩ := s
  intro t ht
  have hnum := formatBlock_yields_lt h.le t ht
  have hnfree : (d.setWord 8 i).word 8 = i :=
    word_setWord (by have := h.le; dsimp only at this; omega)
  obtain rfl | hlt := Nat.eq_or_lt_of_le h.le
  · rw [formatBlock_node hnum] at ht
    cases ht
    have hfreeInode : ((copy (4096 * num) 12 120 d).setWord 128 num).word 4 = 0 := by
      rw [word_setWord_of_disjoint (by decide), word_copy (by omega)]
      exact h.freeInode
    have hnumInodes : ((copy (4096 * num) 12 120 d).setWord 128 num).word 136 = inodes := by
      rw [word_setWord_of_disjoint (by decide), word_copy (by omega)]
      exact h.numInodes
    have heq : ((copy (4096 * num) 12 120 d).setWord 128 num).setWord 8 0
        = ((copy (4096 * num) 12 120 (d.setWord 8 29)).setWord 8 0).setWord 128 num := by
      rw [copy_setWord (by omega) (by omega), setWord_setWord, setWord_comm (by decide)]
    obtain rfl | hend := eq_or_ne num listEnd
    · refine .inr ⟨rfl, hfreeInode, hnumInodes, Nat.zero_le _, ?_⟩
      dsimp only
      refine .of_end (word_setWord (by decide)) ?_
      rw [word_setWord_of_disjoint (by decide), word_setWord (by decide)]
    · refine .inl ⟨hfreeInode, hnumInodes, Nat.zero_le _, ?_⟩
      rw [heq]
      have hlt : num < listEnd := Nat.lt_of_le_of_ne (Nat.le_of_lt_succ hnum) hend
      exact h.stack.push_node hnfree hlt h0 hnew
  · rw [formatBlock_entry hlt hnum] at ht
    cases ht
    refine .inl ⟨?_, ?_, hlt, ?_⟩
    · rw [word_setWord_of_disjoint (by omega)]
      exact h.freeInode
    · rw [word_setWord_of_disjoint (by omega)]
      exact h.numInodes
    · have hpush := h.stack.push_entry (by dsimp only; omega) hnum h0
      rw [hnfree, setWord_comm (by omega), setWord_setWord] at hpush
      rwa [setWord_comm (by omega)]

/-- The loop, from a superblock whose list is empty.  A list that was ended stays so: there is no
number after that of the list's end. -/
theorem formatBlocks_spec (h : Formatting inodes [] (d, 0)) (hlo : 1 ≤ lo) :
    Yields ((List.range' lo n).foldlM formatBlock (d, 0)) fun s =>
      Formatting inodes (freeRange lo n) s ∨ (Formatting inodes [] s ∧ listEnd < lo + n) := by
  refine Yields.foldlM_range' (I := fun k s =>
    Formatting inodes (freeRange lo k) s ∨ (Formatting inodes [] s ∧ listEnd < lo + k)) (.inl h) ?_
  rintro k - s (hs | ⟨hs, hend⟩)
  · have hnew : lo + k ∉ freeRange lo k := fun hmem => lt_irrefl _ (mem_freeRange.mp hmem).2
    refine (formatBlock_spec hs (by omega) hnew).imp fun t ht => ?_
    rw [freeRange_succ]
    exact ht.imp_right fun ⟨heq, ht⟩ => ⟨ht, by omega⟩
  · have hbig : 2 ^ 32 ≤ lo + k := hend
    exact (formatBlock_yields_lt hs.le).imp fun _ hlt => absurd hlt hbig.not_gt

end

/-! ## 4. The root directory -/

/-- Allocation writes only to the superblock's node. -/
theorem allocBlock_frame (x : Nat) (hx : x < 8 ∨ 132 ≤ x) :
    Yields d.allocBlock fun r => r.1 x = d x := by
  intro r hr
  obtain hbig | hle := lt_or_ge 29 (d.word 8)
  · rw [allocBlock, if_pos (show getNfree d > s5NblksPerFnode - 1 from hbig)] at hr
    cases hr
  obtain hzero | hpos := eq_or_ne (d.word 8) 0
  · obtain hend | hlast := eq_or_ne (d.word 128) listEnd
    · rw [allocBlock_end hzero hend] at hr
      cases hr
    · rw [allocBlock_node hzero hlast] at hr
      cases hr
      dsimp only
      rw [setWord_of_not_mem (by omega), copy_of_not_mem (by omega)]
  · rw [allocBlock_entry hpos hle] at hr
    cases hr
    exact setWord_of_not_mem (by omega)

/-- The first inode. -/
def root : Inode := ⟨0, 4096⟩

/-- The image while the root directory is made: what is on the list, and `c` as the directory's only
block, 0 for none. -/
structure Root (inodes : Nat) (st : List Nat) (c : Nat) (d : Simdisk) : Prop where
  numInodes : d.word 136 = inodes
  stack : FreeStack d st
  direct : ∀ i < 28, d.word (4108 + 4 * i) = if i = 0 then c else 0
  indirect : d.word 4220 = 0

section
variable {d d' : Simdisk} {inodes lo m n c offset : Nat} {data : List UInt8}

/-- What is written to the fields before the block numbers. -/
theorem Root.header (h : Root inodes (freeRange lo m) c d)
    (hsame : ∀ x, x < 4096 ∨ 4108 ≤ x → d' x = d x) : Root inodes (freeRange lo m) c d' := by
  have hword : ∀ a, a + 4 ≤ 4096 ∨ 4108 ≤ a → d'.word a = d.word a := fun a ha =>
    word_congr fun x hle hlt => hsame x (by omega)
  refine ⟨?_, ?_, fun i hi => ?_, ?_⟩
  · rw [hword 136 (by decide), h.numInodes]
  · exact h.stack.frame (fun x _ hlt => hsame x (by omega)) fun x hle _ => hsame x (by omega)
  · rw [hword _ (by omega), h.direct i hi]
  · rw [hword _ (by decide), h.indirect]

theorem blockFor_zero (d : Simdisk) : root.blockFor d 0 = if d.word 4108 = 0 then do
      let (d, block) ← d.allocBlock
      let d ← (block.zero d).put 4108 4 block.blockno
      return (d, block) else .ok (d, getBlock (d.word 4108)) := by
  have hdirect : 0 < s5NdirectBlocks := by decide
  simp only [blockFor, findBlock, Inode.attach, getDirectBlockno, if_pos hdirect, ok_bind, pure_bind]
  rfl

/-- What fits in the first block is written there in one round. -/
theorem writeLoop_one (hpos : 0 < data.length) (hfit : offset + data.length ≤ 4096) :
    root.writeLoop data.length d offset data = (do
      let (d, block) ← root.blockFor d 0
      let d ← block.write d offset data
      return (d, offset + data.length)) := by
  have hne : data ≠ [] := ne_nil_of_length_pos hpos
  have hoff : offset % s5BlockSize = offset := Nat.mod_eq_of_lt (show offset < 4096 by omega)
  have hdiv : offset / s5BlockSize = 0 := Nat.div_eq_of_lt (show offset < 4096 by omega)
  have hamount : min (s5BlockSize - offset) data.length = data.length :=
    Nat.min_eq_right (show data.length ≤ 4096 - offset by omega)
  obtain ⟨len, hlen⟩ : ∃ len, data.length = len + 1 := ⟨_, (Nat.succ_pred_eq_of_pos hpos).symm⟩
  have hnil : ∀ fuel (d : Simdisk) o, root.writeLoop fuel d o [] = .ok (d, o) := by
    intro fuel d o
    cases fuel with
    | zero => rfl
    | succ fuel => rw [writeLoop, if_pos rfl]
  rw [hlen, writeLoop, if_neg hne]
  simp only [hoff, hdiv, hamount, take_length, drop_length, hnil]
  rw [hlen]
  rfl

/-- The directory gets its block: what is on top of the list, with zeroes in it. -/
theorem Root.gainBlock {t : Simdisk} (h : Root inodes (freeRange lo m) 0 d)
    (ht : FreeStack t (freeRange lo n))
    (hframe : ∀ x, x < 8 ∨ 132 ≤ x → t x = d x) (hn : 2 ≤ lo + n) (hbound : lo + n < 2 ^ 32) :
    Root inodes (freeRange lo n) (lo + n) (Mem.setWord ((getBlock (lo + n)).zero t) 4108 (lo + n)) ∧
      (Mem.setWord ((getBlock (lo + n)).zero t) 4108 (lo + n)).word 4096 = d.word 4096 := by
  generalize hu : Mem.setWord ((getBlock (lo + n)).zero t) 4108 (lo + n) = u
  have hzero : ∀ x < 4096 * (lo + n), (getBlock (lo + n)).zero t x = t x := fun x hx =>
    write_of_not_mem (.inl hx)
  have hsame : ∀ x < 4096 * (lo + n), x < 4108 ∨ 4112 ≤ x → u x = t x := by
    intro x hlt hx
    rw [← hu, setWord_of_not_mem hx, hzero x hlt]
  have hword : ∀ a, a + 4 ≤ 4096 * 2 → 132 ≤ a → a + 4 ≤ 4108 ∨ 4112 ≤ a → u.word a = d.word a := by
    intro a hlt hle ha
    refine word_congr fun x hx hx' => ?_
    rw [hsame x (by omega) (by omega), hframe x (by omega)]
  refine ⟨⟨?_, ?_, fun i hi => ?_, ?_⟩, ?_⟩
  · rw [hword 136 (by decide) (by decide) (by decide), h.numInodes]
  · exact ht.frame (fun x _ hlt => hsame x (by omega) (by omega)) fun x hle hlt =>
      hsame x hlt (by omega)
  · cases i with
    | zero => rw [← hu, if_pos rfl, word_setWord hbound]
    | succ i => rw [hword _ (by omega) (by omega) (by omega), h.direct _ hi, if_neg (by omega),
      if_neg (by omega)]
  · rw [hword _ (by decide) (by decide) (by decide), h.indirect]
  · exact hword _ (by decide) (by decide) (by decide)

/-- Data in the directory's block touches nothing else. -/
theorem Root.writeBlock (h : Root inodes (freeRange lo n) (lo + n) d) (hn : 2 ≤ lo + n) :
    Yields ((getBlock (lo + n)).write d offset data) fun t =>
      Root inodes (freeRange lo n) (lo + n) t ∧ t.word 4096 = d.word 4096 := by
  refine .ite (fun _ => .error _) fun _ => .ok ?_
  generalize ht : Mem.write d ((getBlock (lo + n)).offset + offset) data = t
  have hsame : ∀ x < 4096 * (lo + n), t x = d x := by
    intro x hx
    rw [← ht]
    exact write_of_not_mem (.inl (hx.trans_le (Nat.le_add_right ..)))
  have hword : ∀ a, a + 4 ≤ 4096 * 2 → t.word a = d.word a := fun a ha =>
    word_congr fun x _ hx => hsame x (by omega)
  refine ⟨⟨?_, ?_, fun i hi => ?_, ?_⟩, hword _ (by decide)⟩
  · rw [hword _ (by decide), h.numInodes]
  · exact h.stack.frame (fun x _ hlt => hsame x (by omega)) fun x _ hlt => hsame x hlt
  · rw [hword _ (by omega), h.direct i hi]
  · rw [hword _ (by decide), h.indirect]

/-- An entry goes to the directory's end: with a name that is not empty the scan finds no
free slot. -/
theorem scanDirents_none (d : Simdisk) (size : Nat) (hname : name ≠ []) :
    Yields (root.scanDirents d name size) (· = none) := by
  refine .foldlM (I := (· = none)) rfl fun slot hslot k _ => ?_
  refine .seq fun text => .ite (fun _ => .error _) fun _ => .pure ?_
  rw [if_neg (fun hlen => hname (eq_nil_of_length_eq_zero hlen)), hslot]

section
variable (h : Root inodes (freeRange lo m) c d)
  (hc : (c = 0 ∧ (m = 0 ∨ m = n + 1)) ∨ (c = lo + n ∧ m = n))
  (hn : 2 ≤ lo + n)
include h hc hn

/-- The directory's block, which is taken from the list if there is none yet. -/
theorem Root.blockFor : Yields (root.blockFor d 0) fun r => Root inodes (freeRange lo n)
    (lo + n) r.1 ∧
      r.2 = getBlock (lo + n) ∧ r.1.word 4096 = d.word 4096 := by
  have hdirect : d.word 4108 = c := h.direct 0 (by decide)
  rw [blockFor_zero, hdirect]
  obtain ⟨rfl, rfl | rfl⟩ | ⟨rfl, rfl⟩ := hc
  · rw [if_pos rfl, h.stack.pop_empty]
    exact .error _
  · have hstack := h.stack
    rw [freeRange_succ] at hstack
    obtain ⟨t, halloc, ht⟩ := hstack.pop
    have hframe : ∀ x, x < 8 ∨ 132 ≤ x → t x = d x := fun x hx => allocBlock_frame x hx _ halloc
    rw [if_pos rfl, halloc, ok_bind]
    refine Yields.bind put_yields fun u hu => ?_
    obtain ⟨hbound, rfl⟩ := hu
    obtain ⟨hroot, hsize⟩ := h.gainBlock ht hframe hn hbound
    exact .ok ⟨hroot, rfl, hsize⟩
  · rw [if_neg (by omega)]
    exact .ok ⟨h, rfl, rfl⟩

/-- **Writing to the directory.**  The first write takes the block that is on top of the list. -/
theorem Root.write (hpos : 0 < data.length) (hfit : offset + data.length ≤ 4096)
    (hsize : d.word 4096 = offset) :
    Yields (root.write d offset data) fun t =>
      Root inodes (freeRange lo n) (lo + n) t ∧ t.word 4096 = offset + data.length := by
  refine .ite (fun _ => ?_) fun _ => .error _
  refine .ite (fun _ => .error _) fun _ => ?_
  rw [writeLoop_one hpos hfit]
  refine .bind (Q := fun r : Simdisk × Nat => Root inodes (freeRange lo n) (lo + n) r.1 ∧
    r.1.word 4096 = offset ∧ r.2 = offset + data.length) ?_ ?_
  · refine .bind (h.blockFor hc hn) ?_
    rintro ⟨t, block⟩ ⟨ht, rfl, hkeep⟩
    refine .bind (ht.writeBlock hn) fun u hu => .ok ⟨hu.1, ?_, rfl⟩
    rw [hu.2, hkeep, hsize]
  · rintro ⟨t, o⟩ ⟨ht, hold, rfl⟩
    have hgrow : offset + data.length > getSize t root := by
      rw [show getSize t root = offset from hold]
      exact Nat.lt_add_of_pos_right hpos
    dsimp only
    rw [if_pos hgrow]
    refine put_yields.imp ?_
    rintro u ⟨hlt, rfl⟩
    exact ⟨ht.header fun x hx => setWord_of_not_mem (by change x < 4096 ∨ 4096 + 4 ≤ x; omega),
      word_setWord hlt⟩

theorem Root.makeDirent {size inode : Nat} (hname : name ≠ []) (hfit : size + 32 ≤ 4096)
    (hsize : d.word 4096 = size) :
    Yields (root.makeDirent d inode name) fun t =>
      Root inodes (freeRange lo n) (lo + n) t ∧ t.word 4096 = size + 32 := by
  refine .ite (fun _ => .error _) fun _ => .ite (fun _ => .error _) fun _ => ?_
  refine .ite (fun _ => .error _) fun hlen => .ite (fun _ => .error _) fun _ => ?_
  refine .bind (scanDirents_none d _ hname) ?_
  rintro _ rfl
  have hljust : (ljust name).length = 28 := by
    rw [ljust, length_append, length_replicate]
    exact Nat.add_sub_cancel' (Nat.le_of_not_le hlen)
  have hfirst : Yields (root.write d size (pack 4 inode)) _ :=
    h.write hc hn (Nat.succ_pos _) (by rw [length_pack]; omega) hsize
  rw [show getSize d root = size from hsize]
  refine .bind hfirst ?_
  rintro t ⟨ht, hsize'⟩
  rw [length_pack] at hsize'
  rw [show getSize t root = size + 4 from hsize']
  have hsecond : Yields (root.write t (size + 4) (ljust name)) _ :=
    ht.write (.inr ⟨rfl, rfl⟩) hn (by omega) (by omega) hsize'
  rwa [hljust] at hsecond

end

theorem allocInode_spec (hfree : d.word 4 = 0) :
    Yields d.allocInode fun r => r.2 = root ∧ ∀ x, 8 ≤ x → r.1 x = d x := by
  unfold allocInode
  rw [show getFreeInode d = 0 from hfree]
  refine .ite (fun _ => .error _) fun _ => ?_
  refine .bind (Q := (· = root)) (.ite (fun _ => .error _) fun _ => .ok rfl) ?_
  rintro _ rfl
  refine .bind put_yields ?_
  rintro t ⟨-, rfl⟩
  exact .ok ⟨rfl, fun x hx => setWord_of_not_mem (.inr hx)⟩

theorem clearDirect_yields (d : Simdisk) :
    Yields ((List.range s5NdirectBlocks).foldlM (fun d i => root.setDirectBlockno d i 0) d) fun t =>
      (∀ x, x < 4108 ∨ 4220 ≤ x → t x = d x) ∧ ∀ i < 28, t.word (4108 + 4 * i) = 0 := by
  rw [show s5NdirectBlocks = 28 from rfl, range_eq_range']
  refine .foldlM_range' (I := fun (k : Nat) (t : Simdisk) =>
    (∀ x, x < 4108 ∨ 4220 ≤ x → t x = d x) ∧ ∀ i < k, t.word (4108 + 4 * i) = 0)
    ⟨fun _ _ => rfl, nofun⟩ ?_
  rintro k hk t ⟨hsame, hzero⟩
  refine .ite (fun _ => put_yields.imp ?_) fun _ => .error _
  rintro u ⟨-, rfl⟩
  change (∀ x, x < 4108 ∨ 4220 ≤ x → Mem.setWord t (4108 + (0 + k) * 4) 0 x = d x) ∧
    ∀ i < k + 1, (Mem.setWord t (4108 + (0 + k) * 4) 0).word (4108 + 4 * i) = 0
  refine ⟨fun x hx => ?_, fun i hi => ?_⟩
  · rw [setWord_of_not_mem (by omega), hsame x hx]
  · obtain rfl | hne := eq_or_ne i k
    · rw [show 4108 + (0 + i) * 4 = 4108 + 4 * i by omega, word_setWord (by decide)]
    · rw [word_setWord_of_disjoint (by omega), hzero i (by omega)]

theorem clearBlocks_spec (hnum : d.word 136 = inodes) (hstack : FreeStack d (freeRange lo m)) :
    Yields (do
      let d ← (List.range s5NdirectBlocks).foldlM (fun d i => root.setDirectBlockno d i 0) d
      root.setIndirectBlockno d 0) (Root inodes (freeRange lo m) 0) := by
  refine .bind (clearDirect_yields d) ?_
  rintro t ⟨hsame, hzero⟩
  refine put_yields.imp ?_
  rintro u ⟨-, rfl⟩
  change Root inodes (freeRange lo m) 0 (Mem.setWord t 4220 0)
  have hsame' : ∀ x, x < 4108 ∨ 4224 ≤ x → Mem.setWord t 4220 0 x = d x := by
    intro x hx
    rw [setWord_of_not_mem (by omega), hsame x (by omega)]
  refine ⟨?_, ?_, fun i hi => ?_, word_setWord (by decide)⟩
  · rw [word_congr fun x _ hx => hsame' x (by omega), hnum]
  · exact hstack.frame (fun x _ hlt => hsame' x (by omega)) fun x hle _ => hsame' x (by omega)
  · rw [word_setWord_of_disjoint (by omega), hzero i hi, ite_self]

theorem Root.put (h : Root inodes (freeRange lo m) c d) (hle : 4096 ≤ offset)
    (hlt : offset + width ≤ 4108) :
    Yields (d.put offset width val) fun t => Root inodes (freeRange lo m) c t ∧
      (4100 ≤ offset → t.word 4096 = d.word 4096) := by
  refine .ite (fun _ => .ok ?_) fun _ => .error _
  have hsame : ∀ x, x < offset ∨ offset + width ≤ x → Mem.write d offset (pack width val) x = d x :=
    fun x hx => write_of_not_mem (by rwa [length_pack])
  exact ⟨h.header fun x hx => hsame x (by omega),
    fun hoff => word_congr fun x _ hx => hsame x (by omega)⟩

theorem Root.setLinkCount {val : Int} (h : Root inodes (freeRange lo m) c d) :
    Yields (root.setLinkCount d val) fun t => Root inodes (freeRange lo m) c t ∧
      t.word 4096 = d.word 4096 :=
  .ite (fun _ => (h.put (by decide) (by decide)).imp fun _ ht => ⟨ht.1, ht.2 (by decide)⟩) fun _ =>
    .error _

/-- **The root directory** takes the last block that was put on the list. -/
theorem formatRoot_spec (hfree : d.word 4 = 0) (hnum : d.word 136 = inodes)
    (hstack : FreeStack d (freeRange lo m)) (hm : m = 0 ∨ m = n + 1) (hn : 2 ≤ lo + n) :
    Yields d.formatRoot (Root inodes (freeRange lo n) (lo + n)) := by
  refine .bind (allocInode_spec hfree) ?_
  rintro ⟨d, _⟩ ⟨rfl, hsame⟩
  have hnum' : d.word 136 = inodes := by
    rw [word_congr fun x hx _ => hsame x (by omega), hnum]
  have hclear := clearBlocks_spec hnum' (hstack.frame (fun x hle _ => hsame x hle) fun x hle _ =>
    hsame x (by omega))
  dsimp only
  rw [← bind_assoc]
  refine .bind hclear fun d hroot => ?_
  refine .bind (hroot.put (by decide) (by decide)) fun d hd => ?_
  -- root.set_size(0)
  refine .bind (Q := fun t => Root inodes (freeRange lo m) 0 t ∧ t.word 4096 = 0) ?_ ?_
  · refine ((hd.1.put (by decide) (by decide)).and put_yields).imp ?_
    rintro t ⟨ht, -, rfl⟩
    exact ⟨ht.1, word_setWord (by decide)⟩
  rintro d ⟨hroot, hsize⟩
  refine .bind hroot.setLinkCount fun d hd => ?_
  refine .bind (hd.1.makeDirent (.inl ⟨rfl, hm⟩) hn (by decide) (by decide) (hd.2.trans hsize))
    fun d hd => ?_
  refine .bind (hd.1.makeDirent (.inr ⟨rfl, rfl⟩) hn (by decide) (by decide) hd.2) fun d hd => ?_
  exact hd.1.setLinkCount.imp fun t ht => ht.1

end

/-! ## 5. The image -/

theorem getInode_eq (h : i < d.word 136) :
    d.getInode i = .ok ⟨i,
      s5BlockSize * (1 + i / s5InodesPerBlock) + s5InodeSize * (i % s5InodesPerBlock)⟩ :=
  if_neg (Nat.not_le.mpr h)

theorem getInode_yields (d : Simdisk) (i : Nat) :
    Yields (d.getInode i) fun n => 4096 ≤ n.offset := by
  refine .ite (fun _ => .error _) fun _ => .ok ?_
  change 4096 ≤ 4096 * (1 + i / 32) + 128 * (i % 32)
  omega

/-- A field of an inode is not in the superblock. -/
theorem put_inode (hle : 4096 ≤ offset)
    (h : d.word 136 = inodes) : Yields (d.put offset width val) fun t => t.word 136 = inodes := by
  refine .ite (fun _ => .ok ?_) fun _ => .error _
  rw [word_write_of_disjoint (.inl (by omega)), h]

theorem formatInode_spec (h : d.word 136 = inodes) :
    Yields (d.formatInode i) fun t => t.word 136 = inodes := by
  refine .bind (getInode_yields d i) fun n hn => ?_
  refine .bind (put_inode (by omega) h) fun d hd => ?_
  exact .bind (put_inode (by omega) hd) fun d hd => put_inode hn hd

/-- The number of inodes, and of free blocks, of an image that is accepted. -/
theorem format_spec (d : Simdisk) (inodes size : Nat) :
    Yields (d.format inodes size) fun img => ∃ n, 1 ≤ inodes ∧ 1 ≤ n ∧
      size / s5BlockSize = inodeBlocks inodes + n + 1 ∧
      Root inodes (freeRange (inodeBlocks inodes) n)
      (inodeBlocks inodes + n) img := by
  refine .ite (fun _ => .error _) fun hinodes => .ite (fun _ => .error _) fun _ => ?_
  refine .ite (fun _ => .error _) fun hroom => ?_
  have hlo : 1 ≤ inodeBlocks inodes := Nat.le_add_left ..
  generalize inodeBlocks inodes = lo at hroom hlo ⊢
  obtain ⟨n, hblocks⟩ : ∃ n, size / s5BlockSize = lo + n + 1 :=
    ⟨size / s5BlockSize - lo - 1, by omega⟩
  rw [hblocks, show lo + n + 1 - lo = n + 1 by omega]
  refine .seq fun d => .seq fun d => .bind (Q := fun t => t.word 136 = inodes) ?_ fun d hd => ?_
  · refine put_yields.imp ?_
    rintro t ⟨hlt, rfl⟩
    exact word_setWord hlt
  refine .bind (.foldlM (I := fun t : Simdisk => t.word 136 = inodes) hd fun d hd i _ =>
    formatInode_spec hd) fun d hd => ?_
  refine .bind (getInode_yields d _) fun last hlast => ?_
  rw [setNextFree, setSize]
  refine .bind (put_inode hlast hd) fun d hd => ?_
  -- before the loop over the blocks: the list is empty, and inode 0 is free
  refine .bind put_yields ?_
  rintro _ ⟨-, rfl⟩
  refine .bind put_yields ?_
  rintro _ ⟨-, rfl⟩
  have hstart : Formatting inodes [] ((d.setWord 4 0).setWord 128 listEnd, 0) := by
    refine ⟨?_, ?_, Nat.zero_le _, .of_end (word_setWord (show 0 < 2 ^ 32 by decide)) ?_⟩
    · rw [word_setWord_of_disjoint (by decide), word_setWord (by decide)]
    · rw [word_setWord_of_disjoint (by decide), word_setWord_of_disjoint (by decide), hd]
    · rw [word_setWord_of_disjoint (by decide), word_setWord (by decide)]
  have hfinish : ∀ m (s : Simdisk × Nat), Formatting inodes (freeRange lo m) s →
    (m = 0 ∨ m = n + 1) →
      Yields (s.1.setNfree s.2 >>= fun d => d.formatRoot)
        (Root inodes (freeRange lo n) (lo + n)) := by
    intro m s hs hm
    refine .bind put_yields ?_
    rintro _ ⟨-, rfl⟩
    refine formatRoot_spec ?_ ?_ hs.stack hm (by omega)
    · rw [word_setWord_of_disjoint (by decide), hs.freeInode]
    · rw [word_setWord_of_disjoint (by decide), hs.numInodes]
  refine .bind (formatBlocks_spec hstart hlo) fun s hs => ?_
  have hend : Yields (s.1.setNfree s.2 >>= fun d => d.formatRoot)
      (Root inodes (freeRange lo n) (lo + n)) := by
    obtain hs | ⟨hs, -⟩ := hs
    · exact hfinish _ s hs (.inr rfl)
    · exact hfinish 0 s hs (.inl rfl)
  exact hend.imp fun img himg => ⟨n, by omega, by omega, rfl, himg⟩

section
variable {img : Simdisk} {inodes n lo c : Nat} {st : List Nat}

theorem mem_blocksOfInodes (h : img.word 136 = inodes) (hpos : 1 ≤ inodes) :
    b ∈ blocksOfInodes img inodes ↔ 1 ≤ b ∧ b ≤ inodeBlocks inodes := by
  have hplace : ∀ i < inodes,
      ((img.getInode i).toOption.map fun n => n.offset / s5BlockSize) = some (1 + i / 32) := by
    intro i hi
    rw [getInode_eq (h ▸ hi)]
    change some ((4096 * (1 + i / 32) + 128 * (i % 32)) / 4096) = _
    congr 1
    omega
  rw [blocksOfInodes, mem_filterMap, show inodeBlocks inodes = (inodes - 1) / 32 + 1 from rfl]
  constructor
  · rintro ⟨i, hi, heq⟩
    rw [hplace i (mem_range.mp hi)] at heq
    cases heq
    have hi := mem_range.mp hi
    omega
  · rintro ⟨hle, hb⟩
    -- the first inode of the block
    have hi : (b - 1) * 32 < inodes := by omega
    refine ⟨(b - 1) * 32, mem_range.mpr hi, ?_⟩
    rw [hplace _ hi]
    congr 1
    omega

theorem Root.rootBlocks (h : Root inodes st c img) (hpos : 1 ≤ inodes) (hc : c ≠ 0) :
    rootBlocks img = [c] := by
  have hinode : img.getInode 0 = .ok root := getInode_eq (h.numInodes ▸ hpos)
  have hdirect :
      ((range 28).map fun i => img.word (root.offset + 12 + i * 4)) = c :: replicate 27 0 := by
    refine ext_getElem (by simp) fun i hi _ => ?_
    rw [length_map, length_range] at hi
    rw [getElem_map, getElem_range, show root.offset + 12 + i * 4 = 4108 + 4 * i by
      simp only [root]; omega, h.direct i hi]
    cases i with
    | zero => rfl
    | succ i => rw [if_neg (by omega), getElem_cons_succ, getElem_replicate]
  have hindirect : getIndirectBlockno img root = 0 := h.indirect
  rw [S5fs.rootBlocks, hinode]
  simp only [blocks, show s5NdirectBlocks = 28 from rfl, hdirect, hindirect]
  simp [hc]

end

/-- **Every formatted image has its last block of inodes on the free list.**  Without that block the
list would be right: the free blocks, the root directory's block, the blocks of the inodes and the
superblock would be apart and together all the blocks of the disk. -/
theorem format_frees_last_inodes (d : Simdisk) (inodes size : Nat) (img : Simdisk)
    (h : d.format inodes size = .ok img) :
    inodeBlocks inodes ∈ blocksOfInodes img inodes ∧
      (∃ st, FreeStack img (st ++ [inodeBlocks inodes]) ∧
        PartitionedBy img inodes (size / s5BlockSize) st) ∧
      ¬ Partitioned img inodes (size / s5BlockSize) := by
  obtain ⟨n, hinodes, hn, hblocks, hroot⟩ := format_spec d inodes size img h
  have hmem : ∀ b, b ∈ blocksOfInodes img inodes ↔ 1 ≤ b ∧ b ≤ inodeBlocks inodes :=
    fun b => mem_blocksOfInodes hroot.numInodes hinodes
  have hrootBlocks := hroot.rootBlocks hinodes (by omega)
  have hlo : 1 ≤ inodeBlocks inodes := Nat.le_add_left ..
  have hstack := hroot.stack
  generalize inodeBlocks inodes = lo at *
  obtain ⟨k, rfl⟩ : ∃ k, n = k + 1 := ⟨n - 1, by omega⟩
  have hsplit : freeRange lo (k + 1) = freeRange (lo + 1) k ++ [lo] := by
    rw [freeRange, range'_succ, reverse_cons, freeRange]
  have hlast : lo ∈ blocksOfInodes img inodes := (hmem lo).mpr ⟨hlo, le_rfl⟩
  refine ⟨hlast, ⟨freeRange (lo + 1) k, hsplit ▸ hstack, ?_⟩, ?_⟩
  · refine ⟨nodup_freeRange _ _, fun b hb => ?_, fun b hb => ?_, ?_, fun b => ?_⟩
    · rw [hmem, hrootBlocks, mem_singleton]
      have hb := mem_freeRange.mp hb
      omega
    · rw [hrootBlocks, mem_singleton] at hb
      rw [hmem]
      omega
    · rw [hmem]
      omega
    · rw [hmem, hrootBlocks, mem_singleton, mem_freeRange]
      omega
  · rintro ⟨st, hst, hpart⟩
    obtain rfl := hst.unique hstack
    exact (hpart.free lo (mem_freeRange.mpr ⟨le_rfl, by omega⟩)).2.2 hlast

/-- One inode on a disk of three blocks: block 1, where the inode is, is the one free block. -/
def smallImage (img : Simdisk) : Bool :=
  img.word 8 == 1 && img.word 12 == 1 && img.word 136 == 1

theorem format_small : (Simdisk.format (fun _ => 0) 1 12288).toOption.any smallImage = true := by
  decide +kernel

theorem not_partitioned_small :
    ∃ img, Simdisk.format (fun _ => 0) 1 12288 = .ok img ∧ ¬ Partitioned img 1 3 := by
  obtain ⟨img, himg, htest⟩ := ok_of_any format_small
  simp only [smallImage, Bool.and_eq_true, beq_iff_eq] at htest
  obtain ⟨⟨hnfree, hentry⟩, hnum⟩ := htest
  refine ⟨img, himg, ?_⟩
  rintro ⟨st, hst, hpart⟩
  have hone : 1 ∈ st := by
    obtain ⟨rest, -, rfl⟩ := hst.chain
    rw [hnfree, entries, hentry]
    exact .head _
  exact (hpart.free 1 hone).2.2
    ((mem_blocksOfInodes hnum (Nat.le_refl 1)).mpr ⟨Nat.le_refl 1, by decide⟩)

/-- The same image, as the theorem sees it. -/
theorem format_frees_last_inodes_small : ∃ img, Simdisk.format (fun _ => 0) 1 12288 = .ok img ∧
    1 ∈ blocksOfInodes img 1 ∧ ¬ Partitioned img 1 3 := by
  obtain ⟨img, himg, -⟩ := ok_of_any format_small
  have h := format_frees_last_inodes _ _ _ _ himg
  exact ⟨img, himg, h.1, h.2.2⟩

end Weenix.S5fs
