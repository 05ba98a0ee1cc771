/-
# Which block belongs to whom

On a disk that is in order every block has one use (`Layout`): it is the superblock, or holds
inodes, or is on the free list, or is one of the blocks of one file, at one place in it.  The places
of a file are its 1052 data blocks and, as the last, its indirect block (`Inode.blockAt`).

A method that works on one file writes to the free list's node in the superblock, to that file's
inode, and to blocks that the file owns or takes from the list.  Nothing of another file is there
(`Untouched`).

`bot` is for a list that ends in blocks which hold inodes, as in the images of `Simdisk.format`
(`format_frees_last_inodes`): as long as they stay at the bottom, they do no harm.
-/
import Weenix.S5fs.Format

namespace Weenix.S5fs

open Bytes Bytes.Mem List Inode

/-! ## 1. Inodes -/

/-- Inode `i`, where `get_inode` finds it. -/
def inodeAt (i : Nat) : Inode := ⟨i, 4096 + 128 * i⟩

theorem getInode_of_lt {d : Simdisk} {i : Nat} (h : i < d.word 136) :
    d.getInode i = .ok (inodeAt i) := by
  rw [getInode_eq h, inodeAt]
  congr 2
  change 4096 * (1 + i / 32) + 128 * (i % 32) = 4096 + 128 * i
  omega

theorem getInode_inv {d : Simdisk} {i : Nat} {n : Inode} (h : d.getInode i = .ok n) :
    i < d.word 136 ∧ n = inodeAt i := by
  obtain hlt | hge := lt_or_ge i (d.word 136)
  · exact ⟨hlt, (Except.ok.inj ((getInode_of_lt hlt).symm.trans h)).symm⟩
  · rw [Simdisk.getInode, if_pos (show i ≥ d.getNumInodes from hge)] at h
    cases h

/-- The last block that holds inodes. -/
def tableEnd (d : Simdisk) : Nat := Simdisk.inodeBlocks (d.word 136)

theorem tableEnd_eq (d : Simdisk) : tableEnd d = (d.word 136 - 1) / 32 + 1 := rfl

/-- An inode ends before the blocks after the table. -/
theorem record_lt {d : Simdisk} {i b : Nat} (hi : i < d.word 136) (hb : tableEnd d < b) :
    4096 + 128 * i + 128 ≤ 4096 * b := by
  rw [tableEnd_eq] at hb
  omega

/-! ## 2. The blocks of a file -/

/-- The block at a place of the file, 0 for none: a data block, or at place 1052 the
indirect block. -/
def Inode.blockAt (d : Simdisk) (n : Inode) (pos : Nat) : Nat :=
  if pos < 28 then d.word (n.offset + 12 + pos * 4)
  else if n.getIndirectBlockno d = 0 then 0
  else if pos < 1052 then d.word (4096 * n.getIndirectBlockno d + (pos - 28) * 4)
  else if pos = 1052 then n.getIndirectBlockno d
  else 0

/-- The byte of the file at `k`, whatever the file's size. -/
def Inode.stored (d : Simdisk) (n : Inode) (k : Nat) : UInt8 :=
  if n.blockAt d (k / 4096) = 0 then 0 else d (4096 * n.blockAt d (k / 4096) + k % 4096)

section
variable {d d' : Simdisk} {n : Inode} {pos : Nat}

theorem blockAt_direct (h : pos < 28) : n.blockAt d pos = d.word (n.offset + 12 + pos * 4) :=
  if_pos h

theorem blockAt_indirect : n.blockAt d 1052 = n.getIndirectBlockno d := by
  unfold blockAt
  rw [if_neg (by omega)]
  split
  case isTrue h => exact h.symm
  case isFalse => rfl

theorem blockAt_of_no_indirect (h : 28 ≤ pos) (hind : n.getIndirectBlockno d = 0) :
    n.blockAt d pos = 0 := by
  rw [blockAt, if_neg (by omega), if_pos hind]

theorem blockAt_through (h : 28 ≤ pos) (hlt : pos < 1052) (hind : n.getIndirectBlockno d ≠ 0) :
    n.blockAt d pos = d.word (4096 * n.getIndirectBlockno d + (pos - 28) * 4) := by
  rw [blockAt, if_neg (by omega), if_neg hind, if_pos hlt]

theorem blockAt_beyond (h : 1052 < pos) : n.blockAt d pos = 0 := by
  unfold blockAt
  rw [if_neg (by omega)]
  split
  case isTrue => rfl
  case isFalse => rw [if_neg (by omega), if_neg (by omega)]

theorem blocknoAt_eq (h : pos < 1052) : n.blocknoAt d pos = .ok (n.blockAt d pos) := by
  unfold blocknoAt
  by_cases hdirect : pos < 28
  · rw [if_pos (show pos < s5NdirectBlocks from hdirect), getDirectBlockno,
      if_pos (show pos < s5NdirectBlocks from hdirect), blockAt_direct hdirect]
  · rw [if_neg (show ¬ pos < s5NdirectBlocks from hdirect)]
    by_cases hind : n.getIndirectBlockno d = 0
    · rw [if_pos hind, blockAt_of_no_indirect (by omega) hind]
    · rw [if_neg hind, blockAt_through (by omega) h hind, Block.readWord, Block.read,
        if_neg (by simp only [s5BlockSize, s5NdirectBlocks]; omega)]
      rfl

/-- The places are read from the inode and from the indirect block. -/
theorem blockAt_congr (hrec : ∀ x, n.offset + 12 ≤ x → x < n.offset + 128 → d' x = d x)
    (hind : n.getIndirectBlockno d ≠ 0 → ∀ x, 4096 * n.getIndirectBlockno d ≤ x →
      x < 4096 * n.getIndirectBlockno d + 4096 → d' x = d x) (pos : Nat) :
    n.blockAt d' pos = n.blockAt d pos := by
  have hsame : n.getIndirectBlockno d' = n.getIndirectBlockno d :=
    word_congr fun x hle hlt => hrec x (by simp only [s5NdirectBlocks] at hle; omega)
      (by simp only [s5NdirectBlocks] at hlt; omega)
  unfold blockAt
  rw [hsame]
  split
  · exact word_congr fun x hle hlt => hrec x (by omega) (by omega)
  split
  · rfl
  next hne =>
    split
    · exact word_congr fun x hle hlt => hind hne x (by omega) (by omega)
    · rfl

end

/-! ## 3. The disk -/

/-- `i` is a data or directory inode of the disk. -/
def IsFile (d : Simdisk) (i : Nat) : Prop := i < d.word 136 ∧ (inodeAt i).hasBlocks d = true

/-- Every block has one use; `st ++ bot` is the free list. -/
structure Layout (d : Simdisk) (st bot : List Nat) : Prop where
  stack : FreeStack d (st ++ bot)
  nodup : st.Nodup
  free : ∀ b ∈ st, tableEnd d < b
  file : ∀ i, IsFile d i → ∀ pos, (inodeAt i).blockAt d pos ≠ 0 →
    tableEnd d < (inodeAt i).blockAt d pos ∧ (inodeAt i).blockAt d pos ∉ st
  own : ∀ i j, IsFile d i → IsFile d j → ∀ p q, (inodeAt i).blockAt d p = (inodeAt j).blockAt d q →
    (inodeAt i).blockAt d p ≠ 0 → i = j ∧ p = q
  short : bot.length ≤ 29
  low : ∀ b ∈ bot, b ≤ tableEnd d

theorem mem_of_cons_suffix_append {α : Type} {b : α} {below st bot : List α}
    (h : b :: below <:+ st ++ bot)
    (hlen : bot.length ≤ below.length) : b ∈ st := by
  obtain ⟨pre, hpre⟩ := h
  obtain ⟨a, rfl, ha⟩ | ⟨c, -, rfl⟩ := append_eq_append_iff.mp hpre
  · cases a with
    | nil =>
      rw [nil_append] at ha
      rw [← ha, length_cons] at hlen
      omega
    | cons c a =>
      obtain ⟨rfl, -⟩ := cons.inj ha
      exact mem_append_right _ (.head _)
  · rw [length_append, length_cons] at hlen
    omega

/-- A list stays where its nodes are not written; what is at its bottom is no node. -/
theorem FreeStack.keep {d d' : Simdisk} {st bot : List Nat} (h : FreeStack d (st ++ bot))
    (hbot : bot.length ≤ 29) (hsuper : ∀ x, 8 ≤ x → x < 132 → d' x = d x)
    (hst : ∀ b ∈ st, ∀ x, 4096 * b ≤ x → x < 4096 * b + 4096 → d' x = d x) :
    FreeStack d' (st ++ bot) := by
  refine h.congr hsuper fun b below hsuf hlen => ?_
  have hmem : b ∈ st := mem_of_cons_suffix_append hsuf (by omega)
  exact hst b hmem

/-! ## 4. What is not touched -/

section
variable {d t : Simdisk} {i : Nat}
  (h : ∀ x, 4096 + 128 * i + 4 ≤ x → x < 4096 + 128 * i + 12 → t x = d x)
include h

theorem getType_of_header : (inodeAt i).getType t = (inodeAt i).getType d :=
  congrArg unpack (read_congr fun x hle hlt => by
    change 4096 + 128 * i + 8 ≤ x at hle
    change x < 4096 + 128 * i + 8 + 2 at hlt
    exact h x (by omega) (by omega))

theorem hasBlocks_of_header : (inodeAt i).hasBlocks t = (inodeAt i).hasBlocks d := by
  unfold hasBlocks
  rw [getType_of_header h]

end

/-- Nothing of inode `j` and, if it is a file, of its blocks is written. -/
structure Untouched (d d' : Simdisk) (j : Nat) : Prop where
  record : ∀ x, 4096 + 128 * j ≤ x → x < 4096 + 128 * j + 128 → d' x = d x
  blocks : (inodeAt j).hasBlocks d = true → ∀ pos, (inodeAt j).blockAt d pos ≠ 0 →
    ∀ x, 4096 * (inodeAt j).blockAt d pos ≤ x →
      x < 4096 * (inodeAt j).blockAt d pos + 4096 → d' x = d x

namespace Untouched

variable {d d' d'' : Simdisk} {j : Nat}

section
variable (h : Untouched d d' j)
include h

theorem size : (inodeAt j).getSize d' = (inodeAt j).getSize d :=
  word_congr fun x hle hlt => h.record x hle (by change x < 4096 + 128 * j + 4 at hlt; omega)

theorem type : (inodeAt j).getType d' = (inodeAt j).getType d :=
  getType_of_header fun x hle hlt => h.record x (by omega) (by omega)

theorem hasBlocks : (inodeAt j).hasBlocks d' = (inodeAt j).hasBlocks d := by
  unfold Inode.hasBlocks
  rw [h.type]

theorem blockAt (hfile : (inodeAt j).hasBlocks d = true) (pos : Nat) :
    (inodeAt j).blockAt d' pos = (inodeAt j).blockAt d pos := by
  refine blockAt_congr (fun x hle hlt => ?_) (fun hne x hle hlt => ?_) pos
  · change 4096 + 128 * j + 12 ≤ x at hle
    exact h.record x (by omega) hlt
  · rw [← blockAt_indirect] at hne hle hlt
    exact h.blocks hfile 1052 hne x hle hlt

theorem stored (hfile : (inodeAt j).hasBlocks d = true) (k : Nat) :
    (inodeAt j).stored d' k = (inodeAt j).stored d k := by
  unfold Inode.stored
  rw [h.blockAt hfile]
  split
  case isTrue => rfl
  case isFalse hne => exact h.blocks hfile _ hne _ (by omega) (by omega)

end

end Untouched

/-- The blocks that a method working on file `i` may write to: the free ones and those of
the file. -/
def Mine (d : Simdisk) (st : List Nat) (i b : Nat) : Prop :=
  b ∈ st ∨ b ≠ 0 ∧ ∃ pos, (inodeAt i).blockAt d pos = b

/-- What was written is in the superblock's node of the list, in inode `i`, or in blocks of `S`. -/
def Within (d d' : Simdisk) (i : Nat) (S : Nat → Prop) : Prop :=
  ∀ x, x < 8 ∨ 132 ≤ x → x < 4096 + 128 * i ∨ 4096 + 128 * i + 128 ≤ x → ¬ S (x / 4096) → d' x = d x

section
variable {d d' d'' : Simdisk} {st bot : List Nat} {i j : Nat} {S S' : Nat → Prop}

theorem Within.trans (h : Within d d' i S) (h' : Within d' d'' i S') (hsub : ∀ b, S' b → S b) :
    Within d d'' i S := fun x hsuper hrec hx =>
  (h' x hsuper hrec fun hs => hx (hsub _ hs)).trans (h x hsuper hrec hx)

theorem Layout.lt_of_mine (h : Layout d st bot) (hi : IsFile d i) {b : Nat} (hb : Mine d st i b) :
    tableEnd d < b := by
  obtain hfree | ⟨hne, pos, rfl⟩ := hb
  · exact h.free b hfree
  · exact (h.file i hi pos hne).1

section
variable (h : Layout d st bot) (hi : IsFile d i) (hw : Within d d' i (Mine d st i))
include h hi hw

theorem Layout.numInodes : d'.word 136 = d.word 136 := by
  refine word_congr fun x hle hlt => hw x (by omega) (by omega) fun hm => ?_
  have := h.lt_of_mine hi hm
  rw [Nat.div_eq_of_lt (by omega)] at this
  omega

theorem Layout.untouched (hj : j < d.word 136) (hne : j ≠ i) : Untouched d d' j := by
  constructor
  · intro x hle hlt
    refine hw x (by omega) (by omega) fun hm => ?_
    have := record_lt hj (h.lt_of_mine hi hm)
    omega
  · intro hfile pos hpos x hle hlt
    have hj : IsFile d j := ⟨hj, hfile⟩
    have hfar := (h.file j hj pos hpos).1
    have hdiv : x / 4096 = (inodeAt j).blockAt d pos := by omega
    have hrec := record_lt hi.1 hfar
    refine hw x (by omega) (by omega) fun hm => ?_
    rw [hdiv] at hm
    obtain hfree | ⟨-, q, hq⟩ := hm
    · exact (h.file j hj pos hpos).2 hfree
    · exact hne (h.own j i hj hi pos q hq.symm hpos).1

theorem Layout.isFile (hj : IsFile d' j) : IsFile d j := by
  have hlt : j < d.word 136 := h.numInodes hi hw ▸ hj.1
  obtain rfl | hne := eq_or_ne j i
  · exact hi
  · exact ⟨hlt, (h.untouched hi hw hlt hne).hasBlocks ▸ hj.2⟩

end

/-- Files that have the blocks they had, and no block more on the list. -/
theorem Layout.keep {st' : List Nat} (h : Layout d st bot) (hst : st' <:+ st)
    (hstack : FreeStack d' (st' ++ bot))
    (hnum : d'.word 136 = d.word 136) (hfile : ∀ j, IsFile d' j → IsFile d j)
    (hblocks : ∀ j, IsFile d' j → ∀ q, (inodeAt j).blockAt d' q = (inodeAt j).blockAt d q) :
    Layout d' st' bot := by
  have hend : tableEnd d' = tableEnd d := by rw [tableEnd, hnum, tableEnd]
  refine ⟨hstack, h.nodup.sublist hst.sublist, ?_, ?_, ?_, h.short, hend ▸ h.low⟩
  · rw [hend]
    exact fun c hc => h.free c (hst.subset hc)
  · intro j hj q hne
    rw [hblocks j hj] at hne ⊢
    obtain ⟨hfar, hnot⟩ := h.file j (hfile j hj) q hne
    exact ⟨hend ▸ hfar, fun hmem => hnot (hst.subset hmem)⟩
  · intro j j' hj hj' p q
    rw [hblocks j hj, hblocks j' hj']
    exact h.own j j' (hfile j hj) (hfile j' hj') p q

end

/-! ## 5. A block from the list -/

/-- `b` was just taken from the list: it is nobody's, and has zeroes in it. -/
structure Spare (d : Simdisk) (st bot : List Nat) (b : Nat) : Prop where
  layout : Layout d st bot
  high : tableEnd d < b
  fresh : b ∉ st
  small : b < 2 ^ 32
  nobody : ∀ i, IsFile d i → ∀ pos, (inodeAt i).blockAt d pos ≠ b
  zero : ∀ x, 4096 * b ≤ x → x < 4096 * b + 4096 → d x = 0

theorem lt_of_mem_entries {d : Mem} {base n b : Nat} (h : b ∈ entries d base n) : b < 2 ^ 32 := by
  induction n with
  | zero => cases h
  | succ n ih =>
    obtain rfl | h := mem_cons.mp h
    · exact word_lt ..
    · exact ih h

theorem Chain.lt {d : Mem} {next : Nat} {rest : List Nat} (h : Chain d next rest)
    (hnext : next < 2 ^ 32) :
    ∀ b ∈ rest, b < 2 ^ 32 := by
  induction h with
  | nil => nofun
  | node hb _ ih =>
    intro c hc
    obtain rfl | hc := mem_cons.mp hc
    · exact hnext
    obtain hc | hc := mem_append.mp hc
    · exact lt_of_mem_entries hc
    · exact ih (word_lt ..) c hc

theorem FreeStack.lt {d : Mem} {st : List Nat} (h : FreeStack d st) : ∀ b ∈ st, b < 2 ^ 32 := by
  obtain ⟨rest, hchain, rfl⟩ := h.chain
  intro b hb
  obtain hb | hb := mem_append.mp hb
  · exact lt_of_mem_entries hb
  · exact hchain.lt (word_lt ..) b hb

section
variable {d : Simdisk} {st bot : List Nat} {b : Nat}

theorem zero_apply (d : Simdisk) (b x : Nat) : (getBlock b).zero d x =
    if 4096 * b ≤ x ∧ x < 4096 * b + 4096 then 0 else d x := by
  change Mem.write d (4096 * b) (replicate 4096 0) x = _
  split
  case isTrue h =>
    refine write_of_mem h.1 ?_
    rw [getElem?_replicate, if_pos (by omega)]
  case isFalse h => exact write_of_not_mem (by rw [length_replicate]; omega)

/-- **Taking a block** leaves every file as it was. -/
theorem Layout.newBlock (h : Layout d (b :: st) bot) :
    ∃ t u, d.allocBlock = .ok (t, getBlock b) ∧ (getBlock b).zero t = u ∧ Spare u st bot b ∧
      (∀ x, x < 8 ∨ 132 ≤ x → x < 4096 * b ∨ 4096 * b + 4096 ≤ x → u x = d x) ∧
      ∀ j < d.word 136, Untouched d u j := by
  obtain ⟨t, halloc, hstack⟩ := h.stack.pop
  have hframe : ∀ x, x < 8 ∨ 132 ≤ x → t x = d x := fun x hx => allocBlock_frame x hx _ halloc
  have hhigh := h.free b (.head _)
  have hfresh := (nodup_cons.mp h.nodup).1
  have hsmall : b < 2 ^ 32 := h.stack.lt b (.head _)
  generalize hu : (getBlock b).zero t = u
  have hsame : ∀ x, x < 8 ∨ 132 ≤ x → x < 4096 * b ∨ 4096 * b + 4096 ≤ x → u x = d x := by
    intro x hx hb
    rw [← hu, zero_apply, if_neg (by omega), hframe x hx]
  have hnum : u.word 136 = d.word 136 := word_congr fun x hle hlt => hsame x (by omega) (by omega)
  have hend : tableEnd u = tableEnd d := by rw [tableEnd, hnum, tableEnd]
  have huntouched : ∀ j < d.word 136, Untouched d u j := by
    intro j hj
    constructor
    · intro x hle hlt
      have := record_lt hj hhigh
      exact hsame x (by omega) (by omega)
    · intro hfile pos hpos x hle hlt
      obtain ⟨hfar, hnot⟩ := h.file j ⟨hj, hfile⟩ pos hpos
      have hne : (inodeAt j).blockAt d pos ≠ b := fun heq => hnot (heq ▸ .head _ ..)
      exact hsame x (by omega) (by omega)
  have hfile : ∀ j, IsFile u j → IsFile d j := fun j hj => by
    have hlt : j < d.word 136 := hnum ▸ hj.1
    exact ⟨hlt, (huntouched j hlt).hasBlocks ▸ hj.2⟩
  have hblock : ∀ j, IsFile u j → ∀ pos, (inodeAt j).blockAt u pos = (inodeAt j).blockAt d pos :=
    fun j hj pos => (huntouched j (hfile j hj).1).blockAt (hfile j hj).2 pos
  refine ⟨t, u, halloc, hu,
    ⟨h.keep (suffix_cons ..) ?_ hnum hfile hblock, ?_, hfresh, hsmall, ?_, ?_⟩, hsame, huntouched⟩
  · refine hstack.keep h.short (fun x hle hlt => ?_) fun c hc x hle hlt => ?_
    · rw [← hu, zero_apply, if_neg (by omega)]
    · have hne : c ≠ b := fun heq => hfresh (heq ▸ hc)
      rw [← hu, zero_apply, if_neg (by omega)]
  · rw [hend]
    exact hhigh
  · intro j hj pos
    rw [hblock j hj]
    intro heq
    obtain ⟨-, hnot⟩ := h.file j (hfile j hj) pos (by omega)
    exact hnot (heq ▸ .head _ ..)
  · intro x hle hlt
    rw [← hu, zero_apply, if_pos ⟨hle, hlt⟩]

end

/-! ## 6. A place of a file -/

/-- The word that holds the number of the block at a place. -/
def Inode.place (d : Simdisk) (n : Inode) (pos : Nat) : Nat :=
  if pos < 28 then n.offset + 12 + pos * 4
  else if pos < 1052 then 4096 * n.getIndirectBlockno d + (pos - 28) * 4
  else n.offset + 124

theorem word_of_zero {d : Mem} {a : Nat} (h : ∀ x, a ≤ x → x < a + 4 → d x = 0) : d.word a = 0 := by
  have hzero : Mem.word (fun _ => 0) a = 0 := rfl
  rw [← hzero]
  exact word_congr h

section
variable {d : Simdisk} {n : Inode} {pos b q : Nat}

theorem getIndirectBlockno_eq (d : Simdisk) (n : Inode) :
    n.getIndirectBlockno d = d.word (n.offset + 124) :=
  congrArg d.word (show n.offset + 12 + 4 * 28 = n.offset + 124 by omega)

/-- The other places of the file do not change with a data block. -/
theorem blockAt_setPlace (hpos : pos < 1052) (hb : b < 2 ^ 32)
    (hind : 28 ≤ pos → n.getIndirectBlockno d ≠ 0)
    (hfar : n.getIndirectBlockno d ≠ 0 → n.offset + 128 ≤ 4096 * n.getIndirectBlockno d) :
    n.blockAt (d.setWord (n.place d pos) b) q = if q = pos then b else n.blockAt d q := by
  have hplace : n.place d pos = if pos < 28 then n.offset + 12 + pos * 4
      else 4096 * n.getIndirectBlockno d + (pos - 28) * 4 := by
    rw [place, if_pos hpos]
  have hkeep : n.getIndirectBlockno (d.setWord (n.place d pos) b) = n.getIndirectBlockno d := by
    rw [getIndirectBlockno_eq, getIndirectBlockno_eq, hplace]
    split
    · exact word_setWord_of_disjoint (by omega)
    · have := hfar (hind (by omega))
      rw [getIndirectBlockno_eq] at this ⊢
      exact word_setWord_of_disjoint (by omega)
  by_cases hq : q < 28
  · rw [blockAt_direct hq, hplace]
    by_cases heq : q = pos
    · rw [if_pos heq, ← heq, if_pos hq, word_setWord hb]
    · rw [if_neg heq, blockAt_direct hq]
      split
      · exact word_setWord_of_disjoint (by omega)
      · exact word_setWord_of_disjoint (by omega)
  · by_cases hnone : n.getIndirectBlockno d = 0
    · have hdirect : pos < 28 := by
        by_contra hge
        exact hind (by omega) hnone
      rw [blockAt_of_no_indirect (by omega) (hkeep.trans hnone), if_neg (by omega),
        blockAt_of_no_indirect (by omega) hnone]
    · have hsome : n.getIndirectBlockno (d.setWord (n.place d pos) b) ≠ 0 := hkeep ▸ hnone
      by_cases hlt : q < 1052
      · rw [blockAt_through (by omega) hlt hsome, hkeep, hplace]
        by_cases heq : q = pos
        · rw [if_pos heq, ← heq, if_neg hq, word_setWord hb]
        · rw [if_neg heq, blockAt_through (by omega) hlt hnone]
          split
          · exact word_setWord_of_disjoint (by omega)
          · exact word_setWord_of_disjoint (by omega)
      · rw [if_neg (by omega)]
        obtain rfl | hgt := Nat.eq_or_lt_of_le (Nat.not_lt.mp hlt)
        · rw [blockAt_indirect, blockAt_indirect, hkeep]
        · rw [blockAt_beyond hgt, blockAt_beyond hgt]

/-- A file that had no indirect block gets one with zeroes in it. -/
theorem blockAt_setIndirect (hnone : n.getIndirectBlockno d = 0) (hb : b < 2 ^ 32) (hb0 : b ≠ 0)
    (hfar : n.offset + 128 ≤ 4096 * b) (hzero : ∀ x, 4096 * b ≤ x → x < 4096 * b + 4096 → d x = 0) :
    n.blockAt (d.setWord (n.place d 1052) b) q = if q = 1052 then b else n.blockAt d q := by
  have hplace : n.place d 1052 = n.offset + 124 := rfl
  have hind : n.getIndirectBlockno (d.setWord (n.place d 1052) b) = b := by
    rw [getIndirectBlockno_eq, hplace, word_setWord hb]
  have hsome : n.getIndirectBlockno (d.setWord (n.place d 1052) b) ≠ 0 := by
    rw [hind]
    exact hb0
  by_cases hq : q < 28
  · rw [blockAt_direct hq, if_neg (by omega), blockAt_direct hq, hplace]
    exact word_setWord_of_disjoint (by omega)
  rw [blockAt_of_no_indirect (by omega) hnone]
  obtain hlt | rfl | hgt := Nat.lt_trichotomy q 1052
  · rw [blockAt_through (by omega) hlt hsome, hind, if_neg (by omega), hplace,
      word_setWord_of_disjoint (by omega)]
    exact word_of_zero fun x hle hlt' => hzero x (by omega) (by omega)
  · rw [blockAt_indirect, hind, if_pos rfl]
  · rw [blockAt_beyond hgt, if_neg (by omega)]

end

/-! ## 7. Files that grow -/

/-- The file has the size it had, and its blocks hold the same bytes. -/
structure Steady (i : Nat) (d t : Simdisk) : Prop where
  size : (inodeAt i).getSize t = (inodeAt i).getSize d
  bytes : ∀ k < 4096 * 1052, (inodeAt i).stored t k = (inodeAt i).stored d k

section
variable {d t u : Simdisk} {st st' st'' bot : List Nat} {i b pos : Nat}

theorem Steady.refl : Steady i d d := ⟨rfl, fun _ _ => rfl⟩

theorem Steady.trans (h : Steady i d t) (h' : Steady i t u) : Steady i d u :=
  ⟨h'.size.trans h.size, fun k hk => (h'.bytes k hk).trans (h.bytes k hk)⟩

theorem getSize_congr (h : ∀ x, 4096 + 128 * i ≤ x → x < 4096 + 128 * i + 4 → t x = d x) :
    (inodeAt i).getSize t = (inodeAt i).getSize d :=
  word_congr fun x hle hlt => h x hle hlt

/-- File `i` took blocks from the list, and all that was written is the file's.  Its size
may be new. -/
structure Grown (i : Nat) (bot : List Nat) (d : Simdisk) (st : List Nat) (t : Simdisk)
    (st' : List Nat) :
    Prop where
  layout : Layout t st' bot
  suffix : st' <:+ st
  within : Within d t i (Mine d st i)
  header : ∀ x, 4096 + 128 * i + 4 ≤ x → x < 4096 + 128 * i + 12 → t x = d x
  keeps : ∀ pos, (inodeAt i).blockAt d pos ≠ 0 →
    (inodeAt i).blockAt t pos = (inodeAt i).blockAt d pos
  gains : ∀ pos, (inodeAt i).blockAt t pos ≠ 0 →
    (inodeAt i).blockAt t pos = (inodeAt i).blockAt d pos ∨ (inodeAt i).blockAt t pos ∈ st

theorem Grown.refl (h : Layout d st bot) : Grown i bot d st d st :=
  ⟨h, suffix_rfl, fun _ _ _ _ => rfl, fun _ _ _ => rfl, fun _ _ => rfl, fun _ _ => .inl rfl⟩

theorem Grown.isFile (h : Grown i bot d st t st') (hd : Layout d st bot) (hi : IsFile d i) :
    IsFile t i :=
  ⟨hd.numInodes hi h.within ▸ hi.1, hasBlocks_of_header h.header ▸ hi.2⟩

theorem Grown.trans (h : Grown i bot d st t st') (h' : Grown i bot t st' u st'') :
    Grown i bot d st u st'' where
  layout := h'.layout
  suffix := h'.suffix.trans h.suffix
  within := h.within.trans h'.within fun b hb => by
    obtain hfree | ⟨hne, pos, rfl⟩ := hb
    · exact .inl (h.suffix.subset hfree)
    · obtain heq | hmem := h.gains pos hne
      · exact .inr ⟨hne, pos, heq.symm⟩
      · exact .inl hmem
  header x hle hlt := (h'.header x hle hlt).trans (h.header x hle hlt)
  keeps pos hne := by
    have heq := h.keeps pos hne
    exact (h'.keeps pos (by rwa [heq])).trans heq
  gains pos hne := by
    obtain heq | hmem := h'.gains pos hne
    · rw [heq] at hne ⊢
      exact h.gains pos hne
    · exact .inr (h.suffix.subset hmem)

section
variable (hi : IsFile d i) (hpos : pos ≤ 1052) (hnone : (inodeAt i).blockAt d pos = 0)
  (hind : 28 ≤ pos → pos < 1052 → (inodeAt i).getIndirectBlockno d ≠ 0)
include hi hpos hnone hind

/-- `b` becomes the block of file `i` at a place that had none. -/
theorem Spare.attach (h : Spare d st bot b) :
    Layout (d.setWord ((inodeAt i).place d pos) b) st bot ∧
    (∀ q, (inodeAt i).blockAt (d.setWord ((inodeAt i).place d pos) b) q =
      if q = pos then b else (inodeAt i).blockAt d q) ∧
    ∀ x, x < 4096 + 128 * i + 12 ∨ 4096 + 128 * i + 128 ≤ x →
      (∀ q, q = 1052 → (inodeAt i).blockAt d q ≠ 0 → x / 4096 ≠ (inodeAt i).blockAt d q) →
      d.setWord ((inodeAt i).place d pos) b x = d x := by
  have hb0 : b ≠ 0 := by have := h.high; omega
  have hrec : ∀ c, tableEnd d < c → (inodeAt i).offset + 128 ≤ 4096 * c := fun c => record_lt hi.1
  have hfar : (inodeAt i).getIndirectBlockno d ≠ 0 → tableEnd d < (inodeAt i).getIndirectBlockno d ∧
      (inodeAt i).getIndirectBlockno d ∉ st := fun hne => by
    rw [← blockAt_indirect] at hne ⊢
    exact h.layout.file i hi _ hne
  have hblock : ∀ q, (inodeAt i).blockAt (d.setWord ((inodeAt i).place d pos) b) q =
      if q = pos then b else (inodeAt i).blockAt d q := fun q => by
    obtain rfl | hlt := Nat.eq_or_lt_of_le hpos
    · exact blockAt_setIndirect (blockAt_indirect.symm.trans hnone) h.small hb0
        (hrec b h.high) h.zero
    · exact blockAt_setPlace hlt h.small (fun hge => hind hge hlt) fun hne => hrec _ (hfar hne).1
  have hsame : ∀ x, x < 4096 + 128 * i + 12 ∨ 4096 + 128 * i + 128 ≤ x →
      (∀ q, q = 1052 → (inodeAt i).blockAt d q ≠ 0 → x / 4096 ≠ (inodeAt i).blockAt d q) →
      d.setWord ((inodeAt i).place d pos) b x = d x := by
    intro x hx hblk
    refine setWord_of_not_mem ?_
    unfold place
    split
    · change x < 4096 + 128 * i + 12 + pos * 4 ∨ 4096 + 128 * i + 12 + pos * 4 + 4 ≤ x
      omega
    split
    · have hne := hind (by omega) (by omega)
      rw [← blockAt_indirect] at hne ⊢
      have := hblk 1052 rfl hne
      omega
    · change x < 4096 + 128 * i + 124 ∨ 4096 + 128 * i + 124 + 4 ≤ x
      omega
  generalize d.setWord ((inodeAt i).place d pos) b = v at hblock hsame ⊢
  -- what is not in the inode's pointers nor in its indirect block
  have hout : ∀ x, x < 4096 + 128 * i + 12 ∨ 4096 + 128 * i + 128 ≤ x →
      (∀ q, (inodeAt i).blockAt d q ≠ 0 → x / 4096 ≠ (inodeAt i).blockAt d q) → v x = d x :=
    fun x hx hq => hsame x hx fun q _ => hq q
  have hwithin : Within d v i (Mine d st i) := fun x _ hx hm =>
    hout x (by omega) fun q hne heq => hm (.inr ⟨heq ▸ hne, q, heq.symm⟩)
  have hnum := h.layout.numInodes hi hwithin
  have hend : tableEnd v = tableEnd d := by rw [tableEnd, hnum, tableEnd]
  have htable : ∀ x, x < 4096 * (tableEnd d + 1) → ∀ q, (inodeAt i).blockAt d q ≠ 0 →
      x / 4096 ≠ (inodeAt i).blockAt d q := fun x hx q hne => by
    have := (h.layout.file i hi q hne).1
    omega
  have hother : ∀ j < d.word 136, j ≠ i → Untouched d v j := fun j hj hne =>
    h.layout.untouched hi hwithin hj hne
  have hself : (inodeAt i).hasBlocks v = (inodeAt i).hasBlocks d :=
    hasBlocks_of_header fun x hle hlt => hout x (by omega)
      (htable x (by have := record_lt hi.1 (Nat.lt_succ_self (tableEnd d)); omega))
  have hfile : ∀ j, IsFile v j → IsFile d j := fun j => h.layout.isFile hi hwithin
  have hblocks : ∀ j, IsFile v j → ∀ q, (inodeAt j).blockAt v q =
      if j = i ∧ q = pos then b else (inodeAt j).blockAt d q := fun j hj q => by
    obtain rfl | hne := eq_or_ne j i
    · rw [hblock]
      simp
    · rw [if_neg fun hc => hne hc.1]
      exact (hother j (hfile j hj).1 hne).blockAt (hfile j hj).2 q
  refine ⟨⟨?_, h.layout.nodup, hend ▸ h.layout.free, ?_, ?_, h.layout.short, hend ▸ h.layout.low⟩,
    hblock, hsame⟩
  · refine h.layout.stack.keep h.layout.short (fun x hle hlt => ?_) fun c hc x hle hlt => ?_
    · exact hout x (by omega) (htable x (by omega))
    · have hhigh := h.layout.free c hc
      have := record_lt hi.1 hhigh
      refine hout x (by omega) fun q hne heq => ?_
      have hdiv : x / 4096 = c := by omega
      exact (h.layout.file i hi q hne).2 (heq ▸ hdiv ▸ hc)
  · intro j hj q hne
    rw [hblocks j hj] at hne ⊢
    rw [hend]
    split at hne
    · rw [if_pos (by assumption)]
      exact ⟨h.high, h.fresh⟩
    · rw [if_neg (by assumption)]
      exact h.layout.file j (hfile j hj) q hne
  · intro j j' hj hj' p q heq hne
    rw [hblocks j hj] at heq hne
    rw [hblocks j' hj'] at heq
    split at heq
    next hjp =>
      split at heq
      next hjq => exact ⟨hjp.1.trans hjq.1.symm, hjp.2.trans hjq.2.symm⟩
      next => exact absurd heq.symm (h.nobody j' (hfile j' hj') q)
    next hjp =>
      rw [if_neg hjp] at hne
      split at heq
      next => exact absurd heq (h.nobody j (hfile j hj) p)
      next => exact h.layout.own j j' (hfile j hj) (hfile j' hj') p q heq hne

/-- **A file takes a block from the list**, for a place that had none.  It shows what it
showed before. -/
theorem Layout.grow (h : Layout d (b :: st) bot) :
    ∃ t u, d.allocBlock = .ok (t, getBlock b) ∧ (getBlock b).zero t = u ∧ b < 2 ^ 32 ∧ b ≠ 0 ∧
      (inodeAt i).getIndirectBlockno u = (inodeAt i).getIndirectBlockno d ∧
      Grown i bot d (b :: st) (u.setWord ((inodeAt i).place u pos) b) st ∧
      (∀ q, (inodeAt i).blockAt (u.setWord ((inodeAt i).place u pos) b) q =
        if q = pos then b else (inodeAt i).blockAt d q) ∧
      Steady i d (u.setWord ((inodeAt i).place u pos) b) := by
  obtain ⟨t, u, halloc, hzero, hspare, hframe, huntouched⟩ := h.newBlock
  have hsame : ∀ q, (inodeAt i).blockAt u q = (inodeAt i).blockAt d q :=
    (huntouched i hi.1).blockAt hi.2
  have hindirect : (inodeAt i).getIndirectBlockno u = (inodeAt i).getIndirectBlockno d := by
    rw [← blockAt_indirect, hsame, blockAt_indirect]
  have hiu : IsFile u i := by
    refine ⟨?_, (huntouched i hi.1).hasBlocks ▸ hi.2⟩
    have hb := h.free b (.head _)
    have hnum : u.word 136 = d.word 136 :=
      word_congr fun x hle hlt => hframe x (by omega) (by omega)
    exact hnum ▸ hi.1
  obtain ⟨hlayout, hblock, hattach⟩ := hspare.attach hiu hpos ((hsame pos).trans hnone)
    (fun hge hlt => hindirect ▸ hind hge hlt)
  have hhigh := h.free b (.head _)
  have hb0 : b ≠ 0 := by omega
  have hrec := record_lt hi.1 hhigh
  refine ⟨t, u, halloc, hzero, hspare.small, hb0, hindirect, ?_⟩
  generalize u.setWord ((inodeAt i).place u pos) b = v at hlayout hblock hattach ⊢
  have hblock' : ∀ q, (inodeAt i).blockAt v q = if q = pos then b else (inodeAt i).blockAt d q :=
    fun q => by
    rw [hblock, hsame]
  have hout : ∀ x, x < 8 ∨ 132 ≤ x → x < 4096 + 128 * i + 12 ∨ 4096 + 128 * i + 128 ≤ x →
      x / 4096 ≠ b →
        (∀ q, q = 1052 → (inodeAt i).blockAt d q ≠ 0 → x / 4096 ≠ (inodeAt i).blockAt d q) →
      v x = d x := fun x hsuper hrec hne hq => by
    rw [hattach x hrec fun q hq' hne' => by rw [hsame] at hne' ⊢; exact hq q hq' hne']
    exact hframe x hsuper (by omega)
  have hheader : ∀ x, 4096 + 128 * i ≤ x → x < 4096 + 128 * i + 12 → v x = d x := by
    intro x hle hlt
    refine hout x (by omega) (by omega) (by omega) fun q _ hne => ?_
    have := record_lt hi.1 (h.file i hi q hne).1
    omega
  refine ⟨⟨hlayout, suffix_cons .., ?_, fun x hle hlt => hheader x (by omega) hlt, ?_, ?_⟩, hblock',
    getSize_congr fun x hle hlt => hheader x hle (by omega), ?_⟩
  · intro x hsuper hx hm
    refine hout x hsuper (by omega) (fun heq => hm (.inl (heq ▸ .head _ ..))) fun q _ hne heq => ?_
    exact hm (.inr ⟨heq ▸ hne, q, heq.symm⟩)
  · intro q hne
    have hq : q ≠ pos := fun heq => hne (heq ▸ hnone)
    rw [hblock', if_neg hq]
  · intro q hne
    rw [hblock'] at hne ⊢
    split
    · exact .inr (.head _)
    · exact .inl rfl
  · intro k hk
    unfold stored
    rw [hblock']
    by_cases hq : k / 4096 = pos
    · -- the new block shows the zeroes that were shown for no block
      rw [if_pos hq, if_neg hb0, hq, if_pos hnone]
      have hdiv : (4096 * b + k % 4096) / 4096 = b := by omega
      rw [hattach _ (by omega) fun q _ hne => ?_]
      · exact hspare.zero _ (by omega) (by omega)
      · rw [hdiv]
        exact fun heq => hspare.nobody i hiu q heq.symm
    · rw [if_neg hq]
      split
      · rfl
      next hne =>
        have hdiv : (4096 * (inodeAt i).blockAt d (k / 4096) + k % 4096) / 4096
            = (inodeAt i).blockAt d (k / 4096) := by omega
        obtain ⟨hfar, hnot⟩ := h.file i hi _ hne
        have := record_lt hi.1 hfar
        refine hout _ (by omega) (by omega) (fun heq => ?_) fun q hq hne' heq => ?_
        · rw [hdiv] at heq
          exact hnot (heq ▸ .head _ ..)
        · rw [hdiv] at heq
          have := (h.own i i hi hi _ _ heq hne).2
          omega

end

/-- **The size** of a file can be set. -/
theorem Layout.setHeader (h : Layout d st bot) (hi : IsFile d i)
    (hout : ∀ x, x < 4096 + 128 * i ∨ 4096 + 128 * i + 4 ≤ x → t x = d x) :
    Layout t st bot ∧ (∀ q, (inodeAt i).blockAt t q = (inodeAt i).blockAt d q) ∧
      ∀ k, (inodeAt i).stored t k = (inodeAt i).stored d k := by
  have hnum : t.word 136 = d.word 136 := word_congr fun x hle hlt => hout x (by omega)
  have hfar : ∀ b, tableEnd d < b → ∀ x, 4096 * b ≤ x → t x = d x := fun b hb x hle => by
    have := record_lt hi.1 hb
    exact hout x (by omega)
  have hfile : ∀ j, IsFile t j → IsFile d j := fun j hj =>
    ⟨hnum ▸ hj.1, hasBlocks_of_header (fun x hle hlt => hout x (by omega)) ▸ hj.2⟩
  have hblocks : ∀ j, IsFile d j → ∀ q, (inodeAt j).blockAt t q = (inodeAt j).blockAt d q :=
    fun j hj q => by
    refine blockAt_congr (fun x hle hlt => ?_) (fun hne x hle hlt => ?_) q
    · change 4096 + 128 * j + 12 ≤ x at hle
      change x < 4096 + 128 * j + 128 at hlt
      exact hout x (by omega)
    · rw [← blockAt_indirect] at hne hle
      exact hfar _ (h.file j hj _ hne).1 x hle
  refine ⟨h.keep suffix_rfl ?_ hnum hfile fun j hj => hblocks j (hfile j hj),
    hblocks i hi, fun k => ?_⟩
  · exact h.stack.keep h.short (fun x hle hlt => hout x (by omega)) fun c hc x hle _ =>
      hfar c (h.free c hc) x hle
  · unfold stored
    rw [hblocks i hi]
    split
    · rfl
    next hq => exact hfar _ (h.file i hi _ hq).1 _ (by omega)

end

end Weenix.S5fs
