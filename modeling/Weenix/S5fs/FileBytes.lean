/-
# Image files as byte arrays

What a file shows is the array of its bytes up to its size (`contents`), and `Inode.read` of any
range returns that part of it (`read_eq`).  `Inode.write` puts the data at its place among the bytes
that the file's blocks hold (`write_returns`), on every disk where each block has one use, as long
as the free list has the blocks that are missing (`need`); it goes through direct, indirect and
missing blocks, and changes nothing of another file.

What a write does not do is clear the bytes between the old size and the place it writes to.  A
block that was there already may hold anything behind the end of the file, from before a truncation,
and a write further on makes it part of the file.  So the file is the array that it should be
exactly where those bytes are zero (`write_bytes`).
-/
import Weenix.S5fs.Layout

namespace Weenix.S5fs

open Bytes Bytes.Mem List Inode

variable {rest st : List Nat} {i len loc offset : Nat} {d t : Simdisk}

/-! ## 1. Reading -/

/-- What the file shows. -/
def Inode.contents (d : Simdisk) (n : Inode) : List UInt8 :=
  (List.range (min s5MaxFileSize (n.getSize d))).map (n.stored d)

section
variable {d : Simdisk} {n : Inode}

/-- The part of one block that a round reads. -/
theorem readPart_eq {ammount : Nat} (hfit : offset % 4096 + ammount ≤ 4096) :
    (if n.blockAt d (offset / 4096) = 0 then .ok (List.replicate ammount 0)
      else (getBlock (n.blockAt d (offset / 4096))).read d (offset % 4096) ammount)
      = (.ok ((List.range' offset ammount).map (n.stored d)) : Except ToolError (List UInt8)) := by
  have hstored : ∀ j < ammount, n.stored d (offset + j) = if n.blockAt d (offset / 4096) = 0 then 0
      else d (4096 * n.blockAt d (offset / 4096) + offset % 4096 + j) := fun j hj => by
    have hdiv : (offset + j) / 4096 = offset / 4096 := by omega
    have hmod : (offset + j) % 4096 = offset % 4096 + j := by omega
    rw [stored, hdiv, hmod, Nat.add_assoc]
  rw [range'_eq_map_range, map_map]
  split
  case isTrue h =>
    refine congrArg _ (ext_getElem (by simp) fun j hj _ => ?_)
    rw [length_replicate] at hj
    simp only [getElem_replicate, getElem_map, getElem_range, Function.comp_apply]
    rw [hstored j hj, if_pos h]
  case isFalse h =>
    rw [Block.read, if_neg (by simp only [s5BlockSize]; omega)]
    refine congrArg _ (map_congr_left fun j hj => ?_)
    have hj := mem_range.mp hj
    rw [Function.comp_apply, hstored j hj, if_neg h]
    rfl

theorem readLoop_eq (fuel offset size : Nat) (hfuel : size ≤ fuel)
    (hmax : offset + size ≤ 4096 * 1052) :
    n.readLoop d fuel offset size = .ok ((List.range' offset size).map (n.stored d)) := by
  induction fuel generalizing offset size with
  | zero =>
    obtain rfl : size = 0 := by omega
    rfl
  | succ fuel ih =>
    rw [readLoop]
    by_cases hsize : size = 0
    · rw [if_pos hsize, hsize]
      rfl
    · rw [if_neg hsize]
      generalize ha : min (s5BlockSize - offset % s5BlockSize) size = ammount
      have hammount : 0 < ammount ∧ ammount ≤ size ∧ offset % 4096 + ammount ≤ 4096 := by
        simp only [s5BlockSize] at ha
        omega
      have hrest := ih (offset + ammount) (size - ammount) (by omega) (by omega)
      have hround : ∀ {x : Except ToolError (List UInt8)},
        x = .ok ((range' offset ammount).map (n.stored d)) → (do
            let part ← x
            return part ++ (← n.readLoop d fuel (offset + ammount) (size - ammount)))
          = .ok ((range' offset size).map (n.stored d)) := fun hx => by
        rw [hx, ok_bind, hrest, ok_bind, pure_eq_ok, ← map_append, range'_append_1]
        congr 3
        omega
      have hpart := readPart_eq (d := d) (n := n) hammount.2.2
      dsimp only
      rw [ha, show s5BlockSize = 4096 from rfl, blocknoAt_eq (by omega), ok_bind]
      split at hpart
      case isTrue h =>
        rw [if_pos h]
        exact hround hpart
      case isFalse h =>
        rw [if_neg h]
        exact hround hpart

theorem take_drop_range (m offset size : Nat) :
    ((List.range m).drop offset).take size = List.range' offset (min size (m - offset)) := by
  refine ext_getElem (by simp) fun j _ _ => ?_
  simp

theorem read_eq (hfile : n.hasBlocks d = true) (offset size : Nat) :
    n.read d offset size = .ok (((n.contents d).drop offset).take size) := by
  unfold Inode.read
  rw [if_pos hfile]
  change n.readLoop d (min size (min s5MaxFileSize (n.getSize d) - offset)) offset _ = _
  rw [contents, ← map_drop, ← map_take, take_drop_range]
  generalize hm : min s5MaxFileSize (n.getSize d) = m
  have hmax : m ≤ 4096 * 1052 := hm ▸ Nat.min_le_left ..
  obtain hlt | hge := lt_or_ge offset m
  · exact readLoop_eq _ _ _ le_rfl (by omega)
  · rw [show min size (m - offset) = 0 by omega]
    rfl

end

/-! ## 2. The block for a round -/

/-- The blocks that a round takes from the list for the data block at `loc`: that block, and the
indirect block. -/
def cost (d : Simdisk) (i loc : Nat) : Nat :=
  (if (inodeAt i).blockAt d loc = 0 then 1 else 0) + if 28 ≤ loc ∧
    (inodeAt i).getIndirectBlockno d = 0 then 1 else 0

section
variable {d : Simdisk} {st bot : List Nat} {i loc : Nat}

section
variable (h : Layout d st bot) (hi : IsFile d i) (hloc : loc < 1052)
  (hroom : cost d i loc ≤ st.length)
include h hi hloc hroom

theorem findBlock_spec :
    ∃ t st', (inodeAt i).findBlock d loc = .ok (t, (inodeAt i).blockAt t loc) ∧
      Grown i bot d st t st' ∧ Steady i d t ∧
      st'.length + (if 28 ≤ loc ∧ (inodeAt i).getIndirectBlockno d = 0 then 1 else 0) = st.length ∧
      (∀ q < 1052, (inodeAt i).blockAt t q = (inodeAt i).blockAt d q) ∧
      ((inodeAt i).getIndirectBlockno t = 0 ↔ (inodeAt i).getIndirectBlockno d = 0 ∧ loc < 28) := by
  unfold findBlock
  by_cases hnew : 28 ≤ loc ∧ (inodeAt i).getIndirectBlockno d = 0
  · obtain ⟨hge, hind⟩ := hnew
    have hnone : (inodeAt i).blockAt d loc = 0 := blockAt_of_no_indirect hge hind
    rw [cost, if_pos hnone, if_pos ⟨hge, hind⟩] at hroom
    obtain ⟨b, st, rfl⟩ := exists_cons_of_length_pos (Nat.lt_of_lt_of_le (by decide) hroom)
    obtain ⟨t, u, halloc, rfl, hb, hb0, -, hgrown, hblock, hsteady⟩ := h.grow hi (Nat.le_refl 1052)
      (blockAt_indirect.trans hind) fun _ hlt => absurd hlt (by omega)
    refine ⟨_, st, ?_, hgrown, hsteady, ?_, fun q hq => ?_, ?_⟩
    · rw [if_neg (show ¬ loc < s5NdirectBlocks from hge.not_gt), if_pos hind, halloc, ok_bind,
        hblock, if_neg (by omega), hnone]
      have hset : (inodeAt i).setIndirectBlockno ((getBlock b).zero t)
        (getBlock b).blockno = .ok _ := put_eq hb
      dsimp only
      rw [hset]
      rfl
    · rw [if_pos ⟨hge, hind⟩, length_cons]
    · rw [hblock, if_neg (by omega)]
    · have hlast := hblock 1052
      rw [if_pos rfl, blockAt_indirect] at hlast
      rw [hlast]
      exact iff_of_false hb0 fun hc => absurd hc.2 (by omega)
  · refine ⟨d, st, ?_, .refl h, .refl, ?_, fun _ _ => rfl, ?_⟩
    · have hread := blocknoAt_eq (d := d) (n := inodeAt i) hloc
      unfold blocknoAt at hread
      by_cases hdirect : loc < s5NdirectBlocks
      · rw [if_pos hdirect] at hread ⊢
        rw [hread]
        rfl
      · have hind : (inodeAt i).getIndirectBlockno d ≠ 0 :=
          fun hz => hnew ⟨Nat.not_lt.mp hdirect, hz⟩
        rw [if_neg hdirect, if_neg hind] at hread ⊢
        rw [hread]
        rfl
    · rw [if_neg hnew, Nat.add_zero]
    · exact ⟨fun hz => ⟨hz, Nat.not_le.mp fun hge => hnew ⟨hge, hz⟩⟩, fun hz => hz.1⟩

/-- **The block for a round**: the one that was there, or a new one with zeroes in it. -/
theorem blockFor_spec :
    ∃ t st', (inodeAt i).blockFor d loc = .ok (t, getBlock ((inodeAt i).blockAt t loc)) ∧
      Grown i bot d st t st' ∧ Steady i d t ∧ st'.length + cost d i loc = st.length ∧
      (inodeAt i).blockAt t loc ≠ 0 ∧
      (∀ q < 1052, q ≠ loc → (inodeAt i).blockAt t q = (inodeAt i).blockAt d q) ∧
      ((inodeAt i).getIndirectBlockno t = 0 ↔ (inodeAt i).getIndirectBlockno d = 0 ∧ loc < 28) := by
  obtain ⟨t, st', hfind, hgrown, hsteady, hlen, hblocks, hind⟩ := findBlock_spec h hi hloc hroom
  have hit : IsFile t i := hgrown.isFile h hi
  have hcost : cost d i loc = (if (inodeAt i).blockAt t loc = 0 then 1 else 0) +
      if 28 ≤ loc ∧ (inodeAt i).getIndirectBlockno d = 0 then 1 else 0 := by
    rw [cost, hblocks loc hloc]
  by_cases hnone : (inodeAt i).blockAt t loc = 0
  · rw [if_pos hnone] at hcost
    obtain ⟨b, st', rfl⟩ : ∃ b st₁, st' = b :: st₁ := exists_cons_of_length_pos (by omega)
    have hneed : 28 ≤ loc → loc < 1052 → (inodeAt i).getIndirectBlockno t ≠ 0 := fun hge _ hz =>
      absurd (hind.mp hz).2 (by omega)
    obtain ⟨u, v, halloc, rfl, hb, hb0, -, hgrown', hblock, hsteady'⟩ :=
      hgrown.layout.grow hit hloc.le hnone hneed
    have hhere := hblock loc
    rw [if_pos rfl] at hhere
    refine ⟨_, st', ?_, hgrown.trans hgrown', hsteady.trans hsteady', ?_, ?_,
      fun q hq hne => ?_, ?_⟩
    · rw [Inode.blockFor, hfind, ok_bind, Inode.attach, if_pos hnone, halloc, ok_bind, hhere]
      dsimp only
      by_cases hdirect : loc < 28
      · have hset :
          (inodeAt i).setDirectBlockno ((getBlock b).zero u) loc (getBlock b).blockno = .ok _ :=
          (if_pos hdirect).trans (put_eq hb)
        rw [if_pos (show loc < s5NdirectBlocks from hdirect), hset, place, if_pos hdirect]
        rfl
      · rw [if_neg (show ¬ loc < s5NdirectBlocks from hdirect), place, if_neg hdirect, if_pos hloc,
          Block.write, if_neg (by
            rw [length_pack]
            simp only [s5BlockSize, s5NdirectBlocks]
            omega)]
        rfl
    · rw [length_cons] at hlen
      omega
    · rw [hhere]
      exact hb0
    · rw [hblock, if_neg hne, hblocks q hq]
    · have hlast := hblock 1052
      rw [if_neg (by omega), blockAt_indirect, blockAt_indirect] at hlast
      rw [hlast]
      exact hind
  · rw [if_neg hnone] at hcost
    refine ⟨t, st', ?_, hgrown, hsteady, by omega, hnone, fun q hq _ => hblocks q hq, hind⟩
    rw [blockFor, hfind, ok_bind]
    exact if_neg hnone

end

end

/-! ## 3. Writing -/

/-- Data in one of its blocks changes the file there, and nothing else. -/
theorem Layout.writeData {bot : List Nat} {pos : Nat} (h : Layout d st bot)
    (hi : IsFile d i) (hpos : pos < 1052) (hne : (inodeAt i).blockAt d pos ≠ 0) (off : Nat)
    (data : List UInt8) (hfit : off + data.length ≤ 4096) :
    Grown i bot d st (Mem.write d (4096 * (inodeAt i).blockAt d pos + off) data) st ∧
    (∀ q, (inodeAt i).blockAt (Mem.write d (4096 * (inodeAt i).blockAt d pos + off) data) q =
      (inodeAt i).blockAt d q) ∧
    (inodeAt i).getSize (Mem.write d (4096 * (inodeAt i).blockAt d pos + off) data) =
      (inodeAt i).getSize d ∧
    ∀ k < 4096 * 1052,
      (inodeAt i).stored (Mem.write d (4096 * (inodeAt i).blockAt d pos + off) data) k
      = Mem.write ((inodeAt i).stored d) (4096 * pos + off) data k := by
  obtain ⟨hfar, hfree⟩ := h.file i hi pos hne
  have hrec := record_lt hi.1 hfar
  generalize hb : (inodeAt i).blockAt d pos = b at *
  generalize ht : Mem.write d (4096 * b + off) data = t
  have hout : ∀ x, x / 4096 ≠ b → t x = d x := fun x hx => by
    rw [← ht]
    exact write_of_not_mem (by omega)
  have hwithin : Within d t i (Mine d st i) := fun x _ _ hm =>
    hout x fun heq => hm (.inr ⟨by omega, pos, by omega⟩)
  have hnum := h.numInodes hi hwithin
  have hheader : ∀ x, 4096 + 128 * i ≤ x → x < 4096 + 128 * i + 12 → t x = d x := fun x hle hlt =>
    hout x (by omega)
  have hself : ∀ q, (inodeAt i).blockAt t q = (inodeAt i).blockAt d q := by
    refine blockAt_congr (fun x hle hlt => hout x ?_) fun hind x hle hlt => hout x ?_
    · change x < 4096 + 128 * i + 128 at hlt
      omega
    · rw [← blockAt_indirect] at hind hle hlt
      intro heq
      have := (h.own i i hi hi 1052 pos (by omega) hind).2
      omega
  have hfile : ∀ j, IsFile t j → IsFile d j := fun j => h.isFile hi hwithin
  have hblocks : ∀ j, IsFile t j → ∀ q, (inodeAt j).blockAt t q = (inodeAt j).blockAt d q :=
    fun j hj q => by
    obtain rfl | hji := eq_or_ne j i
    · exact hself q
    · exact (h.untouched hi hwithin (hfile j hj).1 hji).blockAt (hfile j hj).2 q
  refine ⟨⟨h.keep suffix_rfl ?_ hnum hfile hblocks, suffix_rfl, hwithin,
    fun x hle hlt => hheader x (by omega) hlt, fun q _ => hself q, fun q _ => .inl (hself q)⟩,
      hself,
    getSize_congr fun x hle hlt => hheader x hle (by omega), fun k hk => ?_⟩
  · refine h.stack.keep h.short (fun x hle hlt => hout x (by omega)) fun c hc x hle hlt => hout x ?_
    intro heq
    exact hfree (by rwa [show b = c by omega])
  · by_cases hk' : k / 4096 = pos
    · have hstored : (inodeAt i).stored d k = d (4096 * b + k % 4096) := by
        rw [stored, hk', hb, if_neg hne]
      rw [stored, hself, hk', hb, if_neg hne, ← ht, Mem.write, Mem.write, hstored]
      have hplace : 4096 * b + k % 4096 - (4096 * b + off) = k - (4096 * pos + off) := by omega
      rw [hplace]
      by_cases hle : 4096 * pos + off ≤ k
      · rw [if_pos hle, if_pos (by omega)]
      · rw [if_neg hle, if_neg (by omega)]
    · rw [write_of_not_mem (by omega), stored, stored, hself]
      split
      · rfl
      next hq =>
        refine hout _ fun heq => hk' (h.own i i hi hi _ pos ?_ hq).2
        omega

theorem write_append (m : Mem) (a : Nat) (xs ys : List UInt8) :
    (m.write a xs).write (a + xs.length) ys = m.write a (xs ++ ys) := by
  funext x
  unfold Mem.write
  by_cases hle : a + xs.length ≤ x
  · rw [if_pos hle, if_pos (by omega), if_pos (by omega), getElem?_append_right (by omega),
      getElem?_eq_none (l := xs) (by omega), Option.getD_none, Nat.sub_sub]
  · rw [if_neg hle]
    by_cases hx : a ≤ x
    · rw [if_pos hx, if_pos hx, getElem?_append_left (by omega)]
    · rw [if_neg hx, if_neg hx]

/-- The data blocks that the bytes from `offset` on are in. -/
def touched (offset len : Nat) : List Nat :=
  if len = 0 then []
  else List.range' (offset / 4096) ((offset + len - 1) / 4096 - offset / 4096 + 1)

/-- The blocks a write takes from the list: the data blocks that are missing, and the indirect block
if it is missing and needed. -/
def need (d : Simdisk) (i : Nat) (locs : List Nat) : Nat :=
  (locs.filter fun loc => (inodeAt i).blockAt d loc = 0).length +
    if (inodeAt i).getIndirectBlockno d = 0 ∧ ∃ loc ∈ locs, 28 ≤ loc then 1 else 0

theorem touched_round (offset : Nat) (hlen : 0 < len) : touched offset len = offset / 4096 ::
      touched (offset + min (4096 - offset % 4096) len) (len - min (4096 - offset % 4096) len) := by
  unfold touched
  rw [if_neg (by omega), Nat.add_comm _ 1, Nat.one_add, range'_succ]
  obtain hle | hgt := lt_or_ge (4096 - offset % 4096) len |>.symm
  · rw [Nat.min_eq_right hle, if_pos (Nat.sub_self len),
      show (offset + len - 1) / 4096 - offset / 4096 = 0 by omega]
    rfl
  · rw [Nat.min_eq_left (by omega), if_neg (by omega)]
    congr 2 <;> omega

theorem lt_of_mem_touched (h : loc ∈ touched offset len) :
    0 < len ∧ offset / 4096 ≤ loc ∧ 4096 * loc < offset + len := by
  unfold touched at h
  split at h
  · cases h
  · rw [mem_range'_1] at h
    omega

theorem cost_le_need : cost d i loc ≤ need d i (loc :: rest) := by
  refine Nat.add_le_add ?_ ?_
  · split
    case isTrue hz =>
      rw [filter_cons_of_pos (by simpa using hz), length_cons]
      omega
    case isFalse => exact Nat.zero_le _
  · split
    case isTrue hc => rw [if_pos ⟨hc.2, loc, .head _, hc.1⟩]
    case isFalse => exact Nat.zero_le _

/-- What the later rounds need, after the first. -/
theorem need_cons (hrest : ∀ q ∈ rest, q < 1052 ∧ q ≠ loc)
    (hblocks : ∀ q < 1052, q ≠ loc → (inodeAt i).blockAt t q = (inodeAt i).blockAt d q)
    (hind : (inodeAt i).getIndirectBlockno t = 0 ↔
      (inodeAt i).getIndirectBlockno d = 0 ∧ loc < 28) :
    need d i (loc :: rest) = cost d i loc + need t i rest := by
  have hfilter : rest.filter (fun q => (inodeAt i).blockAt t q = 0)
      = rest.filter fun q => (inodeAt i).blockAt d q = 0 :=
    filter_congr fun q hq => by rw [hblocks q (hrest q hq).1 (hrest q hq).2]
  have hhead : ((loc :: rest).filter fun q => (inodeAt i).blockAt d q = 0).length
      = (if (inodeAt i).blockAt d loc = 0 then 1 else 0)
        + (rest.filter fun q => (inodeAt i).blockAt d q = 0).length := by
    by_cases hz : (inodeAt i).blockAt d loc = 0
    · rw [filter_cons_of_pos (by simpa using hz), length_cons, if_pos hz, Nat.add_comm]
    · rw [filter_cons_of_neg (by simpa using hz), if_neg hz, Nat.zero_add]
  have hflag : (if (inodeAt i).getIndirectBlockno d = 0 ∧ ∃ q ∈ loc :: rest, 28 ≤ q then 1 else 0)
      = (if 28 ≤ loc ∧ (inodeAt i).getIndirectBlockno d = 0 then 1 else 0)
        + if (inodeAt i).getIndirectBlockno t = 0 ∧ ∃ q ∈ rest, 28 ≤ q then 1 else 0 := by
    by_cases hz : (inodeAt i).getIndirectBlockno d = 0
    · by_cases hge : 28 ≤ loc
      · rw [if_pos ⟨hz, loc, .head _, hge⟩, if_pos ⟨hge, hz⟩,
          if_neg fun hc => absurd (hind.mp hc.1).2 (by omega)]
      · rw [if_neg (c := 28 ≤ loc ∧ _) fun hc => hge hc.1, Nat.zero_add]
        have ht : (inodeAt i).getIndirectBlockno t = 0 := hind.mpr ⟨hz, by omega⟩
        simp only [hz, ht, true_and, mem_cons, exists_eq_or_imp, hge, false_or]
    · rw [if_neg fun hc => hz hc.1, if_neg fun hc => hz hc.2, if_neg fun hc => hz (hind.mp hc.1).1]
  rw [need, need, cost, hhead, hflag, hfilter]
  omega

section
variable {bot : List Nat} {i : Nat}

/-- **The loop of a write.** -/
theorem writeLoop_spec (fuel : Nat) :
    ∀ {d : Simdisk} {st : List Nat} (offset : Nat) (data : List UInt8), Layout d st bot →
      IsFile d i →
      data.length ≤ fuel → offset + data.length ≤ 4096 * 1052 →
      need d i (touched offset data.length) ≤ st.length →
      ∃ t st', (inodeAt i).writeLoop fuel d offset data = .ok (t, offset + data.length) ∧
        Grown i bot d st t st' ∧ (inodeAt i).getSize t = (inodeAt i).getSize d ∧
        ∀ k < 4096 * 1052,
          (inodeAt i).stored t k = Mem.write ((inodeAt i).stored d) offset data k := by
  induction fuel with
  | zero =>
    intro d st offset data h _ hfuel _ _
    obtain rfl : data = [] := eq_nil_of_length_eq_zero (by omega)
    exact ⟨d, st, rfl, .refl h, rfl, fun _ _ => (write_of_not_mem (by rw [length_nil]; omega)).symm⟩
  | succ fuel ih =>
    intro d st offset data h hi hfuel hmax hroom
    rw [writeLoop]
    by_cases hdata : data = []
    · subst hdata
      exact ⟨d, st, rfl, .refl h, rfl, fun _ _ =>
        (write_of_not_mem (by rw [length_nil]; omega)).symm⟩
    rw [if_neg hdata]
    have hlen : 0 < data.length := length_pos_of_ne_nil hdata
    generalize ha : min (s5BlockSize - offset % s5BlockSize) data.length = ammount
    have hammount : 0 < ammount ∧ ammount ≤ data.length ∧ offset % 4096 + ammount ≤ 4096 := by
      simp only [s5BlockSize] at ha
      omega
    have htouched := touched_round offset hlen
    rw [show min (4096 - offset % 4096) data.length = ammount from ha] at htouched
    have hloc : offset / s5BlockSize < 1052 := by
      simp only [s5BlockSize]
      omega
    have hroom' : cost d i (offset / s5BlockSize) ≤ st.length := by
      rw [htouched] at hroom
      exact cost_le_need.trans hroom
    obtain ⟨t, st₁, hfor, hgrown₁, hsteady₁, hlen₁, hne, hblocks, hind⟩ :=
      blockFor_spec h hi hloc hroom'
    dsimp only
    rw [ha, hfor, ok_bind]
    have hi₁ : IsFile t i := hgrown₁.isFile h hi
    have htake : (data.take ammount).length = ammount := by
      rw [length_take]
      omega
    have hdrop : (data.drop ammount).length = data.length - ammount := length_drop
    obtain ⟨hgrown₂, hblocks₂, hsize₂, hstored₂⟩ :=
      hgrown₁.layout.writeData hi₁ hloc hne (offset % 4096)
      (data.take ammount) (by omega)
    have hwrite :
      (getBlock ((inodeAt i).blockAt t (offset / s5BlockSize))).write t (offset % s5BlockSize)
        (data.take ammount) = .ok (Mem.write t (4096 * (inodeAt i).blockAt t (offset / s5BlockSize)
          + offset % 4096) (data.take ammount)) :=
      if_neg (by
        rw [htake]
        simp only [s5BlockSize]
        omega)
    rw [hwrite, ok_bind]
    generalize Mem.write t (4096 * (inodeAt i).blockAt t (offset / s5BlockSize) + offset % 4096)
      (data.take ammount) = u at hgrown₂ hblocks₂ hsize₂ hstored₂ ⊢
    have hgrown := hgrown₁.trans hgrown₂
    have hsize := hsize₂.trans hsteady₁.size
    have hplace : 4096 * (offset / s5BlockSize) + offset % 4096 = offset := Nat.div_add_mod ..
    rw [hplace] at hstored₂
    have hstored : ∀ k < 4096 * 1052, (inodeAt i).stored u k
        = Mem.write ((inodeAt i).stored d) offset (data.take ammount) k := fun k hk => by
      rw [hstored₂ k hk, Mem.write, Mem.write, hsteady₁.bytes k hk]
    have hlater : ∀ q ∈ touched (offset + ammount) (data.length - ammount),
        q < 1052 ∧ q ≠ offset / s5BlockSize := fun q hq => by
      have hq := lt_of_mem_touched hq
      simp only [s5BlockSize] at ha ⊢
      omega
    have hindu : (inodeAt i).getIndirectBlockno u = 0 ↔
        (inodeAt i).getIndirectBlockno d = 0 ∧ offset / s5BlockSize < 28 := by
      rw [← hind, ← blockAt_indirect, hblocks₂, blockAt_indirect]
    have hneed : need d i (touched offset data.length) = cost d i (offset / s5BlockSize)
        + need u i (touched (offset + ammount) (data.length - ammount)) := by
      rw [htouched]
      exact need_cons hlater (fun q hq hne' => (hblocks₂ q).trans (hblocks q hq hne')) hindu
    obtain ⟨v, st', hrest, hgrown', hsize', hstored'⟩ := ih (offset + ammount) (data.drop ammount)
      hgrown₂.layout (hgrown₂.isFile hgrown₁.layout hi₁) (by omega) (by omega)
        (by rw [hdrop]; omega)
    refine ⟨v, st', ?_, hgrown.trans hgrown', hsize'.trans hsize, fun k hk => ?_⟩
    · rw [hrest, hdrop, Nat.add_assoc, Nat.add_sub_cancel' hammount.2.1]
    · have hsplit := write_append ((inodeAt i).stored d) offset (data.take ammount)
        (data.drop ammount)
      rw [take_append_drop, htake] at hsplit
      rw [hstored' k hk, ← hsplit, Mem.write, Mem.write, hstored k hk]

theorem Layout.setSize (h : Layout d st bot) (hi : IsFile d i) {size : Nat}
    (hsize : size < 2 ^ 32) :
    Grown i bot d st (d.setWord (4096 + 128 * i) size) st ∧
      (inodeAt i).getSize (d.setWord (4096 + 128 * i) size) = size ∧
      ∀ k, (inodeAt i).stored (d.setWord (4096 + 128 * i) size) k = (inodeAt i).stored d k := by
  have hout : ∀ x, x < 4096 + 128 * i ∨ 4096 + 128 * i + 4 ≤ x →
      d.setWord (4096 + 128 * i) size x = d x := fun x hx => setWord_of_not_mem hx
  have hgot : (inodeAt i).getSize (d.setWord (4096 + 128 * i) size) = size := word_setWord hsize
  generalize d.setWord (4096 + 128 * i) size = t at hout hgot ⊢
  obtain ⟨hlayout, hblocks, hstored⟩ := h.setHeader hi hout
  exact ⟨⟨hlayout, suffix_rfl, fun x _ hx _ => hout x (by omega), fun x hle _ => hout x (by omega),
    fun q _ => hblocks q, fun q _ => .inl (hblocks q)⟩, hgot, hstored⟩

/-- **A write** returns, on a disk where each block has one use and the list has the blocks that
it needs. -/
theorem write_returns (h : Layout d st bot) (hi : IsFile d i) (offset : Nat) (data : List UInt8)
    (hmax : offset + data.length ≤ s5MaxFileSize)
    (henough : need d i (touched offset data.length) ≤ st.length) :
    ∃ t st', (inodeAt i).write d offset data = .ok t ∧ Grown i bot d st t st' ∧
      (inodeAt i).getSize t = max ((inodeAt i).getSize d) (offset + data.length) ∧
      ∀ k < 4096 * 1052,
        (inodeAt i).stored t k = Mem.write ((inodeAt i).stored d) offset data k := by
  obtain ⟨t, st', hloop, hgrown, hsize, hstored⟩ :=
    writeLoop_spec data.length offset data h hi le_rfl hmax henough
  unfold Inode.write
  simp only [hi.2, if_true, pure_eq_ok]
  rw [if_neg hmax.not_gt, hloop]
  simp only [ok_bind]
  by_cases hgt : offset + data.length > (inodeAt i).getSize t
  · have hbound : offset + data.length < 2 ^ 32 := hmax.trans_lt (by decide)
    obtain ⟨hgrown', hsize', hstored'⟩ := hgrown.layout.setSize (hgrown.isFile h hi) hbound
    refine ⟨_, st', (if_pos hgt).trans (put_eq hbound), hgrown.trans hgrown',
      hsize'.trans (by omega), fun k hk => (hstored' k).trans (hstored k hk)⟩
  · exact ⟨t, st', if_neg hgt, hgrown, by omega, hstored⟩

end

/-! ## 4. The array -/

/-- The array in which `data` overwrites `old` at `offset`; between the end of `old` and `offset`
it is zero. -/
def splice (old : List UInt8) (offset : Nat) (data : List UInt8) : List UInt8 :=
  (old ++ List.replicate (offset - old.length) 0).take offset ++ data ++
    old.drop (offset + data.length)

theorem getElem?_splice (old : List UInt8) (offset : Nat) (data : List UInt8) (k : Nat) :
    (splice old offset data)[k]? =
      if k < offset then (if k < old.length then old[k]? else some 0)
      else if k < offset + data.length then data[k - offset]? else old[k]? := by
  have hfront : ((old ++ replicate (offset - old.length) 0).take offset).length = offset := by
    rw [length_take, length_append, length_replicate]
    omega
  unfold splice
  rw [append_assoc]
  by_cases hk : k < offset
  · rw [if_pos hk, getElem?_append_left (by omega), getElem?_take_of_lt hk]
    by_cases hold : k < old.length
    · rw [if_pos hold, getElem?_append_left hold]
    · rw [if_neg hold, getElem?_append_right (by omega), getElem?_replicate, if_pos (by omega)]
  · rw [if_neg hk, getElem?_append_right (by omega), hfront]
    by_cases hdata : k < offset + data.length
    · rw [if_pos hdata, getElem?_append_left (by omega)]
    · rw [if_neg hdata, getElem?_append_right (by omega), getElem?_drop]
      congr 1
      omega

theorem getElem?_contents (d : Simdisk) (n : Inode) (k : Nat) :
    (n.contents d)[k]? = if k < min s5MaxFileSize (n.getSize d) then some (n.stored d k)
      else none := by
  unfold contents
  rw [getElem?_map]
  split
  case isTrue hk => rw [getElem?_range hk, Option.map_some]
  case isFalse hk =>
    rw [getElem?_eq_none (by rw [length_range]; omega)]
    rfl

theorem Untouched.read {j : Nat} (h : Untouched d t j) (offset size : Nat) :
    (inodeAt j).read t offset size = (inodeAt j).read d offset size := by
  by_cases hfile : (inodeAt j).hasBlocks d = true
  · have hstored : (inodeAt j).stored t = (inodeAt j).stored d := funext (h.stored hfile)
    rw [read_eq (h.hasBlocks.trans hfile), read_eq hfile, contents, contents, h.size, hstored]
  · have hstr : (inodeAt j).getTypeStr t = (inodeAt j).getTypeStr d := by
      unfold getTypeStr
      rw [h.type]
    unfold Inode.read
    rw [h.hasBlocks, if_neg hfile, if_neg hfile, hstr]
    rfl

/-- **The file acts as an array of bytes**: the write returns, and after it every read returns its
part of the array; nothing that another inode shows is changed, and each block still has one use. -/
def ActsAsArray (d : Simdisk) (i : Nat) (n : Inode) (offset : Nat) (data : List UInt8) : Prop :=
  ∃ t, n.write d offset data = .ok t ∧
    (∀ o s, n.read t o s = .ok (((splice (n.contents d) offset data).drop o).take s)) ∧
    (data ≠ [] → n.getSize t = max (n.getSize d) (offset + data.length)) ∧
    (∀ j m, d.getInode j = .ok m → j ≠ i → t.getInode j = .ok m ∧ ∀ o s,
      m.read t o s = m.read d o s) ∧
    ∃ st, Layout t st []

section
variable {d : Simdisk} {st : List Nat} {i : Nat}

/-- Where the write leaves the array: nothing but the bytes between the old end and `offset`
can differ. -/
theorem contents_eq_splice {n : Inode} {data : List UInt8}
    (hmax : offset + data.length ≤ s5MaxFileSize)
    (hsize : n.getSize t = max (n.getSize d) (offset + data.length))
    (hstored : ∀ k < 4096 * 1052, n.stored t k = Mem.write (n.stored d) offset data k) :
    n.contents t = splice (n.contents d) offset data ↔
      ∀ k, n.getSize d ≤ k → k < offset → n.stored d k = 0 := by
  have hlimit : s5MaxFileSize = 4096 * 1052 := rfl
  have hlen : (n.contents d).length = min s5MaxFileSize (n.getSize d) := by
    rw [contents, length_map, length_range]
  have hbefore : ∀ k < offset, n.stored t k = n.stored d k := fun k hk =>
    (hstored k (by omega)).trans (Mem.write_of_not_mem (.inl hk))
  constructor
  · intro heq k hge hlt
    have hk : (n.contents t)[k]? = (splice (n.contents d) offset data)[k]? := by rw [heq]
    rw [getElem?_splice, getElem?_contents, hsize, hlen, if_pos (by omega), if_pos hlt,
      if_neg (by omega), hbefore k hlt] at hk
    exact Option.some.inj hk
  · intro hgap
    refine ext_getElem? fun k => ?_
    rw [getElem?_splice, getElem?_contents, hsize, hlen, getElem?_contents]
    by_cases hk : k < offset
    · rw [if_pos (by omega), if_pos hk, hbefore k hk]
      by_cases hold : k < min s5MaxFileSize (n.getSize d)
      · rw [if_pos hold, if_pos hold]
      · rw [if_neg hold, hgap k (by omega) hk]
    · rw [if_neg hk]
      by_cases hdata : k < offset + data.length
      · have hsome : data[k - offset]? = some (data[k - offset]) := getElem?_eq_getElem (by omega)
        rw [if_pos (by omega), if_pos hdata, hstored k (by omega),
          Mem.write_of_mem (by omega) hsome, hsome]
      · rw [if_neg hdata]
        by_cases hold : k < min s5MaxFileSize (n.getSize d)
        · rw [if_pos hold, if_pos (by omega), hstored k (by omega),
            Mem.write_of_not_mem (.inr (by omega))]
        · rw [if_neg hold, if_neg (by omega)]

/-- **Files are arrays of bytes where nothing lies behind their end.**  On a disk where every block
has one use and enough blocks are free, a write makes the file the array that it should be, shows
nothing of it elsewhere and leaves the disk in order, exactly if the bytes that its blocks hold
between the old size and `offset` are zero. -/
theorem write_bytes (h : Layout d st []) {n : Inode} (hn : d.getInode i = .ok n)
    (hfile : n.hasBlocks d = true)
    (offset : Nat) (data : List UInt8) (hmax : offset + data.length ≤ s5MaxFileSize)
    (henough : need d i (touched offset data.length) ≤ st.length) :
    ActsAsArray d i n offset data ↔ ∀ k, n.getSize d ≤ k → k < offset → n.stored d k = 0 := by
  obtain ⟨hlt, rfl⟩ := getInode_inv hn
  have hi : IsFile d i := ⟨hlt, hfile⟩
  obtain ⟨t, st', hwrite, hgrown, hsize, hstored⟩ := write_returns h hi offset data hmax henough
  have hread : ∀ o s, (inodeAt i).read t o s = .ok ((((inodeAt i).contents t).drop o).take s) :=
    read_eq (hgrown.isFile h hi).2
  rw [← contents_eq_splice hmax hsize hstored]
  constructor
  · rintro ⟨t', hwrite', harray, -⟩
    obtain rfl := Except.ok.inj (hwrite.symm.trans hwrite')
    generalize splice ((inodeAt i).contents d) offset data = array at harray ⊢
    -- a read of the whole file, and of the whole array
    have hall := Except.ok.inj
      ((hread 0 (((inodeAt i).contents t).length + array.length)).symm.trans (harray 0 _))
    rwa [drop_zero, drop_zero, take_of_length_le (by omega), take_of_length_le (by omega)] at hall
  · intro harray
    refine ⟨t, hwrite, fun o s => harray ▸ hread o s, fun _ => hsize, fun j m hj hne => ?_, st',
      hgrown.layout⟩
    obtain ⟨hjlt, rfl⟩ := getInode_inv hj
    have hnum : t.word 136 = d.word 136 := h.numInodes hi hgrown.within
    exact ⟨getInode_of_lt (hnum.symm ▸ hjlt), (h.untouched hi hgrown.within hjlt hne).read⟩

end

/-- One file of one byte in block 2, which begins with the bytes of `word`; nothing is free. -/
def oneFile (word : Nat) : Simdisk :=
  let empty : Mem := fun _ => 0
  let super := (empty.setWord 128 listEnd).setWord 136 1
  let inode := ((super.setWord 4096 1).setWord 4104 s5TypeData).setWord 4108 2
  inode.setWord 8192 word

theorem layout_of_oneFile (hnum : d.word 136 = 1) (hnfree : d.word 8 = 0)
    (hlast : d.word 128 = listEnd)
    (hdirect : ∀ pos < 28, d.word (4096 + 12 + pos * 4) = if pos = 0 then 2 else 0)
    (hind : (inodeAt 0).getIndirectBlockno d = 0) : Layout d [] [] := by
  have hblock : ∀ pos, (inodeAt 0).blockAt d pos = if pos = 0 then 2 else 0 := fun pos => by
    obtain hlt | hge := lt_or_ge pos 28
    · rw [blockAt_direct hlt]
      exact hdirect pos hlt
    · rw [blockAt_of_no_indirect hge hind, if_neg (by omega)]
  have hzero : ∀ {i}, IsFile d i → i = 0 := fun hi => by
    have := hi.1
    omega
  refine ⟨FreeStack.of_end hnfree hlast, .nil, fun _ hb => absurd hb not_mem_nil, ?_, ?_,
    Nat.zero_le _, fun _ hb => absurd hb not_mem_nil⟩
  · rintro i hi pos hne
    obtain rfl := hzero hi
    have hpos : pos = 0 := by
      by_contra hpos
      exact hne (by rw [hblock, if_neg hpos])
    refine ⟨?_, not_mem_nil⟩
    rw [tableEnd_eq, hnum, hblock, if_pos hpos]
    decide
  · rintro i j hi hj p q heq hne
    obtain rfl := hzero hi
    obtain rfl := hzero hj
    rw [hblock, hblock] at heq
    rw [hblock] at hne
    refine ⟨rfl, ?_⟩
    split at hne
    case isTrue hp =>
      rw [if_pos hp] at heq
      split at heq
      case isTrue hq => exact hp.trans hq.symm
      case isFalse => cases heq
    case isFalse => exact absurd rfl hne

theorem write_bytes_oneFile : Layout (oneFile 0x61) [] [] ∧
    ActsAsArray (oneFile 0x61) 0 (inodeAt 0) 2 [0x63] := by
  have hlayout : Layout (oneFile 0x61) [] [] :=
    layout_of_oneFile (by decide +kernel) (by decide +kernel) (by decide +kernel)
      (by decide +kernel)
      (by decide +kernel)
  refine ⟨hlayout,
    (write_bytes hlayout (getInode_of_lt (by decide +kernel)) (by decide +kernel) 2
    [0x63] (by decide)
    (by decide +kernel)).mpr ?_⟩
  have hsize : (inodeAt 0).getSize (oneFile 0x61) = 1 := by decide +kernel
  intro k hge hlt
  obtain rfl : k = 1 := by omega
  decide +kernel

/-- The byte behind the end, `b`, is in the file when `c` is written after it. -/
theorem stale_byte_read : Layout (oneFile 0x6261) [] [] ∧
    (oneFile 0x6261).getInode 0 = .ok (inodeAt 0) ∧
      (inodeAt 0).read (oneFile 0x6261) 0 10 = .ok [0x61] ∧
      ((inodeAt 0).write (oneFile 0x6261) 2 [0x63] >>= fun t => (inodeAt 0).read t 0 10) =
        .ok [0x61, 0x62, 0x63] ∧
      splice ((inodeAt 0).contents (oneFile 0x6261)) 2 [0x63] = [0x61, 0, 0x63] ∧
      ¬ ActsAsArray (oneFile 0x6261) 0 (inodeAt 0) 2 [0x63] := by
  have hread : ((inodeAt 0).write (oneFile 0x6261) 2 [0x63] >>= fun t => (inodeAt 0).read t 0 10)
      = .ok [0x61, 0x62, 0x63] := by decide +kernel
  have harray : splice ((inodeAt 0).contents (oneFile 0x6261)) 2 [0x63] = [0x61, 0, 0x63] := by
    decide +kernel
  refine ⟨layout_of_oneFile (by decide +kernel) (by decide +kernel) (by decide +kernel)
    (by decide +kernel)
    (by decide +kernel), getInode_of_lt (by decide +kernel), by decide +kernel, hread, harray, ?_⟩
  rintro ⟨t, hwrite, hrange, -⟩
  rw [hwrite, ok_bind, hrange, harray] at hread
  exact absurd hread (by decide)

end Weenix.S5fs
