/-
# The buddy invariant, and what each list operation does to it

The allocator is right when the blocks on the free lists and the blocks handed out tile the
group (`Core.tiles`), every block is aligned to its size (`Core.freeAt`, `Core.liveAt`), and
every bit of every bitmap is the parity of the free halves of its pair (`Bits`).

Four moves carry all of `page.c`:

* `core_take`: a block leaves the head of a free list and is handed out;
* `core_give`: a block handed out joins a free list;
* `core_cut`:  a block handed out is replaced by its two halves on the list below;
* `core_glue`: two free halves are replaced by their union, handed out.

A split is a take and a cut, a merge is a glue and a give, so no bit is reasoned about twice.
-/
import Mathlib.Tactic.Ring
import Weenix.Lib.Tiling
import Weenix.Mm.Page

namespace Weenix.Page

open Tile List Pagegroup Bool

variable {b : Blk} {l : List Nat} {a' i k k' n o o' : Nat} {map : Nat → List Bool} {g : Pagegroup}

/-! ## 1. Block arithmetic -/

theorem blockSize_eq (o : Nat) : blockSize o = 2 ^ o * pageSize := by
  simp [blockSize, pageSize, pageShift, Nat.shiftLeft_eq]

theorem blockSize_pos (o : Nat) : 0 < blockSize o := by
  rw [blockSize_eq, pageSize_eq]
  exact Nat.mul_pos (Nat.two_pow_pos o) (by decide)

theorem blockSize_succ (o : Nat) : blockSize (o + 1) = 2 * blockSize o := by
  rw [blockSize_eq, blockSize_eq, pow_succ]; ring

theorem blockSize_dvd (h : o ≤ o') : blockSize o ∣ blockSize o' := by
  rw [blockSize_eq, blockSize_eq]
  exact Nat.mul_dvd_mul_right (pow_dvd_pow 2 h) _

theorem blockSize_inj (h : blockSize o = blockSize o') : o = o' := by
  rw [blockSize_eq, blockSize_eq] at h
  exact Nat.pow_right_injective (le_refl 2) (Nat.eq_of_mul_eq_mul_right (by decide) h)

-- Unfolded, a block's size is counted up in ones.
attribute [local irreducible] blockSize

/-- The `k`-th block of order `o`, counted from the base of the group. -/
def Pagegroup.at (g : Pagegroup) (o k : Nat) : Nat := g.pgBaseaddr + k * blockSize o

theorem at_inj (h : g.at o k = g.at o k') : k = k' :=
  Nat.eq_of_mul_eq_mul_right (blockSize_pos o) (Nat.add_left_cancel h)

theorem at_ne (g : Pagegroup) (o : Nat) (h : k ≠ k') : g.at o k ≠ g.at o k' :=
  fun e => h (at_inj e)

theorem at_succ_order (g : Pagegroup) (o k : Nat) : g.at (o + 1) k = g.at o (2 * k) := by
  simp only [Pagegroup.at, blockSize_succ]; ring

theorem at_succ (g : Pagegroup) (o k : Nat) : g.at o (k + 1) = g.at o k + blockSize o := by
  simp only [Pagegroup.at]; ring

/-- A whole pair lies in the group when one of its halves does: the group is a whole number of
larger blocks. -/
theorem pair_in_span {b d : Nat} (hb : 0 < b) (hd : 2 * b ∣ d) (h : (k + 1) * b ≤ d) :
    (k / 2 + 1) * (2 * b) ≤ d := by
  obtain ⟨m, rfl⟩ := hd
  have h1 : (k + 1) * b ≤ (2 * m) * b := by
    calc (k + 1) * b ≤ 2 * b * m := h
      _ = (2 * m) * b := by ring
  have h2 : k + 1 ≤ 2 * m := Nat.le_of_mul_le_mul_right h1 hb
  have h3 : k / 2 + 1 ≤ m := by omega
  calc (k / 2 + 1) * (2 * b) ≤ m * (2 * b) := Nat.mul_le_mul_right _ h3
    _ = 2 * b * m := by ring

/-! ## 2. The blocks on the free lists -/

/-- The block of order `o` at address `a`. -/
def blk (o a : Nat) : Blk := ⟨a, blockSize o⟩

@[simp] theorem blk_lo (o a : Nat) : (blk o a).lo = a := rfl

@[simp] theorem blk_len (o a : Nat) : (blk o a).len = blockSize o := rfl

theorem blk_inj {a : Nat} (h : blk o a = blk o' a') : o = o' ∧ a = a' := by
  simp only [blk, Blk.mk.injEq] at h
  exact ⟨blockSize_inj h.2, h.1⟩

/-- All blocks on the free lists of orders below `n`. -/
def listBlks (n : Nat) (fl : Nat → List Nat) : List Blk :=
  (List.range n).flatMap fun o => (fl o).map (blk o)

/-- All blocks on the free lists of the group. -/
def freeBlks (g : Pagegroup) : List Blk := listBlks pageNsizes g.pgFreelist

theorem listBlks_succ (n : Nat) (fl : Nat → List Nat) :
    listBlks (n + 1) fl = listBlks n fl ++ (fl n).map (blk n) := by
  simp [listBlks, range_succ, flatMap_append]

theorem mem_listBlks {fl : Nat → List Nat} :
    b ∈ listBlks n fl ↔ ∃ o < n, ∃ a ∈ fl o, b = blk o a := by
  simp only [listBlks, mem_flatMap, mem_range, mem_map, eq_comm]

theorem mem_freeBlks : b ∈ freeBlks g ↔ ∃ o < pageNsizes, ∃ a ∈ g.pgFreelist o, b = blk o a :=
  mem_listBlks

theorem listBlks_update_ge (ho : n ≤ o) (fl : Nat → List Nat) (l : List Nat) :
    listBlks n (update fl o l) = listBlks n fl := by
  simp only [listBlks]
  refine flatMap_congr fun o' ho' => ?_
  rw [update_of_ne]
  have := mem_range.mp ho'
  omega

theorem listBlks_update (fl : Nat → List Nat) (l l' : List Nat) (a : Nat) (hl : l'.Perm (a :: l)) :
    ∀ {n : Nat}, o < n →
      (listBlks n (update fl o l')).Perm
        (blk o a :: listBlks n (update fl o l))
  | 0, ho => absurd ho (Nat.not_lt_zero _)
  | n + 1, ho => by
    rw [listBlks_succ, listBlks_succ]
    obtain h | rfl := Nat.lt_succ_iff_lt_or_eq.mp ho
    · rw [update_of_ne (by omega), update_of_ne (by omega)]
      exact (listBlks_update fl l l' a hl h).append_right _
    · rw [update_self, update_self, listBlks_update_ge (le_refl _), listBlks_update_ge (le_refl _)]
      exact ((hl.map _).append_left _).trans perm_middle

/-- The group with another list for the order `o` and other bitmaps. -/
def Pagegroup.setList (g : Pagegroup) (o : Nat) (l : List Nat) (map : Nat → List Bool) :
    Pagegroup :=
  { g with pgFreelist := update g.pgFreelist o l, pgMap := map }

section
variable (g : Pagegroup) (o : Nat) (l : List Nat) (map : Nat → List Bool)

@[simp] theorem setList_map : (g.setList o l map).pgMap = map := rfl

@[simp] theorem setList_at (o' k : Nat) : (g.setList o l map).at o' k = g.at o' k := rfl

@[simp] theorem setList_self : (g.setList o l map).pgFreelist o = l := update_self ..

theorem setList_ne (h : o' ≠ o) : (g.setList o l map).pgFreelist o' = g.pgFreelist o' :=
  update_of_ne h _ _

@[simp] theorem setList_setList (l' : List Nat) (map' : Nat → List Bool) :
    (g.setList o l map).setList o l' map' = g.setList o l' map' := by
  simp [setList]

theorem setList_eq_self : g.setList o (g.pgFreelist o) g.pgMap = g := by
  simp [setList]

end

/-! ## 3. The bitmaps record the parity of the free halves -/

/-- The `k`-th block of order `o` is on the free list of `o`. -/
def freeBit (fl : Nat → List Nat) (base o k : Nat) : Bool :=
  (fl o).contains (base + k * blockSize o)

@[simp] theorem freeBit_update_self (fl : Nat → List Nat) (base o k : Nat) (l : List Nat) :
    freeBit (update fl o l) base o k = l.contains (base + k * blockSize o) := by
  simp [freeBit]

theorem freeBit_update_ne (h : o' ≠ o) (fl : Nat → List Nat) (base k : Nat)
    (l : List Nat) : freeBit (update fl o l) base o' k = freeBit fl base o' k := by
  simp [freeBit, update_of_ne h]

/-- Bit `i` of `pg_map[o + 1]` is the exclusive or of "the left half of block `i` is free" and
"the right half is free", for every block of order `o + 1` of the group. -/
def Bits (base span : Nat) (fl : Nat → List Nat) (map : Nat → List Bool) : Prop :=
  ∀ o < pageNsizes - 1, ∀ i, (i + 1) * blockSize (o + 1) ≤ span →
    (map (o + 1))[i]? = some (xor (freeBit fl base o (2 * i)) (freeBit fl base o (2 * i + 1)))

section
variable {base span : Nat} {fl : Nat → List Nat} {map : Nat → List Bool} {o : Nat} {l : List Nat}

/-- A block changes sides on the list of `o` and the bit of its pair is flipped. -/
theorem Bits.toggle (h : Bits base span fl map) (ho : o < pageNsizes - 1)
    (hk : (k / 2 + 1) * blockSize (o + 1) ≤ span)
    (hself : l.contains (base + k * blockSize o) = !freeBit fl base o k)
    (hother : ∀ k', k' ≠ k → l.contains (base + k' * blockSize o) = freeBit fl base o k') :
    ∃ m, bitFlip (map (o + 1)) (k / 2) = .ok m ∧
      Bits base span (update fl o l) (update map (o + 1) m) := by
  have hbit := h o ho _ hk
  have hlen : k / 2 < (map (o + 1)).length := (List.getElem?_eq_some_iff.mp hbit).1
  refine ⟨_, by rw [bitFlip, hbit], ?_⟩
  intro o' ho' i hi
  by_cases hoo : o' = o
  · subst hoo
    simp only [update_self, freeBit_update_self]
    by_cases hik : i = k / 2
    · subst hik
      rw [getElem?_set_self hlen]
      -- exactly one of the two halves is the block that moved
      obtain ⟨j, rfl | rfl⟩ := Nat.even_or_odd' k
      · have e1 : 2 * j / 2 = j := by omega
        rw [e1, hself, hother (2 * j + 1) (by omega), Bool.not_xor]
      · have e1 : (2 * j + 1) / 2 = j := by omega
        rw [e1, hself, hother (2 * j) (by omega), xor_not]
    · rw [getElem?_set_ne (fun e => hik e.symm), h o' ho' i hi,
        hother (2 * i) (by omega), hother (2 * i + 1) (by omega)]
  · rw [update_of_ne (by omega), h o' ho' i hi, freeBit_update_ne hoo, freeBit_update_ne hoo]

/-- The list of the largest order has no bitmap above it. -/
theorem Bits.update_top (h : Bits base span fl map) (ho : pageNsizes - 1 ≤ o) :
    Bits base span (update fl o l) map := by
  intro o' ho' i hi
  have hne : o' ≠ o := by omega
  rw [h o' ho' i hi, freeBit_update_ne hne, freeBit_update_ne hne]

/-- Both halves of one pair change sides together: the parity stays. -/
theorem Bits.both (h : Bits base span fl map)
    (hl : l.contains (base + 2 * i * blockSize o) = !freeBit fl base o (2 * i))
    (hr : l.contains (base + (2 * i + 1) * blockSize o) = !freeBit fl base o (2 * i + 1))
    (hother : ∀ k', k' ≠ 2 * i → k' ≠ 2 * i + 1 →
      l.contains (base + k' * blockSize o) = freeBit fl base o k') :
    Bits base span (update fl o l) map := by
  intro o' ho' j hj
  rw [h o' ho' j hj]
  by_cases hoo : o' = o
  · subst hoo
    simp only [freeBit_update_self]
    by_cases hij : j = i
    · subst hij
      rw [hl, hr, Bool.not_xor, Bool.xor_not, Bool.not_not]
    · rw [hother (2 * j) (by omega) (by omega), hother (2 * j + 1) (by omega) (by omega)]
  · rw [freeBit_update_ne hoo, freeBit_update_ne hoo]

end

/-! ## 4. The invariant of a group -/

/-- The block a caller holds, from its order and address. -/
def liveBlk (b : Nat × Nat) : Blk := blk b.1 b.2

/-- What every step of `page.c` keeps about a group, `live` being the blocks of the group that
are handed out, each as its order and address. -/
structure Core (g : Pagegroup) (live : List (Nat × Nat)) : Prop where
  basePage : pageSize ∣ g.pgBaseaddr
  le : g.pgBaseaddr ≤ g.pgEndaddr
  span : blockSize (pageNsizes - 1) ∣ g.pgEndaddr - g.pgBaseaddr
  orders : ∀ o, pageNsizes ≤ o → g.pgFreelist o = []
  tiles : Tiles (freeBlks g ++ live.map liveBlk) g.pgBaseaddr g.pgEndaddr
  freeAt : ∀ o a, a ∈ g.pgFreelist o → ∃ k, a = g.at o k
  liveAt : ∀ b ∈ live, b.1 < pageNsizes ∧ ∃ k, b.2 = g.at b.1 k
  bits : Bits g.pgBaseaddr (g.pgEndaddr - g.pgBaseaddr) g.pgFreelist g.pgMap

section
variable {g : Pagegroup} {live : List (Nat × Nat)} {o a k : Nat}
variable (h : Core g live)
include h

theorem Core.order_lt (ha : a ∈ g.pgFreelist o) : o < pageNsizes := by
  by_contra hge
  rw [h.orders o (by omega)] at ha
  cases ha

theorem Core.mem_freeBlks (ha : a ∈ g.pgFreelist o) : blk o a ∈ freeBlks g :=
  Page.mem_freeBlks.mpr ⟨o, h.order_lt ha, a, ha, rfl⟩

theorem Core.in_span (hb : blk o (g.at o k) ∈ freeBlks g ++ live.map liveBlk) :
    (k + 1) * blockSize o ≤ g.pgEndaddr - g.pgBaseaddr := by
  have hsub := h.tiles.subset hb (blockSize_pos o)
  simp only [blk_lo, blk_len, Pagegroup.at] at hsub
  have hmul : (k + 1) * blockSize o = k * blockSize o + blockSize o := Nat.succ_mul _ _
  omega

theorem Core.free_in_span (ha : g.at o k ∈ g.pgFreelist o) :
    (k + 1) * blockSize o ≤ g.pgEndaddr - g.pgBaseaddr :=
  h.in_span (mem_append_left _ (h.mem_freeBlks ha))

theorem Core.live_in_span (hb : (o, g.at o k) ∈ live) :
    (k + 1) * blockSize o ≤ g.pgEndaddr - g.pgBaseaddr :=
  h.in_span (mem_append_right _ (mem_map_of_mem (f := liveBlk) hb))

theorem Core.pair_in_span (ho : o < pageNsizes - 1)
    (hk : (k + 1) * blockSize o ≤ g.pgEndaddr - g.pgBaseaddr) :
    (k / 2 + 1) * blockSize (o + 1) ≤ g.pgEndaddr - g.pgBaseaddr := by
  rw [blockSize_succ]
  refine Page.pair_in_span (blockSize_pos o) ?_ hk
  rw [← blockSize_succ]
  exact (blockSize_dvd (by omega)).trans h.span

/-- Two blocks of one list that start at the same place are one entry of it. -/
theorem Core.nodup (o : Nat) : (g.pgFreelist o).Nodup := by
  by_cases ho : o < pageNsizes
  · have hp : ((g.pgFreelist o).map (blk o)).Pairwise Apart := by
      refine (h.tiles.pairwise).sublist (List.Sublist.trans ?_ (sublist_append_left _ _))
      exact sublist_flatten_of_mem (mem_map.mpr ⟨o, mem_range.mpr ho, rfl⟩)
    rw [pairwise_map] at hp
    refine hp.imp ?_
    rintro x y hxy rfl
    exact hxy x (by simp [blockSize_pos])
  · rw [h.orders o (by omega)]
    exact .nil

theorem Core.unique_order (ha : a ∈ g.pgFreelist o) (ha' : a ∈ g.pgFreelist o') : o' = o := by
  have heq := h.tiles.eq_of_has (p := a) (mem_append_left _ (h.mem_freeBlks ha))
    (mem_append_left _ (h.mem_freeBlks ha')) (by simp [blockSize_pos])
    (by simp [blockSize_pos])
  exact (blk_inj heq).1.symm

/-- No free block meets a block that is handed out. -/
theorem Core.not_free_of_live {p : Nat} (hb : (o, a) ∈ live) (h1 : a ≤ p) (h2 : p < a + blockSize o)
    (h3 : a' ≤ p) (h4 : p < a' + blockSize o') : a' ∉ g.pgFreelist o' := by
  intro hf
  exact h.tiles.not_both (h.mem_freeBlks hf) (mem_map_of_mem (f := liveBlk) hb)
    (p := p) (by simp [h3, h4]) (by simp [liveBlk, h1, h2])

end

/-! ## 5. The index and the flip -/

theorem and_low_bits (x n : Nat) : x &&& ((1 <<< n) - 1) = x % 2 ^ n := by
  rw [Nat.one_shiftLeft, Nat.and_two_pow_sub_one_eq_mod]

/-- The index of a page at an order is its page number divided by the pages of a block. -/
theorem calculateIndex_eq {j : Nat} (hb : pageSize ∣ g.pgBaseaddr)
    (ho : o < pageNsizes) (hj : g.pgBaseaddr + j * pageSize < g.pgEndaddr) :
    pagegroupCalculateIndex g o (g.pgBaseaddr + j * pageSize) = .ok (j / 2 ^ o) := by
  obtain ⟨m, hm⟩ := hb
  have h1 : ((g.pgBaseaddr + j * pageSize) % pageSize == 0) = true := by
    rw [hm, beq_iff_eq, Nat.mul_comm, ← Nat.add_mul]
    exact Nat.mul_mod_left _ _
  have h2 : (decide (g.pgBaseaddr ≤ g.pgBaseaddr + j * pageSize) &&
      decide (g.pgBaseaddr + j * pageSize < g.pgEndaddr)) = true := by
    simp [hj]
  have h3 : ((j * pageSize) % 2 ^ o == 0) = true := by
    have hd : 2 ^ o ∣ pageSize := by
      have : pageSize = 2 ^ 12 := rfl
      rw [this]
      refine pow_dvd_pow 2 ?_
      have : pageNsizes = 8 := rfl
      omega
    rw [beq_iff_eq]
    exact Nat.mod_eq_zero_of_dvd (hd.mul_left j)
  simp only [pagegroupCalculateIndex, h1, h2, ho, decide_true, kassert_true, ok_bind,
    Nat.add_sub_cancel_left, and_low_bits, h3]
  have h4 : (j * pageSize) >>> o >>> pageShift = j / 2 ^ o := by
    rw [Nat.shiftRight_eq_div_pow, Nat.shiftRight_eq_div_pow, Nat.div_right_comm]
    exact congrArg (· / 2 ^ o) (Nat.mul_div_cancel j (by decide))
  rw [h4]
  rfl

theorem at_eq_pages (g : Pagegroup) (o k : Nat) :
    g.at o k = g.pgBaseaddr + (k * 2 ^ o) * pageSize := by
  rw [Pagegroup.at, blockSize_eq, Nat.mul_assoc]

section
variable (h : (k + 1) * blockSize o ≤ g.pgEndaddr - g.pgBaseaddr)
include h

theorem at_lt_end : g.at o k < g.pgEndaddr := by
  have h1 := blockSize_pos o
  rw [Nat.succ_mul] at h
  simp only [Pagegroup.at]
  omega

/-- At its own order, a block has its place as index; at the next order, half of it. -/
theorem calculateIndex_at (hb : pageSize ∣ g.pgBaseaddr) (ho : o < pageNsizes) :
    pagegroupCalculateIndex g o (g.at o k) = .ok k := by
  have hlt := at_lt_end h
  rw [at_eq_pages] at hlt ⊢
  rw [calculateIndex_eq hb ho hlt, Nat.mul_div_cancel _ (Nat.two_pow_pos o)]

theorem calculateIndex_at_succ (hb : pageSize ∣ g.pgBaseaddr) (ho : o < pageNsizes - 1) :
    pagegroupCalculateIndex g (o + 1) (g.at o k) = .ok (k / 2) := by
  have hlt := at_lt_end h
  rw [at_eq_pages] at hlt ⊢
  rw [calculateIndex_eq hb (by omega) hlt, pow_succ, ← Nat.div_div_eq_div_mul,
    Nat.mul_div_cancel _ (Nat.two_pow_pos o)]

end

/-- The block at `g.at o k` changes sides on its list and the flip that records it succeeds. -/
theorem Core.flipPair {live : List (Nat × Nat)}
    (h : Core g live) (hk : (k + 1) * blockSize o ≤ g.pgEndaddr - g.pgBaseaddr)
    (hself : l.contains (g.at o k) = !(g.pgFreelist o).contains (g.at o k))
    (hother : ∀ k', k' ≠ k → l.contains (g.at o k') = (g.pgFreelist o).contains (g.at o k')) :
    ∃ map, (g.setList o l g.pgMap).flipPair o (g.at o k) = .ok (g.setList o l map) ∧
      Bits g.pgBaseaddr (g.pgEndaddr - g.pgBaseaddr) (update g.pgFreelist o l) map := by
  by_cases ho : o < pageNsizes - 1
  · obtain ⟨m, hm, hbits⟩ := h.bits.toggle ho (h.pair_in_span ho hk) hself hother
    have hidx : pagegroupCalculateIndex (g.setList o l g.pgMap) (o + 1) (g.at o k) = .ok (k / 2) :=
      calculateIndex_at_succ (g := g.setList o l g.pgMap) hk h.basePage ho
    refine ⟨_, ?_, hbits⟩
    simp only [Pagegroup.flipPair, if_pos ho, hidx, ok_bind, Pagegroup.flip, setList_map, hm]
    rfl
  · refine ⟨g.pgMap, ?_, h.bits.update_top (by omega)⟩
    simp only [Pagegroup.flipPair, if_neg ho]

/-! ## 6. The four moves -/

section
variable {g : Pagegroup} {o a : Nat} {l : List Nat} (map map' : Nat → List Bool)

/-- The blocks of a group whose list of `o` was replaced. -/
theorem freeBlks_setList {l' : List Nat} (ho : o < pageNsizes) (hl : l'.Perm (a :: l)) :
    (freeBlks (g.setList o l' map)).Perm (blk o a :: freeBlks (g.setList o l map')) :=
  listBlks_update g.pgFreelist l l' a hl ho

/-- The same when the group still has its old list. -/
theorem freeBlks_erase (ho : o < pageNsizes) (hl : (g.pgFreelist o).Perm (a :: l)) :
    (freeBlks g).Perm (blk o a :: freeBlks (g.setList o l map)) := by
  have h := freeBlks_setList (g := g) g.pgMap map ho hl
  rwa [setList_eq_self] at h

/-- The same when a block joins the old list. -/
theorem freeBlks_insert (ho : o < pageNsizes) :
    (freeBlks (g.setList o (a :: g.pgFreelist o) map)).Perm (blk o a :: freeBlks g) := by
  have h := freeBlks_setList (g := g) map g.pgMap ho (List.Perm.refl (a :: g.pgFreelist o))
  rwa [setList_eq_self] at h

end

section
variable {g : Pagegroup} {live : List (Nat × Nat)} {o a : Nat}

theorem orders_setList (ho : o < pageNsizes) (h : ∀ o', pageNsizes ≤ o' → g.pgFreelist o' = []) :
    ∀ o', pageNsizes ≤ o' → (g.setList o l map).pgFreelist o' = [] := by
  intro o' ho'
  rw [setList_ne _ _ _ _ (by omega)]
  exact h o' ho'

/-- What holds of every entry of the old lists and of the new list of `o` holds of every entry
of the new lists. -/
theorem forall_setList {P : Nat → Nat → Prop} (h : ∀ o' a', a' ∈ g.pgFreelist o' → P o' a')
    (hl : ∀ a' ∈ l, P o a') :
    ∀ o' a', a' ∈ (g.setList o l map).pgFreelist o' → P o' a' := by
  intro o' a' ha'
  by_cases hoo : o' = o
  · subst hoo
    rw [setList_self] at ha'
    exact hl a' ha'
  · rw [setList_ne _ _ _ _ hoo] at ha'
    exact h o' a' ha'

/-- **Take.**  The head of a free list is handed out. -/
theorem core_take {t : List Nat} (h : Core g live) (hfl : g.pgFreelist o = a :: t) :
    ∃ map, (g.removeHead o).flipPair o a = .ok (g.setList o t map) ∧
      Core (g.setList o t map) ((o, a) :: live) := by
  have ha : a ∈ g.pgFreelist o := by rw [hfl]; exact .head _
  have ho := h.order_lt ha
  obtain ⟨k, rfl⟩ := h.freeAt o a ha
  have hat : g.at o k ∉ t := by
    have hnd := h.nodup o
    rw [hfl] at hnd
    exact (nodup_cons.mp hnd).1
  obtain ⟨map, hflip, hbits⟩ := h.flipPair (l := t) (h.free_in_span ha)
    (by simp [hfl, hat]) (fun k' hk' => by simp [hfl, at_ne g o hk'])
  refine ⟨map, ?_, ⟨h.basePage, h.le, h.span, orders_setList ho h.orders, ?_, ?_, ?_, hbits⟩⟩
  · rw [← hflip, removeHead, hfl, tail_cons]
    rfl
  · refine h.tiles.perm ?_
    exact ((freeBlks_erase map ho (by rw [hfl])).append_right _).trans perm_middle.symm
  · exact forall_setList h.freeAt fun a' ha' =>
      h.freeAt o a' (by rw [hfl]; exact .tail _ ha')
  · intro b hb
    obtain rfl | hb' := mem_cons.mp hb
    · exact ⟨ho, k, rfl⟩
    · exact h.liveAt b hb'

/-- **Give.**  A block handed out joins the free list of its order. -/
theorem core_give (h : Core g ((o, a) :: live)) :
    ∃ map, (g.insertHead o a).flipPair o a = .ok (g.setList o (a :: g.pgFreelist o) map) ∧
      Core (g.setList o (a :: g.pgFreelist o) map) live := by
  obtain ⟨ho, k, hk⟩ := h.liveAt (o, a) (.head _)
  simp only at ho hk
  subst hk
  have hpos := blockSize_pos o
  have hnot : g.at o k ∉ g.pgFreelist o :=
    h.not_free_of_live (.head _) (le_refl _) (by omega) (le_refl _) (by omega)
  obtain ⟨map, hflip, hbits⟩ :=
    h.flipPair (l := g.at o k :: g.pgFreelist o) (h.live_in_span (.head _)) (by simp [hnot])
    (fun k' hk' => by simp [at_ne g o hk'])
  refine ⟨map, hflip, ⟨h.basePage, h.le, h.span, orders_setList ho h.orders, ?_, ?_, ?_, hbits⟩⟩
  · refine h.tiles.perm ?_
    exact perm_middle.trans ((freeBlks_insert map ho).append_right _).symm
  · refine forall_setList h.freeAt fun a' ha' => ?_
    obtain rfl | ha'' := mem_cons.mp ha'
    · exact ⟨k, rfl⟩
    · exact h.freeAt o a' ha''
  · exact fun b hb => h.liveAt b (.tail _ hb)

theorem Core.halves_not_free (h : Core g ((o + 1, g.at (o + 1) i) :: live)) :
    g.at o (2 * i) ∉ g.pgFreelist o ∧ g.at o (2 * i + 1) ∉ g.pgFreelist o := by
  have hpos := blockSize_pos o
  have hsz := blockSize_succ o
  have el := at_succ_order g o i
  have er := at_succ g o (2 * i)
  constructor
  · exact h.not_free_of_live (.head _) (p := g.at o (2 * i)) (by omega) (by omega)
      (by omega) (by omega)
  · exact h.not_free_of_live (.head _) (p := g.at o (2 * i + 1)) (by omega) (by omega)
      (by omega) (by omega)

/-- **Cut.**  A block handed out is replaced by its halves on the list below. -/
theorem core_cut (h : Core g ((o + 1, g.at (o + 1) i) :: live)) :
    Core (g.setList o (g.at o (2 * i + 1) :: g.at o (2 * i) :: g.pgFreelist o) g.pgMap) live := by
  obtain ⟨ho, -⟩ := h.liveAt (o + 1, g.at (o + 1) i) (.head _)
  obtain ⟨hl, hr⟩ := h.halves_not_free
  refine ⟨h.basePage, h.le, h.span, orders_setList (by omega) h.orders, ?_, ?_, ?_, ?_⟩
  · -- the tiling: cut the block, then move both halves to the free side
    have h1 : Tiles (blk (o + 1) (g.at (o + 1) i) :: (freeBlks g ++ live.map liveBlk))
        g.pgBaseaddr g.pgEndaddr := h.tiles.perm perm_middle
    rw [blk, blockSize_succ, at_succ_order] at h1
    have h2 := tiles_halves.mp h1
    rw [← at_succ] at h2
    refine h2.perm ?_
    have hp1 := freeBlks_setList (g := g) g.pgMap g.pgMap (by omega : o < pageNsizes)
      (List.Perm.refl (g.at o (2 * i + 1) :: g.at o (2 * i) :: g.pgFreelist o))
    have hp2 := freeBlks_insert (g := g) (a := g.at o (2 * i)) g.pgMap (by omega : o < pageNsizes)
    exact (((hp1.trans (hp2.cons _)).trans (List.Perm.swap _ _ _)).append_right _).symm
  · refine forall_setList h.freeAt fun a' ha' => ?_
    simp only [mem_cons] at ha'
    obtain rfl | rfl | hmem := ha'
    · exact ⟨2 * i + 1, rfl⟩
    · exact ⟨2 * i, rfl⟩
    · exact h.freeAt o a' hmem
  · exact fun b hb => h.liveAt b (.tail _ hb)
  · refine h.bits.both (i := i) ?_ ?_ ?_
    · change contains _ (g.at o (2 * i)) = !(g.pgFreelist o).contains (g.at o (2 * i))
      simp [hl]
    · change contains _ (g.at o (2 * i + 1)) = !(g.pgFreelist o).contains (g.at o (2 * i + 1))
      simp [hr]
    · intro k' h1 h2
      change contains _ (g.at o k') = (g.pgFreelist o).contains (g.at o k')
      simp [at_ne g o h1, at_ne g o h2]

/-- **Glue.**  Two free halves are replaced by their union, handed out. -/
theorem core_glue (h : Core g live) (ho : o < pageNsizes - 1)
    (hperm : (g.pgFreelist o).Perm (g.at o (2 * i) :: g.at o (2 * i + 1) :: l)) :
    Core (g.setList o l g.pgMap) ((o + 1, g.at (o + 1) i) :: live) := by
  have hnd := hperm.nodup_iff.mp (h.nodup o)
  have hmem : ∀ x, x ∈ g.pgFreelist o ↔ x = g.at o (2 * i) ∨ x = g.at o (2 * i + 1) ∨ x ∈ l := by
    intro x
    rw [hperm.mem_iff, mem_cons, mem_cons]
  have hl : g.at o (2 * i) ∉ l := fun e =>
    (nodup_cons.mp hnd).1 (.tail _ e)
  have hr : g.at o (2 * i + 1) ∉ l := (nodup_cons.mp (nodup_cons.mp hnd).2).1
  refine ⟨h.basePage, h.le, h.span, orders_setList (by omega) h.orders, ?_, ?_, ?_, ?_⟩
  · have hp1 := freeBlks_erase (g := g) g.pgMap (by omega : o < pageNsizes) hperm
    have hp2 := freeBlks_setList (g := g) g.pgMap g.pgMap (by omega : o < pageNsizes)
      (List.Perm.refl (g.at o (2 * i + 1) :: l))
    have h1 := h.tiles.perm ((hp1.trans (hp2.cons _)).append_right _)
    simp only [cons_append, blk, at_succ] at h1
    have h2 := tiles_halves.mpr h1
    rw [← blockSize_succ, ← at_succ_order] at h2
    exact h2.perm perm_middle.symm
  · exact forall_setList h.freeAt fun a' ha' =>
      h.freeAt o a' ((hmem a').mpr (.inr (.inr ha')))
  · intro b hb
    obtain rfl | hb' := mem_cons.mp hb
    · exact ⟨by omega, i, rfl⟩
    · exact h.liveAt b hb'
  · refine h.bits.both (i := i) ?_ ?_ ?_
    · change l.contains (g.at o (2 * i)) = !(g.pgFreelist o).contains (g.at o (2 * i))
      simp [hl, hmem]
    · change l.contains (g.at o (2 * i + 1)) = !(g.pgFreelist o).contains (g.at o (2 * i + 1))
      simp [hr, hmem]
    · intro k' h1 h2
      change l.contains (g.at o k') = (g.pgFreelist o).contains (g.at o k')
      simp [hmem, at_ne g o h1, at_ne g o h2]

end

end Weenix.Page
