/-
# Carving a range (`_pagegroup_create`)

`_pagegroup_create` takes its own `struct pagegroup` and the bitmaps off the top of the range,
clears every bitmap, and cuts the pages that are left: one block per set bit of the page count
for the orders below the largest, blocks of the largest order for the rest.

Cleared bitmaps say "both halves of every pair are free, or neither".  That is the truth when
all blocks are of the largest order, and so a group whose page count is a multiple of 128
starts in the buddy invariant (`carved_core`).  It is not the truth for a block cut for a set
bit: such a block is the left half of a pair whose right half is not in the group
(`carved_ragged`).
-/
import Weenix.Mm.PageOps

namespace Weenix.Page

open Tile List Pagegroup

variable {a e k n o : Nat}

/-! ## 1. Alignment -/

theorem pageAlignDown_dvd (x : Nat) : pageSize ∣ pageAlignDown x := Dvd.intro_left _ rfl

theorem pageAlignDown_le (x : Nat) : pageAlignDown x ≤ x := Nat.div_mul_le_self ..

/-- Between two page addresses the shift counts the pages exactly. -/
theorem shift_mul_pageSize {x : Nat} (h : pageSize ∣ x) : (x >>> pageShift) * pageSize = x := by
  rw [Nat.shiftRight_eq_div_pow]
  exact Nat.div_mul_cancel h

/-- The bytes of a bitmap: one bit for each whole block of the order, rounded up to bytes. -/
theorem mapBytes_eq (hn : n ≤ 2 ^ 20) (o : Nat) : mapBytes n o = (n / 2 ^ o + 7) / 8 := by
  have hle : n / 2 ^ o ≤ n := Nat.div_le_self ..
  simp only [mapBytes, Nat.shiftRight_eq_div_pow, sub32]
  generalize n / 2 ^ o = count at hle ⊢
  omega

theorem mapBytes_le (hn : n ≤ 2 ^ 20) (o : Nat) : mapBytes n o ≤ n / 8 + 1 := by
  have hle : n / 2 ^ o ≤ n := Nat.div_le_self ..
  rw [mapBytes_eq hn]
  omega

/-- The bitmaps of the orders `1 ..= k` take at most `k * (n / 8 + 1)` bytes. -/
theorem carveMaps_bounds (hn : n ≤ 2 ^ 20) (he : e < 2 ^ 32) : ∀ {k : Nat},
    k * (n / 8 + 1) ≤ e → e - k * (n / 8 + 1) ≤ carveMaps n k e ∧ carveMaps n k e ≤ e
  | 0, _ => by rw [carveMaps]; omega
  | k + 1, hk => by
    rw [Nat.succ_mul] at hk ⊢
    obtain ⟨h1, h2⟩ := carveMaps_bounds hn he (k := k) (by omega)
    have h3 := mapBytes_le hn (k + 1)
    rw [carveMaps, sub32_eq (by omega) (by omega)]
    omega

theorem carveMaps_zero (he : e < 2 ^ 32) : ∀ k, carveMaps 0 k e = e
  | 0 => rfl
  | k + 1 => by
    rw [carveMaps, carveMaps_zero he k, mapBytes_eq (by omega), sub32_eq (by simp) he]
    simp

/-! ## 2. The small blocks -/

theorem and_shift_ne_zero (n k : Nat) : n &&& (1 <<< k) ≠ 0 ↔ n / 2 ^ k % 2 = 1 := by
  rw [Nat.one_shiftLeft, Nat.and_two_pow, Nat.testBit_eq_decide_div_mod_eq]
  by_cases h : n / 2 ^ k % 2 = 1
  · simp [h]
  · simp [h]

/-- A count divisible by `2 ^ k` leaves nothing for the orders below `k`. -/
theorem carveSmall_of_dvd : ∀ {k : Nat}, n % 2 ^ k = 0 → carveSmall n k e = (e, fun _ => [])
  | 0, _ => rfl
  | k + 1, h => by
    rw [Nat.mod_pow_succ] at h
    have h1 : n % 2 ^ k = 0 := by omega
    have h2 : ¬ n / 2 ^ k % 2 = 1 := by
      intro hbit
      rw [hbit] at h
      omega
    rw [carveSmall, carveSmall_of_dvd h1]
    simp only [if_neg (mt (and_shift_ne_zero n k).mp h2)]

/-- The loop moves `end` down by the pages of the bits it has seen. -/
theorem carveSmall_fst (he : e < 2 ^ 32) (h : (n % 2 ^ k) * pageSize ≤ e) :
    (carveSmall n k e).1 = e - (n % 2 ^ k) * pageSize := by
  induction k with
  | zero => simp [carveSmall, Nat.mod_one]
  | succ k ih =>
    rw [Nat.mod_pow_succ, Nat.add_mul] at h ⊢
    have hk := ih (Nat.le_trans (Nat.le_add_right _ _) h)
    rw [carveSmall]
    by_cases hbit : n / 2 ^ k % 2 = 1
    · rw [hbit, Nat.mul_one, ← blockSize_eq] at h ⊢
      simp only [if_pos ((and_shift_ne_zero n k).mpr hbit), hk]
      rw [sub32_eq (by omega) (by omega), Nat.sub_sub]
    · have hz : n / 2 ^ k % 2 = 0 := by omega
      rw [hz, Nat.mul_zero, Nat.zero_mul, Nat.add_zero]
      simp only [if_neg (mt (and_shift_ne_zero n k).mp hbit), hk]

/-- Every block it puts on a list starts below the old `end`. -/
theorem carveSmall_lt (he : e < 2 ^ 32) (h : (n % 2 ^ k) * pageSize ≤ e)
    (ha : a ∈ (carveSmall n k e).2 o) : a < e := by
  induction k with
  | zero => cases ha
  | succ k ih =>
    have hfst := carveSmall_fst he h
    have hmod := Nat.mod_pow_succ (b := 2) (x := n) (k := k)
    have hk : (n % 2 ^ k) * pageSize ≤ e :=
      Nat.le_trans (Nat.mul_le_mul_right _ (by omega)) h
    rw [carveSmall] at ha hfst
    by_cases hbit : n / 2 ^ k % 2 = 1
    · simp only [if_pos ((and_shift_ne_zero n k).mpr hbit)] at ha hfst
      by_cases ho : o = k
      · subst ho
        rw [update_self, mem_singleton, hfst] at ha
        have hpos : 0 < (n % 2 ^ (o + 1)) * pageSize := by
          rw [hbit] at hmod
          exact Nat.mul_pos (by omega) (by decide)
        omega
      · rw [update_of_ne ho] at ha
        exact ih hk ha
    · simp only [if_neg (mt (and_shift_ne_zero n k).mp hbit)] at ha
      exact ih hk ha

/-- The list of an order is set in its own round and not touched later. -/
theorem carveSmall_list : ∀ {k : Nat}, o < k → (carveSmall n k e).2 o = (carveSmall n (o + 1) e).2 o
  | 0, h => absurd h (Nat.not_lt_zero _)
  | k + 1, h => by
    obtain hlt | rfl := Nat.lt_succ_iff_lt_or_eq.mp h
    · have hne : o ≠ k := by omega
      rw [← carveSmall_list hlt]
      simp only [carveSmall]
      split
      · exact update_of_ne hne _ _
      · rfl
    · rfl

/-- A number not divisible by `2 ^ k` has a lowest set bit below `k`. -/
theorem exists_low_bit : ∀ {k : Nat}, n % 2 ^ k ≠ 0 → ∃ o < k, n % 2 ^ o = 0 ∧ n / 2 ^ o % 2 = 1
  | 0, h => absurd (Nat.mod_one n) h
  | k + 1, h => by
    by_cases hk : n % 2 ^ k = 0
    · refine ⟨k, by omega, hk, ?_⟩
      rw [Nat.mod_pow_succ, hk] at h
      by_contra hbit
      have hz : n / 2 ^ k % 2 = 0 := by omega
      exact h (by rw [hz, Nat.mul_zero])
    · obtain ⟨o, ho, h1⟩ := exists_low_bit hk
      exact ⟨o, by omega, h1⟩

/-! ## 3. The blocks of the largest order -/

/-- The loop tiles what lies between `current` and `end`. -/
theorem fillLargest_tiles {lo : Nat} : ∀ (fuel m : Nat) {c : Nat} {l : List Nat},
    m ≤ fuel → lo ≤ c → Tiles (l.map (blk o)) lo c →
    Tiles ((fillLargest o (c + m * blockSize o) fuel c l).map (blk o)) lo (c + m * blockSize o)
  | 0, m, c, l, hm, _, h => by
    have hz : m = 0 := by omega
    subst hz
    rw [Nat.zero_mul, Nat.add_zero]
    exact h
  | fuel + 1, 0, c, l, _, _, h => by
    rw [Nat.zero_mul, Nat.add_zero, fillLargest, if_neg (lt_irrefl c)]
    exact h
  | fuel + 1, m + 1, c, l, hm, hle, h => by
    have hpos := blockSize_pos o
    have he : c + (m + 1) * blockSize o = c + blockSize o + m * blockSize o := by
      rw [Nat.succ_mul]; omega
    rw [fillLargest, if_pos (by rw [he]; omega), he]
    exact fillLargest_tiles fuel m (by omega) (by omega) (h.extend hle _)

theorem fillLargest_mem : ∀ (fuel : Nat) {c a : Nat} {l : List Nat},
    a ∈ fillLargest o e fuel c l → a ∈ l ∨ a < e ∧ ∃ k, a = c + k * blockSize o
  | 0, c, a, l, h => .inl h
  | fuel + 1, c, a, l, h => by
    rw [fillLargest] at h
    split at h
    · rename_i hlt
      obtain h1 | ⟨h1, k, h2⟩ := fillLargest_mem fuel h
      · obtain rfl | h3 := mem_cons.mp h1
        · exact .inr ⟨hlt, 0, by omega⟩
        · exact .inl h3
      · exact .inr ⟨h1, k + 1, by rw [h2, Nat.succ_mul]; omega⟩
    · exact .inl h

theorem fillLargest_length : ∀ (fuel m : Nat) {c : Nat} {l : List Nat}, m ≤ fuel →
    (fillLargest o (c + m * blockSize o) fuel c l).length = m + l.length
  | 0, m, c, l, hm => by
    have hz : m = 0 := by omega
    subst hz
    exact (Nat.zero_add _).symm
  | fuel + 1, 0, c, l, _ => by
    rw [Nat.zero_mul, Nat.add_zero, fillLargest, if_neg (lt_irrefl c)]
    exact (Nat.zero_add _).symm
  | fuel + 1, m + 1, c, l, hm => by
    have hpos := blockSize_pos o
    have he : c + (m + 1) * blockSize o = c + blockSize o + m * blockSize o := by
      rw [Nat.succ_mul]; omega
    rw [fillLargest, if_pos (by rw [he]; omega), he,
      fillLargest_length fuel m (by omega), length_cons]
    omega

/-! ## 4. The group that is kept -/

/-- The usable pages of a group, as `page_add_range` counts them. -/
def Pagegroup.usable (g : Pagegroup) : Nat := (g.pgEndaddr - g.pgBaseaddr) >>> pageShift

/-- A range as `page_add_range` passes it on: two page addresses in order. -/
structure PageRange (start end_ : Nat) : Prop where
  startPage : pageSize ∣ start
  endPage : pageSize ∣ end_
  le : start ≤ end_
  lt : end_ < 2 ^ 32

theorem pagegroupCreate_inv {start end_ : Nat} {g : Pagegroup}
    (h : pagegroupCreate start end_ = .ok g) :
    g.pgBaseaddr = start ∧
    g.pgEndaddr =
      pageAlignDown (carveMaps (sub32 end_ start >>> pageShift) 7 (sub32 end_ sizeofPagegroup)) ∧
    (∀ o, 0 < o →
      g.pgMap o = List.replicate (8 * mapBytes (sub32 end_ start >>> pageShift) o) false) ∧
    g.pgFreelist = update
      (carveSmall (sub32 g.pgEndaddr start >>> pageShift) 7 g.pgEndaddr).2 7
      (fillLargest 7 (carveSmall (sub32 g.pgEndaddr start >>> pageShift) 7 g.pgEndaddr).1
        (sub32 g.pgEndaddr start >>> pageShift) start []) := by
  obtain ⟨-, -, h⟩ := bind_eq_ok h
  obtain ⟨-, -, h⟩ := bind_eq_ok h
  obtain ⟨-, -, h⟩ := bind_eq_ok h
  injection h with h
  subst h
  refine ⟨rfl, rfl, fun o ho => ?_, rfl⟩
  exact if_neg (by omega)

section
variable {start end_ : Nat} {g : Pagegroup}

section
variable (hr : PageRange start end_)
include hr

/-- A group that is kept ends below its range.  The exception is the empty range at address 0:
there the subtraction of the `struct pagegroup` wraps, and the group gets no bitmaps. -/
theorem kept_end (h : pagegroupCreate start end_ = .ok g) : g.pgEndaddr < end_ ∨
      g.pgEndaddr = 0xFFFFF000 ∧ g.pgBaseaddr = 0 ∧ ∀ o, 0 < o → g.pgMap o = [] := by
  obtain ⟨hbase, hend, hmap, -⟩ := pagegroupCreate_inv h
  have hsub : sub32 end_ start = end_ - start := sub32_eq hr.le hr.lt
  rw [hsub] at hend hmap
  have hstart := hr.le
  have hlt := hr.lt
  by_cases hz : end_ = 0
  · subst hz
    have hs : start = 0 := by omega
    subst hs
    refine .inr ⟨?_, hbase, fun o ho => ?_⟩
    · rw [hend, show (0 - 0) >>> pageShift = 0 from rfl, carveMaps_zero (by decide)]
      rfl
    · rw [hmap o ho, show (0 - 0) >>> pageShift = 0 from rfl, mapBytes_eq (by omega)]
      simp
  · left
    have hn := shift_mul_pageSize (Nat.dvd_sub hr.endPage hr.startPage)
    have hp := Nat.le_of_dvd (by omega) hr.endPage
    have hsz : sizeofPagegroup = 112 := rfl
    generalize (end_ - start) >>> pageShift = n at hn hend
    rw [pageSize_eq] at hn hp
    rw [sub32_eq (by omega) hlt] at hend
    have htop := (carveMaps_bounds (n := n) (e := end_ - sizeofPagegroup) (k := 7) (by omega)
      (by omega) (by omega)).2
    have := pageAlignDown_le (carveMaps n 7 (end_ - sizeofPagegroup))
    omega

/-- The page count the carving loops work with is `usable`, and it measures the group. -/
theorem kept_pages (h : pagegroupCreate start end_ = .ok g) (hkept : g.pgBaseaddr < g.pgEndaddr) :
    g.pgEndaddr < 2 ^ 32 ∧ sub32 g.pgEndaddr start >>> pageShift = g.usable ∧
      g.pgEndaddr = g.pgBaseaddr + g.usable * pageSize := by
  obtain ⟨hbase, hend, -, -⟩ := pagegroupCreate_inv h
  have hlt : g.pgEndaddr < 2 ^ 32 := by
    have := hr.lt
    obtain h1 | ⟨h1, -⟩ := kept_end hr h <;> omega
  have hdvd : pageSize ∣ g.pgEndaddr - g.pgBaseaddr :=
    Nat.dvd_sub (hend ▸ pageAlignDown_dvd _) (hbase ▸ hr.startPage)
  refine ⟨hlt, ?_, ?_⟩
  · rw [sub32_eq (by omega) hlt, usable, hbase]
  · rw [usable, shift_mul_pageSize hdvd]
    omega

/-- Every whole block of the group has its bit in the bitmap of its order. -/
theorem index_in_map {i : Nat} (he : e ≤ end_) (hi : (i + 1) * blockSize o ≤ e - start) :
    i < 8 * mapBytes (sub32 end_ start >>> pageShift) o := by
  have hlt := hr.lt
  have hn := shift_mul_pageSize (Nat.dvd_sub hr.endPage hr.startPage)
  rw [sub32_eq hr.le hlt]
  generalize (end_ - start) >>> pageShift = n at hn ⊢
  rw [blockSize_eq, ← Nat.mul_assoc] at hi
  have h1 : (i + 1) * 2 ^ o ≤ n :=
    Nat.le_of_mul_le_mul_right (by omega : (i + 1) * 2 ^ o * pageSize ≤ n * pageSize) (by decide)
  have h2 : i + 1 ≤ n / 2 ^ o := (Nat.le_div_iff_mul_le (Nat.two_pow_pos o)).mpr h1
  rw [mapBytes_eq (by rw [pageSize_eq] at hn; omega)]
  omega

end

/-! ## 5. A multiple of 128 pages -/

section
variable (hr : PageRange start end_) (h : pagegroupCreate start end_ = .ok g)
include hr h

theorem carved_le (hn : g.usable % 128 = 0) : g.pgEndaddr ≤ end_ := by
  obtain h1 | ⟨h1, h2, -⟩ := kept_end hr h
  · exact h1.le
  · rw [usable, h1, h2] at hn
    exact absurd hn (by decide)

variable (hkept : g.pgBaseaddr < g.pgEndaddr)
include hkept

theorem carved_lists (hn : g.usable % 128 = 0) : g.pgFreelist = update (fun _ => []) 7
      (fillLargest 7 (g.pgBaseaddr + g.usable / 128 * blockSize 7) g.usable g.pgBaseaddr []) ∧
    g.pgEndaddr = g.pgBaseaddr + g.usable / 128 * blockSize 7 := by
  obtain ⟨hbase, -, -, hlists⟩ := pagegroupCreate_inv h
  obtain ⟨-, hpages, hend⟩ := kept_pages hr h hkept
  have hspan : g.usable * pageSize = g.usable / 128 * blockSize 7 := by
    have hb : blockSize 7 = 128 * pageSize := rfl
    rw [hb, ← Nat.mul_assoc]
    congr 1
    omega
  rw [hspan] at hend
  refine ⟨?_, hend⟩
  rw [hlists, hpages, carveSmall_of_dvd (by omega), ← hbase, ← hend]

/-- **A range of a multiple of 128 usable pages starts in the buddy invariant**, with nothing
handed out and no open pair. -/
theorem carved_core (hn : g.usable % 128 = 0) :
    Core g [] ∧ Coalesced g ∧ freePages g = g.usable := by
  obtain ⟨hbase, -, hmap, -⟩ := pagegroupCreate_inv h
  obtain ⟨hlists, hend⟩ := carved_lists hr h hkept hn
  have hfree : ∀ o, o ≠ 7 → g.pgFreelist o = [] := by
    intro o ho
    rw [hlists, update_of_ne ho]
  have hlast : g.pgFreelist 7 = fillLargest 7 (g.pgBaseaddr + g.usable / 128 * blockSize 7)
      g.usable g.pgBaseaddr [] := by
    rw [hlists, update_self]
  have hblks : freeBlks g = (g.pgFreelist 7).map (blk 7) := by
    have hnil : listBlks 7 g.pgFreelist = [] := by
      refine flatMap_eq_nil_iff.mpr fun o ho => ?_
      rw [hfree o (by have := mem_range.mp ho; omega)]
      rfl
    rw [freeBlks, show pageNsizes = 7 + 1 from rfl, listBlks_succ, hnil, nil_append]
  have hm : g.usable / 128 ≤ g.usable := Nat.div_le_self ..
  have hle := carved_le hr h hn
  refine ⟨⟨hbase ▸ hr.startPage, by omega, ?_, fun o ho => hfree o ?_, ?_, ?_, ?_, ?_⟩, ?_, ?_⟩
  · rw [hend, Nat.add_sub_cancel_left]
    exact Dvd.intro_left _ rfl
  · have : pageNsizes = 8 := rfl
    omega
  · rw [map_nil, append_nil, hblks, hlast, hend]
    exact fillLargest_tiles _ _ hm (le_refl _) (tiles_nil _)
  · intro o a ha
    by_cases ho : o = 7
    · subst ho
      rw [hlast] at ha
      obtain h1 | ⟨-, k, h1⟩ := fillLargest_mem _ ha
      · cases h1
      · exact ⟨k, h1⟩
    · rw [hfree o ho] at ha
      cases ha
  · exact fun b hb => absurd hb not_mem_nil
  · -- the cleared bitmaps are right: below the largest order nothing is free
    intro o ho i hi
    have hne : o ≠ 7 := by
      have : pageNsizes = 8 := rfl
      omega
    have hfb : ∀ k, freeBit g.pgFreelist g.pgBaseaddr o k = false := by
      intro k
      rw [freeBit, hfree o hne]
      rfl
    rw [hfb, hfb, hmap (o + 1) (by omega)]
    exact getElem?_replicate_of_lt (index_in_map hr hle (hbase ▸ hi))
  · intro o ho i hp
    have hne : o ≠ 7 := by
      have : pageNsizes = 8 := rfl
      omega
    have h1 := hp.1
    rw [hfree o hne] at h1
    cases h1
  · rw [freePages, hblks, hlast, map_map]
    have hconst : ∀ l : List Nat, (l.map (blkPages ∘ blk 7)).sum = 128 * l.length := by
      intro l
      rw [show blkPages ∘ blk 7 = fun _ => 128 from funext fun a => by simp]
      simp [Nat.mul_comm]
    rw [hconst, fillLargest_length _ _ hm]
    simp only [length_nil]
    omega

/-! ## 6. Any other number of pages -/

/-- **A range of any other number of usable pages does not.**  At the lowest set bit of the
count there is a block, alone on its list, that ends where the group ends; its bit is clear all
the same. -/
theorem carved_ragged (hn : g.usable % 128 ≠ 0) :
    ∃ o < 7, ∃ q m, g.pgFreelist o = [g.at o (2 * q)] ∧ g.at o (2 * q + 1) = g.pgEndaddr ∧
      (∀ o' a, a ∈ g.pgFreelist o' → a < g.pgEndaddr) ∧
      g.pgMap (o + 1) = List.replicate m false ∧ (g.pgEndaddr ≤ end_ ∨ m = 0) := by
  obtain ⟨hbase, -, hmap, hlists⟩ := pagegroupCreate_inv h
  obtain ⟨hlt, hpages, hend⟩ := kept_pages hr h hkept
  rw [hpages] at hlists
  obtain ⟨o, ho, hlow, hbit⟩ := exists_low_bit (k := 7) hn
  have hmod : ∀ k, (g.usable % 2 ^ k) * pageSize ≤ g.pgEndaddr := fun k =>
    Nat.le_trans (Nat.mul_le_mul_right _ (Nat.mod_le _ _)) (by omega)
  have hq : g.usable = (2 * (g.usable / 2 ^ o / 2) + 1) * 2 ^ o := by
    have h1 := Nat.div_add_mod g.usable (2 ^ o)
    have h2 : g.usable / 2 ^ o = 2 * (g.usable / 2 ^ o / 2) + 1 := by omega
    rw [← h2, Nat.mul_comm]
    omega
  have hlast : g.at o (2 * (g.usable / 2 ^ o / 2) + 1) = g.pgEndaddr := by
    rw [at_eq_pages, ← hq, ← hend]
  refine ⟨o, ho, g.usable / 2 ^ o / 2, 8 * mapBytes (sub32 end_ start >>> pageShift) (o + 1),
    ?_, hlast, ?_, hmap (o + 1) (by omega), ?_⟩
  · have hsub : sub32 g.pgEndaddr (blockSize o) = g.at o (2 * (g.usable / 2 ^ o / 2)) := by
      rw [at_succ] at hlast
      rw [sub32_eq (by omega) hlt]
      omega
    have hone : (carveSmall g.usable (o + 1) g.pgEndaddr).2 o =
        [g.at o (2 * (g.usable / 2 ^ o / 2))] := by
      rw [carveSmall, carveSmall_of_dvd hlow]
      simp only [if_pos ((and_shift_ne_zero g.usable o).mpr hbit), update_self, hsub]
    rw [hlists, update_of_ne (by omega), carveSmall_list ho, hone]
  · intro o' a ha
    rw [hlists] at ha
    by_cases ho' : o' = 7
    · subst ho'
      rw [update_self, carveSmall_fst hlt (hmod 7)] at ha
      obtain h1 | ⟨h1, -⟩ := fillLargest_mem _ ha
      · cases h1
      · omega
    · rw [update_of_ne ho'] at ha
      exact carveSmall_lt hlt (hmod 7) ha
  · obtain h1 | ⟨-, -, h1⟩ := kept_end hr h
    · exact .inl h1.le
    · right
      have h2 := (hmap (o + 1) (by omega)).symm.trans (h1 (o + 1) (by omega))
      simpa using h2

end

end

end Weenix.Page
