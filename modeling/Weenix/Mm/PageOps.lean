/-
# Splits, merges and complete coalescing

`__page_split`, the loop of `_page_split` and `__page_join`, each specified on a group that
satisfies `Core`.  Besides `Core` they keep `Coalesced`: no two buddies of an order below the
largest are both free.  Inside a split or a merge the property fails at exactly one pair
(`CoalescedBut`), and the loops move that pair: a split opens it one order further down, at the
head of the list the next round takes from; a merge closes it and may open one further up.
-/
import Weenix.Mm.PageInv

namespace Weenix.Page

open Tile List Pagegroup Bool

variable {live : List (Nat × Nat)} {l : List Nat} {a i o : Nat} {g : Pagegroup}

attribute [local irreducible] blockSize

/-! ## 1. Buddies -/

/-- Both halves of block `i` of order `o + 1` are free. -/
def Paired (g : Pagegroup) (o i : Nat) : Prop :=
  g.at o (2 * i) ∈ g.pgFreelist o ∧ g.at o (2 * i + 1) ∈ g.pgFreelist o

/-- No two buddies of an order below the largest are both free. -/
def Coalesced (g : Pagegroup) : Prop := ∀ o < pageNsizes - 1, ∀ i, ¬ Paired g o i

/-- `Coalesced`, except perhaps for the pair `i` of order `o`. -/
def CoalescedBut (g : Pagegroup) (o i : Nat) : Prop :=
  ∀ o' < pageNsizes - 1, ∀ i', Paired g o' i' → o' = o ∧ i' = i

theorem Coalesced.but (h : Coalesced g) (o i : Nat) : CoalescedBut g o i :=
  fun o' ho' i' hp => absurd hp (h o' ho' i')

/-- The head of the list of `o`, if any two buddies are free, is one of them. -/
def HeadPair (g : Pagegroup) (o : Nat) : Prop :=
  ∃ k t, g.pgFreelist o = g.at o k :: t ∧ CoalescedBut g o (k / 2)

theorem mem_pair_cases {k : Nat} (h : k / 2 = i) : k = 2 * i ∨ k = 2 * i + 1 := by omega

section
variable {g : Pagegroup} {live : List (Nat × Nat)} {o k : Nat} {t : List Nat}
  {map : Nat → List Bool}

/-- Whether a pair is free is read off one list. -/
theorem paired_setList_ne {o' : Nat} (h : o' ≠ o) :
    Paired (g.setList o t map) o' i ↔ Paired g o' i := by
  simp only [Paired, setList_ne _ _ _ _ h, setList_at]

theorem paired_setList_self : Paired (g.setList o t map) o i ↔
    g.at o (2 * i) ∈ t ∧ g.at o (2 * i + 1) ∈ t := by
  simp only [Paired, setList_self, setList_at]

/-- Taking the head away breaks the one pair that was free. -/
theorem coalesced_take (h : Core g live) (hfl : g.pgFreelist o = g.at o k :: t)
    (hbut : CoalescedBut g o (k / 2)) : Coalesced (g.setList o t map) := by
  have hnd := h.nodup o
  rw [hfl] at hnd
  intro o' ho' i hp
  by_cases hoo : o' = o
  · subst hoo
    obtain ⟨h1, h2⟩ := paired_setList_self.mp hp
    obtain ⟨-, hi⟩ := hbut o' ho' i ⟨by rw [hfl]; exact .tail _ h1, by rw [hfl]; exact .tail _ h2⟩
    obtain rfl | rfl := mem_pair_cases hi.symm
    · exact (nodup_cons.mp hnd).1 h1
    · exact (nodup_cons.mp hnd).1 h2
  · exact hoo (hbut o' ho' i ((paired_setList_ne hoo).mp hp)).1

/-- Putting a block on a list can complete no pair but its own. -/
theorem coalescedBut_insert (h : Coalesced g) (o k : Nat) (map : Nat → List Bool) :
    CoalescedBut (g.setList o (g.at o k :: g.pgFreelist o) map) o (k / 2) := by
  intro o' ho' i hp
  by_cases hoo : o' = o
  · subst hoo
    refine ⟨rfl, ?_⟩
    by_contra hi
    obtain ⟨h1, h2⟩ := paired_setList_self.mp hp
    have n1 : g.at o' (2 * i) ≠ g.at o' k := at_ne g o' (by omega)
    have n2 : g.at o' (2 * i + 1) ≠ g.at o' k := at_ne g o' (by omega)
    exact h o' ho' i ⟨(mem_cons.mp h1).resolve_left n1, (mem_cons.mp h2).resolve_left n2⟩
  · exact absurd ((paired_setList_ne hoo).mp hp) (h o' ho' i)

end

/-! ## 2. Counting free pages -/

def blkPages (b : Blk) : Nat := b.len / pageSize

@[simp] theorem blkPages_blk (o a : Nat) : blkPages (blk o a) = 1 <<< o := by
  rw [blkPages, blk_len, blockSize_eq, Nat.one_shiftLeft]
  exact Nat.mul_div_cancel _ (by decide)

/-- The number of pages on the free lists of the group. -/
def freePages (g : Pagegroup) : Nat := ((freeBlks g).map blkPages).sum

theorem freePages_of_perm {B : List Blk} (h : (freeBlks g).Perm B) :
    freePages g = (B.map blkPages).sum := (h.map blkPages).sum_nat

theorem freePages_take (ho : o < pageNsizes) (hl : (g.pgFreelist o).Perm (a :: l))
    (map : Nat → List Bool) :
    freePages g = 1 <<< o + freePages (g.setList o l map) := by
  rw [freePages_of_perm (freeBlks_erase map ho hl), map_cons, sum_cons, blkPages_blk]
  rfl

theorem freePages_give (ho : o < pageNsizes) (a : Nat) (map : Nat → List Bool) :
    freePages (g.setList o (a :: g.pgFreelist o) map) = 1 <<< o + freePages g := by
  rw [freePages_of_perm (freeBlks_insert map ho), map_cons, sum_cons, blkPages_blk]
  rfl

/-! ## 3. What an operation on a group keeps -/

/-- The two groups manage the same addresses. -/
def SameSpan (g g' : Pagegroup) : Prop :=
  g'.pgBaseaddr = g.pgBaseaddr ∧ g'.pgEndaddr = g.pgEndaddr

theorem SameSpan.trans {g' g'' : Pagegroup} (h1 : SameSpan g g') (h2 : SameSpan g' g'') :
    SameSpan g g'' := ⟨h2.1.trans h1.1, h2.2.trans h1.2⟩

/-- The bit that `__page_split` asserts to be clear is clear: the halves of a block that is
handed out are not free. -/
theorem Core.bit_clear (ho : o < pageNsizes - 1) (h : Core g ((o + 1, g.at (o + 1) i) :: live)) :
    bitCheck (g.pgMap (o + 1)) i = .ok false := by
  have hbit := h.bits o ho i (h.live_in_span (.head _))
  obtain ⟨hl, hr⟩ := h.halves_not_free
  have e1 : freeBit g.pgFreelist g.pgBaseaddr o (2 * i) = false := by
    simpa [freeBit, Pagegroup.at] using hl
  have e2 : freeBit g.pgFreelist g.pgBaseaddr o (2 * i + 1) = false := by
    simpa [freeBit, Pagegroup.at] using hr
  rw [e1, e2] at hbit
  simp [bitCheck, hbit]

/-! ## 4. Splitting -/

section
variable {g : Pagegroup} {live : List (Nat × Nat)} {o a k : Nat} {t : List Nat}

/-- The group after one split: the head of the list of `o + 1` is gone, its halves are the
first two of the list of `o`. -/
def Pagegroup.halved (g : Pagegroup) (o a : Nat) (t : List Nat) (map : Nat → List Bool) :
    Pagegroup :=
  (g.setList (o + 1) t map).setList o ((a + blockSize o) :: a :: g.pgFreelist o) map

/-- **`__page_split`** takes the head of the list and puts its halves on the list below. -/
theorem pageSplit1_spec (h : Core g live) (hfl : g.pgFreelist (o + 1) = a :: t) :
    ∃ map, pageSplit1 g (o + 1) = .ok (g.halved o a t map) ∧ Core (g.halved o a t map) live := by
  have ha : a ∈ g.pgFreelist (o + 1) := by rw [hfl]; exact .head _
  have ho := h.order_lt ha
  have hne : o ≠ o + 1 := by omega
  obtain ⟨k, rfl⟩ := h.freeAt _ _ ha
  obtain ⟨map, hflip, hcore⟩ := core_take h hfl
  refine ⟨map, ?_, ?_⟩
  · have hidx := calculateIndex_at (hcore.live_in_span (.head _)) hcore.basePage ho
    have hbit := hcore.bit_clear (by omega)
    rw [setList_at] at hidx
    simp only [pageSplit1, hfl, Nat.succ_pos, ho, decide_true, kassert_true, ok_bind, hflip, hidx,
      hbit, Bool.not_false, Nat.add_sub_cancel]
    simp [insertHead, halved, setList, pure, Except.pure]
  · have hcut := core_cut hcore
    rw [setList_ne _ _ _ _ hne, setList_at, setList_at, setList_map, at_succ,
      ← at_succ_order] at hcut
    exact hcut

/-- One split moves the open pair one order down, to the head of the list below. -/
theorem headPair_split (h : Core g live) (hfl : g.pgFreelist (o + 1) = g.at (o + 1) k :: t)
    (hbut : CoalescedBut g (o + 1) (k / 2)) (map : Nat → List Bool) :
    HeadPair (g.halved o (g.at (o + 1) k) t map) o := by
  have hco : Coalesced (g.setList (o + 1) t map) := coalesced_take h hfl hbut
  refine ⟨2 * k + 1, g.at (o + 1) k :: g.pgFreelist o, ?_, ?_⟩
  · simp [halved, at_succ, at_succ_order]
  · intro o' ho' i hp
    by_cases hoo : o' = o
    · subst hoo
      refine ⟨rfl, ?_⟩
      by_contra hi
      obtain ⟨h1, h2⟩ := paired_setList_self.mp hp
      rw [at_succ_order, ← at_succ, setList_at] at h1 h2
      have n1 := at_ne g o' (show 2 * i ≠ 2 * k + 1 by omega)
      have n2 := at_ne g o' (show 2 * i ≠ 2 * k by omega)
      have n3 := at_ne g o' (show 2 * i + 1 ≠ 2 * k + 1 by omega)
      have n4 := at_ne g o' (show 2 * i + 1 ≠ 2 * k by omega)
      have m1 := (mem_cons.mp ((mem_cons.mp h1).resolve_left n1)).resolve_left n2
      have m2 := (mem_cons.mp ((mem_cons.mp h2).resolve_left n3)).resolve_left n4
      have := (hbut o' ho' i ⟨m1, m2⟩).1
      omega
    · exact absurd ((paired_setList_ne hoo).mp hp) (hco o' ho' i)

/-- A split keeps the free pages: it takes one block and gives two of half its size. -/
theorem freePages_split (ho : o + 1 < pageNsizes) (hfl : g.pgFreelist (o + 1) = a :: t)
    (map : Nat → List Bool) : freePages (g.halved o a t map) = freePages g := by
  have hne : o ≠ o + 1 := by omega
  have ho' : o < pageNsizes := by omega
  have h0 := freePages_take ho (by rw [hfl] : (g.pgFreelist (o + 1)).Perm (a :: t)) map
  have h1 := freePages_give (g := g.setList (o + 1) t map) ho' a map
  have h2 := freePages_give (g := (g.setList (o + 1) t map).setList o (a :: g.pgFreelist o) map)
    ho' (a + blockSize o) map
  rw [setList_ne _ _ _ _ hne] at h1
  rw [setList_setList, setList_self] at h2
  rw [halved, h2, h1, h0, Nat.one_shiftLeft, Nat.one_shiftLeft, pow_succ]
  omega

end

/-- **The split loop** of `_page_split` ends with a free block of the order asked for at the
head of its list, and an open pair there at most. -/
theorem pageSplitDown_spec : ∀ (n : Nat) {g : Pagegroup},
    Core g live → HeadPair g (o + n) → ∃ g', pageSplitDown o n g = .ok g' ∧ Core g' live ∧
      HeadPair g' o ∧ SameSpan g g' ∧ freePages g' = freePages g
  | 0, g, h, hp => ⟨g, rfl, h, hp, ⟨rfl, rfl⟩, rfl⟩
  | n + 1, g, h, hp => by
    obtain ⟨k, t, hfl, hbut⟩ := hp
    have ho := h.order_lt (by rw [hfl]; exact .head _)
    obtain ⟨map, hsplit, hcore⟩ := pageSplit1_spec (o := o + n) h hfl
    obtain ⟨g', hrun, hcore', hhead', hspan, hpages⟩ :=
      pageSplitDown_spec n hcore (headPair_split h hfl hbut map)
    refine ⟨g', ?_, hcore', hhead', ⟨hspan.1, hspan.2⟩, ?_⟩
    · rw [pageSplitDown, show o + (n + 1) = o + n + 1 from rfl, hsplit]
      exact hrun
    · rw [hpages]
      exact freePages_split ho hfl map

/-! ## 5. Merging -/

/-- `list_remove` on a link that is on the list of `o` and on no other. -/
theorem listRemove_eq (ho : o < pageNsizes) (ha : a ∈ g.pgFreelist o)
    (hne : ∀ o', o' ≠ o → a ∉ g.pgFreelist o') :
    g.listRemove a = .ok (g.setList o ((g.pgFreelist o).erase a) g.pgMap) := by
  have hany : ((range pageNsizes).any fun o => (g.pgFreelist o).contains a) = true := by
    rw [any_eq_true]
    exact ⟨o, mem_range.mpr ho, by simpa using ha⟩
  have hfun : (fun o => (g.pgFreelist o).erase a) =
      update g.pgFreelist o ((g.pgFreelist o).erase a) := by
    funext o'
    by_cases hoo : o' = o
    · subst hoo; rw [update_self]
    · rw [update_of_ne hoo, erase_of_not_mem (hne o' hoo)]
  rw [listRemove, if_pos hany, hfun]
  rfl

/-- The place of the buddy of the `k`-th block. -/
def buddyOf (k : Nat) : Nat := if k % 2 = 1 then k - 1 else k + 1

theorem buddyOf_ne (k : Nat) : buddyOf k ≠ k := by
  unfold buddyOf; split <;> omega

theorem buddyOf_div (k : Nat) : buddyOf k / 2 = k / 2 := by
  unfold buddyOf; split <;> omega

theorem buddy_cases (k : Nat) : ∃ j, k / 2 = j ∧
    (k = 2 * j ∧ buddyOf k = 2 * j + 1 ∨ k = 2 * j + 1 ∧ buddyOf k = 2 * j) := by
  refine ⟨k / 2, rfl, ?_⟩
  unfold buddyOf
  split <;> omega

section
variable (g : Pagegroup) (o k : Nat)

/-- The code's test on the offset finds the buddy. -/
theorem buddy_addr :
    (if (((g.at o k - g.pgBaseaddr) >>> pageShift) >>> o) &&& 1 ≠ 0 then g.at o k - blockSize o
      else g.at o k + blockSize o) = g.at o (buddyOf k) := by
  have hoff : ((g.at o k - g.pgBaseaddr) >>> pageShift) >>> o = k := by
    rw [at_eq_pages, Nat.add_sub_cancel_left, Nat.shiftRight_eq_div_pow, Nat.shiftRight_eq_div_pow]
    rw [show (k * 2 ^ o) * pageSize / 2 ^ pageShift = k * 2 ^ o from
      Nat.mul_div_cancel _ (by decide)]
    exact Nat.mul_div_cancel _ (Nat.two_pow_pos o)
  rw [hoff, Nat.and_one_is_mod, buddyOf]
  by_cases hk : k % 2 = 1
  · have hsucc : k = (k - 1) + 1 := by omega
    rw [if_pos (by omega), if_pos hk]
    nth_rewrite 1 [hsucc]
    rw [at_succ, Nat.add_sub_cancel]
  · rw [if_neg (by omega), if_neg hk, at_succ]

/-- The offset of a block passes the `KASSERT` of `__page_join`. -/
theorem offset_aligned : ((g.at o k - g.pgBaseaddr) &&& ((1 <<< o) - 1) == 0) = true := by
  rw [and_low_bits, beq_iff_eq, Pagegroup.at, Nat.add_sub_cancel_left, blockSize_eq]
  exact Nat.mod_eq_zero_of_dvd (Dvd.dvd.mul_left (Dvd.intro _ rfl) k)

theorem min_buddy : min (g.at o k) (g.at o (buddyOf k)) = g.at (o + 1) (k / 2) := by
  rw [at_succ_order]
  obtain ⟨j, hj, ⟨rfl, hb⟩ | ⟨rfl, hb⟩⟩ := buddy_cases k
  · rw [hj, hb, at_succ]
    exact Nat.min_eq_left (by omega)
  · rw [hj, hb, at_succ]
    exact Nat.min_eq_right (by omega)

/-- A block and its buddy are the two halves of the pair, one way round or the other. -/
theorem pair_perm (l : List Nat) : (g.at o k :: g.at o (buddyOf k) :: l).Perm
      (g.at o (2 * (k / 2)) :: g.at o (2 * (k / 2) + 1) :: l) := by
  obtain ⟨j, hj, ⟨rfl, hb⟩ | ⟨rfl, hb⟩⟩ := buddy_cases k
  · rw [hj, hb]
  · rw [hj, hb]
    exact List.Perm.swap _ _ _

end

section
variable {g : Pagegroup} {live : List (Nat × Nat)} {o k : Nat}

/-- **What the bit tells.**  For a free block, the bit of its pair is clear exactly when its
buddy is free too. -/
theorem Core.bit_of_free (h : Core g live) (ho : o < pageNsizes - 1)
    (hk : g.at o k ∈ g.pgFreelist o) :
    bitCheck (g.pgMap (o + 1)) (k / 2) = .ok (!(g.pgFreelist o).contains (g.at o (buddyOf k))) := by
  have hbit := h.bits o ho (k / 2) (h.pair_in_span ho (h.free_in_span hk))
  have hself : freeBit g.pgFreelist g.pgBaseaddr o k = true := by
    simpa [freeBit, Pagegroup.at] using hk
  rw [bitCheck, hbit]
  change _ = Except.ok (!freeBit g.pgFreelist g.pgBaseaddr o (buddyOf k))
  obtain ⟨j, hj, ⟨rfl, hb⟩ | ⟨rfl, hb⟩⟩ := buddy_cases k
  · rw [hj, hb, hself]
    simp
  · rw [hj, hb, hself]
    simp

/-- With its buddy taken, the block is in no free pair. -/
theorem coalesced_of_buddy (hbut : CoalescedBut g o (k / 2))
    (hb : g.at o (buddyOf k) ∉ g.pgFreelist o) : Coalesced g := by
  intro o' ho' i hp
  obtain ⟨rfl, rfl⟩ := hbut o' ho' i hp
  obtain ⟨j, hj, ⟨rfl, hk⟩ | ⟨rfl, hk⟩⟩ := buddy_cases k
  · rw [hj] at hp
    rw [hk] at hb
    exact hb hp.2
  · rw [hj] at hp
    rw [hk] at hb
    exact hb hp.1

/-- Unlinking both halves of the open pair closes it. -/
theorem coalesced_glue (h : Core g live) (hbut : CoalescedBut g o (k / 2))
    (hperm : (g.pgFreelist o).Perm
      (g.at o (2 * (k / 2)) :: g.at o (2 * (k / 2) + 1) :: l)) :
    Coalesced (g.setList o l g.pgMap) := by
  have hnd := hperm.nodup_iff.mp (h.nodup o)
  intro o' ho' i hp
  by_cases hoo : o' = o
  · subst hoo
    obtain ⟨h1, h2⟩ := paired_setList_self.mp hp
    have hsub : ∀ x ∈ l, x ∈ g.pgFreelist o' := fun x hx =>
      hperm.mem_iff.mpr (.tail _ (.tail _ hx))
    obtain ⟨-, rfl⟩ := hbut o' ho' i ⟨hsub _ h1, hsub _ h2⟩
    exact (nodup_cons.mp hnd).1 (.tail _ h1)
  · exact hoo (hbut o' ho' i ((paired_setList_ne hoo).mp hp)).1

/-- The two `list_remove` calls of a merge, when the buddy is free. -/
theorem listRemove_pair (h : Core g live) (ho : o < pageNsizes - 1)
    (hk : g.at o k ∈ g.pgFreelist o) (hb : g.at o (buddyOf k) ∈ g.pgFreelist o) :
    ∃ l, (do (← g.listRemove (g.at o k)).listRemove (g.at o (buddyOf k)))
        = Except.ok (g.setList o l g.pgMap) ∧
      (g.pgFreelist o).Perm (g.at o (2 * (k / 2)) :: g.at o (2 * (k / 2) + 1) :: l) := by
  have hne := at_ne g o (buddyOf_ne k)
  have hmem : g.at o (buddyOf k) ∈ (g.pgFreelist o).erase (g.at o k) :=
    (mem_erase_of_ne hne).mpr hb
  refine ⟨((g.pgFreelist o).erase (g.at o k)).erase (g.at o (buddyOf k)), ?_, ?_⟩
  · rw [listRemove_eq (by omega) hk fun o' hoo e => hoo (h.unique_order hk e), ok_bind,
      listRemove_eq (o := o) (by omega) (by rw [setList_self]; exact hmem) ?_]
    · rw [setList_self, setList_setList, setList_map]
    · intro o' hoo e
      rw [setList_ne _ _ _ _ hoo] at e
      exact hoo (h.unique_order hb e)
  · exact ((perm_cons_erase hk).trans ((perm_cons_erase hmem).cons _)).trans (pair_perm g o k _)

end

/-- **`__page_join` never merges with a block that is not free**: from a group in which only the
pair of the block just freed may be open, the merge loop returns and leaves no pair open. -/
theorem pageJoin_spec : ∀ (fuel : Nat) {g : Pagegroup} {o k : Nat},
    Core g live → o < pageNsizes → pageNsizes ≤ o + fuel → g.at o k ∈ g.pgFreelist o →
    CoalescedBut g o (k / 2) →
    ∃ g', pageJoin fuel g o (g.at o k) = .ok g' ∧ Core g' live ∧ Coalesced g' ∧ SameSpan g g' ∧
      freePages g' = freePages g
  | 0, g, o, k, _, ho, hfuel, _, _ => absurd ho (by omega)
  | fuel + 1, g, o, k, h, ho, hfuel, hk, hbut => by
    by_cases htop : o < pageNsizes - 1
    · have hidx := calculateIndex_at_succ (h.free_in_span hk) h.basePage htop
      have hbit := h.bit_of_free htop hk
      by_cases hb : g.at o (buddyOf k) ∈ g.pgFreelist o
      · have hb' : (g.pgFreelist o).contains (g.at o (buddyOf k)) = true := by simpa using hb
        -- the buddy is free: unlink both, insert the union one order up, and go on there
        obtain ⟨l, hrem, hperm⟩ := listRemove_pair h htop hk hb
        have hglue := core_glue h htop hperm
        obtain ⟨map, hflip, hcore⟩ := core_give hglue
        have hco := coalesced_glue h hbut hperm
        have hbut' := coalescedBut_insert hco (o + 1) (k / 2) map
        obtain ⟨g', hrun, hcore', hco', hspan', hpages'⟩ :=
          pageJoin_spec fuel (k := k / 2) hcore (by omega) (by omega)
            (by rw [setList_self]; exact .head _) hbut'
        refine ⟨g', ?_, hcore', hco', hspan', ?_⟩
        · obtain ⟨g1, hg1, hg2⟩ := bind_eq_ok hrem
          simp only [pageJoin, if_pos htop, hidx, ok_bind, hbit, hb', Bool.not_true,
            buddy_addr, offset_aligned, kassert_true, hg1, hg2, min_buddy, hflip,
              Bool.false_eq_true,
            if_false]
          exact hrun
        · rw [hpages', freePages_give (by omega)]
          have h1 := freePages_take (by omega : o < pageNsizes) hperm g.pgMap
          have h2 := freePages_take (g := g.setList o (g.at o (2 * (k / 2) + 1) :: l) g.pgMap)
            (o := o) (l := l)
            (by omega) (by rw [setList_self]) g.pgMap
          rw [setList_setList] at h2
          rw [h1, h2, Nat.one_shiftLeft, Nat.one_shiftLeft, pow_succ]
          omega
      · have hb' : (g.pgFreelist o).contains (g.at o (buddyOf k)) = false := by simpa using hb
        refine ⟨g, ?_, h, coalesced_of_buddy hbut hb, ⟨rfl, rfl⟩, rfl⟩
        simp only [pageJoin, if_pos htop, hidx, ok_bind, hbit, hb', Bool.not_false, if_true]
        rfl
    · refine ⟨g, ?_, h, ?_, ⟨rfl, rfl⟩, rfl⟩
      · simp only [pageJoin, if_neg htop]
      · intro o' ho' i hp
        obtain ⟨rfl, -⟩ := hbut o' ho' i hp
        exact htop ho'

/-- **Freeing a block that is handed out** returns it to a coalesced group. -/
theorem pageGive_spec (h : Core g ((o, a) :: live)) (hco : Coalesced g) :
    ∃ g', pageGive g a o = .ok g' ∧ Core g' live ∧ Coalesced g' ∧ SameSpan g g' ∧
      freePages g' = freePages g + 1 <<< o := by
  obtain ⟨ho, k, hk⟩ := h.liveAt (o, a) (.head _)
  simp only at ho hk
  subst hk
  obtain ⟨map, hflip, hcore⟩ := core_give h
  have hbut := coalescedBut_insert hco o k map
  obtain ⟨g', hrun, hcore', hco', hspan', hpages'⟩ :=
    pageJoin_spec pageNsizes (k := k) hcore ho (by omega)
      (by rw [setList_self]; exact .head _) hbut
  refine ⟨g', ?_, hcore', hco', hspan', ?_⟩
  · by_cases htop : o < pageNsizes - 1
    · simp only [pageGive, if_pos htop, hflip, ok_bind]
      exact hrun
    · -- the largest order: no bitmap, and the merge loop does not start
      have hmap := hflip
      rw [flipPair, if_neg htop] at hmap
      rw [pageGive, if_neg htop, hmap, ← hrun, show pageNsizes = (pageNsizes - 1) + 1 from rfl,
        pageJoin, if_neg htop]
  · rw [hpages', freePages_give ho]
    omega

end Weenix.Page
