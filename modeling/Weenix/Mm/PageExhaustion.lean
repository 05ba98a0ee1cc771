/-
# When a request for pages fails

`page_alloc_n` returns `NULL` after a reclaim, without another search: `num_retrys` is 0 as long as
`__SHADOWD__` is off.  So a request fails exactly if there was no free block of its order or a
larger one at the start of the call, whatever the reclaim gave back.

What the reclaim makes of the empty slabs is known without following it.  The groups are completely
merged (`Coalesced`), and then a free block of order `o` or larger exists exactly if some aligned
block of `2 ^ o` pages has no page in use (`serves_iff`): going up from the single pages, two free
buddies of one order would have been merged.  The claim that memory is exhausted is therefore right
exactly for the requests of `null_exhausted`.
-/
import Weenix.Mm.PageSeparation

namespace Weenix.Page

open Tile Lts List Pagegroup

variable {empty live : List (Nat × Nat)} {k k' m n o : Nat} {g : Pagegroup} {sys sys' : PageSys}
  {res : Option Nat}

attribute [local irreducible] blockSize

/-! ## 1. The search -/

/-- Some group has a free block of the order or a larger one. -/
def Serves (sys : PageSys) (o : Nat) : Prop :=
  ∃ m, o ≤ m ∧ m < pageNsizes ∧ ∃ g ∈ sys.pagegroupList, g.pgFreelist m ≠ []

theorem pageOrderFrom_lt {fuel order : Nat} (h : pageOrderFrom n fuel order = some o) :
    o < order + fuel := by
  fun_induction pageOrderFrom n fuel order with
  | case1 => cases h
  | case2 =>
    cases h
    omega
  | case3 fuel order hno ih =>
    have := ih h
    omega

theorem pageOrder_lt (h : pageOrder n = .ok o) : o < pageNsizes := by
  unfold pageOrder at h
  split at h
  case h_1 ho =>
    cases h
    have := pageOrderFrom_lt ho
    omega
  case h_2 => cases h

theorem serves_of_findIdx {i : Nat} (hle : o ≤ m) (hlt : m < pageNsizes)
    (h : (sys.pagegroupList.findIdx? fun g => !(g.pgFreelist m).isEmpty) = some i) :
    Serves sys o := by
  obtain ⟨pre, g, post, hlist, -, hne, -⟩ := findIdx?_split h
  refine ⟨m, hle, hlt, g, by rw [hlist]; exact mem_append_right _ (.head _), fun hnil => ?_⟩
  rw [hnil] at hne
  cases hne

/-- The search of `_page_split` fails only if there is nothing to split. -/
theorem pageSplitSearch_none {fuel norder : Nat} (h : pageSplitSearch sys fuel norder = none) :
    ∀ m, norder ≤ m → m < norder + fuel → ∀ g ∈ sys.pagegroupList, g.pgFreelist m = [] := by
  fun_induction pageSplitSearch sys fuel norder with
  | case1 => omega
  | case2 => cases h
  | case3 norder fuel hnone ih =>
    intro m hle hlt g hg
    obtain rfl | hlt' := Nat.eq_or_lt_of_le hle
    · simpa using findIdx?_eq_none_iff.mp hnone g hg
    · exact ih h m hlt' (by omega) g hg

theorem pageSplitSearch_lt {fuel norder i : Nat}
    (h : pageSplitSearch sys fuel norder = some (i, m)) :
    m < norder + fuel := by
  fun_induction pageSplitSearch sys fuel norder with
  | case1 => cases h
  | case2 norder fuel i hi =>
    cases h
    omega
  | case3 norder fuel hnone ih =>
    have := ih h
    omega

/-- `_page_alloc_order` returns `NULL` exactly if both searches fail, and after a reclaim. -/
theorem pageAllocOrder_null (ho : o < pageNsizes)
    (h : pageAllocOrder sys o empty = .ok (sys', res)) :
    (res = none ↔ ¬ Serves sys o) ∧ (res = none → slabAllocatorsReclaim sys empty = .ok sys') := by
  unfold pageAllocOrder at h
  split at h
  case h_1 i hi =>
    obtain ⟨_, -, ht⟩ := bind_eq_ok h
    cases ht
    exact ⟨iff_of_false nofun (not_not_intro (serves_of_findIdx le_rfl ho hi)), nofun⟩
  case h_2 hnone =>
    obtain ⟨⟨t, found⟩, hsplit, h⟩ := bind_eq_ok h
    unfold pageSplit at hsplit
    split at hsplit
    case h_1 hsearch =>
      obtain ⟨t, hrec, hsplit⟩ := bind_eq_ok hsplit
      cases hsplit
      cases h
      -- the two searches are one, from the order `o` on
      have hboth : pageSplitSearch sys (pageNsizes - 1 - o + 1) o = none := by
        rw [pageSplitSearch, hnone]
        exact hsearch
      refine ⟨iff_of_true rfl ?_, fun _ => hrec⟩
      rintro ⟨m, hle, hlt, g, hg, hne⟩
      exact hne (pageSplitSearch_none hboth m hle (by omega) g hg)
    case h_2 i m hsearch =>
      have hserves : Serves sys o := by
        have hlt := pageSplitSearch_lt hsearch
        obtain ⟨hle, hi⟩ := pageSplitSearch_spec hsearch
        exact serves_of_findIdx (by omega) (by omega) hi
      have hsome : res ≠ none := by
        split at hsplit
        case h_1 => cases hsplit
        case h_2 =>
          obtain ⟨_, -, hsplit⟩ := bind_eq_ok hsplit
          obtain ⟨_, -, hsplit⟩ := bind_eq_ok hsplit
          cases hsplit
          obtain ⟨_, -, h⟩ := bind_eq_ok h
          cases h
          nofun
      exact ⟨iff_of_false hsome (not_not_intro hserves), fun h => absurd h hsome⟩

/-! ## 2. Free pages that make up a block -/

/-- No block of the list meets the block of order `o` at `a`. -/
def Clear (live : List (Nat × Nat)) (o a : Nat) : Prop :=
  ∀ b ∈ live, b.2 + blockSize b.1 ≤ a ∨ a + blockSize o ≤ b.2

theorem blockSize_add (o d : Nat) : blockSize (o + d) = 2 ^ d * blockSize o := by
  rw [blockSize_eq, blockSize_eq, pow_add]
  ring

/-- The block of a larger order that holds the start of a block. -/
theorem index_of_larger (hle : o ≤ m) (h1 : g.at m k' ≤ g.at o k)
    (h2 : g.at o k < g.at m k' + blockSize m) : k' = k / 2 ^ (m - o) := by
  obtain ⟨d, rfl⟩ := Nat.exists_eq_add_of_le hle
  have hpos := blockSize_pos o
  rw [← at_succ] at h2
  simp only [Pagegroup.at, blockSize_add, ← Nat.mul_assoc] at h1 h2
  rw [Nat.add_sub_cancel_left]
  refine (Nat.div_eq_of_lt_le ?_ ?_).symm
  · exact Nat.le_of_mul_le_mul_right (Nat.le_of_add_le_add_left h1) hpos
  · exact Nat.lt_of_mul_lt_mul_right (Nat.lt_of_add_lt_add_left h2)

/-- **Free pages that make up an aligned block lie in one free block**, if the group is completely
merged. -/
theorem Core.free_of_clear (h : Core g live) (hco : Coalesced g) (ho : o < pageNsizes)
    (hk : (k + 1) * blockSize o ≤ g.pgEndaddr - g.pgBaseaddr) (hclear : Clear live o (g.at o k)) :
    ∃ m, o ≤ m ∧ g.at m (k / 2 ^ (m - o)) ∈ g.pgFreelist m := by
  -- on the order: the halves lie in free blocks, and these are not the halves themselves
  induction o generalizing k with
  | zero =>
    obtain ⟨b, hb, hhas⟩ := h.tiles.exists_has (Nat.le_add_right _ _) (at_lt_end hk)
    rw [Blk.has_iff] at hhas
    obtain hb | hb := mem_append.mp hb
    · obtain ⟨m, -, a, ha, rfl⟩ := Page.mem_freeBlks.mp hb
      obtain ⟨k', rfl⟩ := h.freeAt m a ha
      refine ⟨m, m.zero_le, ?_⟩
      rw [← index_of_larger m.zero_le hhas.1 hhas.2]
      exact ha
    · obtain ⟨c, hc, rfl⟩ := mem_map.mp hb
      have hpos := blockSize_pos 0
      have hapart := hclear c hc
      simp only [liveBlk, blk_lo, blk_len, Pagegroup.at] at hhas hapart
      omega
  | succ o ih =>
    have hat : g.at o (2 * k) = g.at (o + 1) k := (at_succ_order g o k).symm
    have hsize := blockSize_succ o
    have hspan : (2 * k + 1 + 1) * blockSize o = (k + 1) * blockSize (o + 1) := by
      rw [hsize]
      ring
    have hleft : Clear live o (g.at o (2 * k)) := fun b hb => by
      have := hclear b hb
      omega
    have hright : Clear live o (g.at o (2 * k + 1)) := fun b hb => by
      have := hclear b hb
      rw [at_succ]
      omega
    have hsub : (2 * k + 1) * blockSize o ≤ (2 * k + 1 + 1) * blockSize o :=
      Nat.mul_le_mul_right _ (Nat.le_succ _)
    obtain ⟨m₀, hm₀, hfree₀⟩ := ih (by omega) (by omega) hleft
    obtain ⟨m₁, hm₁, hfree₁⟩ := ih (by omega) (by omega) hright
    have hhalf : ∀ {m j}, o + 1 ≤ m → j / 2 = k → j / 2 ^ (m - o) = k / 2 ^ (m - (o + 1)) := by
      intro m j hle hj
      rw [show m - o = (m - (o + 1)) + 1 by omega, pow_succ', ← Nat.div_div_eq_div_mul, hj]
    obtain hlt | rfl := Nat.lt_or_eq_of_le hm₀
    · exact ⟨m₀, hlt, hhalf hlt (by omega : 2 * k / 2 = k) ▸ hfree₀⟩
    obtain hlt | rfl := Nat.lt_or_eq_of_le hm₁
    · exact ⟨m₁, hlt, hhalf hlt (by omega : (2 * k + 1) / 2 = k) ▸ hfree₁⟩
    rw [Nat.sub_self, pow_zero, Nat.div_one] at hfree₀ hfree₁
    exact absurd ⟨hfree₀, hfree₁⟩ (hco o (by omega) k)

/-- The start of a larger free block. -/
theorem Core.clear_of_free (h : Core g live) (hle : o ≤ m) (hfree : g.at m k ∈ g.pgFreelist m) :
    ∃ k', (k' + 1) * blockSize o ≤ g.pgEndaddr - g.pgBaseaddr ∧ Clear live o (g.at o k') := by
  obtain ⟨d, rfl⟩ := Nat.exists_eq_add_of_le hle
  have hpos := blockSize_pos o
  have hspan := h.free_in_span hfree
  have hone : blockSize o ≤ blockSize (o + d) := by
    rw [blockSize_add]
    exact Nat.le_mul_of_pos_left _ (Nat.two_pow_pos d)
  have hat : g.at o (k * 2 ^ d) = g.at (o + d) k := by
    rw [Pagegroup.at, Pagegroup.at, blockSize_add, Nat.mul_assoc]
  refine ⟨k * 2 ^ d, ?_, fun b hb => ?_⟩
  · rw [Nat.succ_mul, Nat.mul_assoc, ← blockSize_add]
    rw [Nat.succ_mul] at hspan
    omega
  · rw [hat]
    by_contra hmeet
    rw [not_or, Nat.not_le, Nat.not_le] at hmeet
    obtain hle | hlt := Nat.le_total b.2 (g.at (o + d) k)
    · exact h.not_free_of_live hb hle hmeet.1 le_rfl (by omega) hfree
    · exact h.not_free_of_live hb le_rfl (by have := blockSize_pos b.1; omega) hlt (by omega) hfree

/-- Some aligned block of `2 ^ o` pages of a group has no page of the requests. -/
def Room (sys : PageSys) (live : List (Nat × Nat)) (o : Nat) : Prop :=
  ∃ r ∈ sys.spans, ∃ k ∈ range ((r.2 - r.1) / blockSize o), ∀ q ∈ live, r.1 ≤ q.1 → q.1 < r.2 →
    q.1 + blockSize (reqOrder q.2) ≤ r.1 + k * blockSize o ∨
      r.1 + k * blockSize o + blockSize o ≤ q.1
deriving Decidable

theorem clear_liveIn : Clear (g.liveIn live) o (g.at o k) ↔
    ∀ q ∈ live, g.pgBaseaddr ≤ q.1 → q.1 < g.pgEndaddr →
      q.1 + blockSize (reqOrder q.2) ≤ g.at o k ∨ g.at o k + blockSize o ≤ q.1 := by
  simp only [Clear, liveIn, mem_map, mem_filter, spans_iff, reqBlock]
  constructor
  · exact fun h q hq h1 h2 => h _ ⟨q, ⟨hq, h1, h2⟩, rfl⟩
  · rintro h _ ⟨q, ⟨hq, h1, h2⟩, rfl⟩
    exact h q hq h1 h2

/-- **There is a free block exactly if there is room for one.** -/
theorem serves_iff (h : SysInv ⟨sys, live⟩) (hco : AllCoalesced ⟨sys, live⟩) (ho : o < pageNsizes) :
    Serves sys o ↔ Room sys live o := by
  have hlt : ∀ {k d}, k < d / blockSize o ↔ (k + 1) * blockSize o ≤ d := fun {k d} =>
    Nat.le_div_iff_mul_le (blockSize_pos o)
  simp only [Room, PageSys.spans, mem_map, mem_range, hlt]
  constructor
  · rintro ⟨m, hle, -, g, hg, hne⟩
    obtain ⟨a, ha⟩ := exists_mem_of_ne_nil _ hne
    have hcore := h.core g hg
    obtain ⟨k, rfl⟩ := hcore.freeAt m a ha
    obtain ⟨k', hk', hclear⟩ := hcore.clear_of_free hle ha
    exact ⟨_, ⟨g, hg, rfl⟩, k', hk', clear_liveIn.mp hclear⟩
  · rintro ⟨_, ⟨g, hg, rfl⟩, k, hk, hclear⟩
    have hcore := h.core g hg
    obtain ⟨m, hle, hfree⟩ := hcore.free_of_clear (hco g hg) ho hk (clear_liveIn.mpr hclear)
    exact ⟨m, hle, hcore.order_lt hfree, g, hg, ne_nil_of_mem hfree⟩

/-! ## 3. Requests that fail -/

/-- **When `NULL` means that memory is exhausted.**  In any state: if there is a block at the start,
or no slab to reclaim.  And in the states of the allocator's runs exactly if there is a block at the
start, or the pages that are not in use, with those of the empty slabs, have no room for one. -/
theorem null_exhausted (h : pageAllocN sys n empty = .ok (sys', res)) :
    (Serves sys (reqOrder n) ∨ empty = [] → res = none → ¬ Serves sys' (reqOrder n)) ∧
    ∀ live, SysInv ⟨sys, live⟩ → AllCoalesced ⟨sys, live⟩ → empty.Subperm live →
      ((res = none → ¬ Serves sys' (reqOrder n)) ↔
        Serves sys (reqOrder n) ∨ ¬ Room sys (live.diff empty) (reqOrder n)) := by
  obtain ⟨o, ho, h⟩ := bind_eq_ok h
  have hlt : o < pageNsizes := pageOrder_lt ho
  rw [reqOrder_eq ho]
  obtain ⟨hnull, hrec⟩ := pageAllocOrder_null hlt h
  refine ⟨?_, fun live hinv hco hsub => ?_⟩
  · rintro (hserves | rfl) hres
    · exact absurd hserves (hnull.mp hres)
    · cases hrec hres
      exact hnull.mp hres
  · by_cases hserves : Serves sys o
    · exact iff_of_true (fun hres => absurd hserves (hnull.mp hres)) (.inl hserves)
    have hres := hnull.mpr hserves
    obtain ⟨t, ht, hinv', hco', hspans⟩ := slabAllocatorsReclaim_spec empty hinv hco hsub
    obtain rfl : t = sys' := Except.ok.inj (ht.symm.trans (hrec hres))
    have hroom : Room t (live.diff empty) o ↔
      Room sys (live.diff empty) o := by rw [Room, hspans, Room]
    rw [serves_iff hinv' hco' hlt, hroom]
    exact ⟨fun hno => .inr (hno hres), fun hno _ => hno.resolve_left hserves⟩

/-- All 128 pages are held, the last one by an empty slab.  It does not make up the two pages that
are requested, and nothing else is free. -/
theorem null_exhausted_128 : ∃ s0 s sys', pageAddRanges pageInit [(0x100000, 0x181000)] = .ok s0 ∧
    Run PageLegal pageStep ⟨s0, []⟩ s ∧ (0x17f000, 1) ∈ s.live ∧
    pageAllocN s.sys 2 [(0x17f000, 1)] = .ok (sys', none) ∧ ¬ Serves sys' 1 := by
  obtain ⟨s0, s, h0, hs, htest⟩ := exists_of_ranges [(0x100000, 0x181000)]
    ([1, 1, 2, 4, 8, 16, 32, 64].map (.pageAllocN · [])) (fun s0 s =>
      (∀ g ∈ s0.pagegroupList, g.usable % 128 = 0) ∧ (0x17f000, 1) ∈ s.live ∧
      ¬ Room s.sys (s.live.diff [(0x17f000, 1)]) 1 ∧
      (pageAllocN s.sys 2 [(0x17f000, 1)]).toOption.any (fun r => r.2 = none) = true)
    (by decide +kernel)
  obtain ⟨hn, hlive, hroom, hany⟩ := of_decide_eq_true htest
  obtain ⟨⟨sys', res⟩, hr, hres⟩ := ok_of_any hany
  obtain rfl := of_decide_eq_true hres
  obtain ⟨hinv, hco, -⟩ := sysInv_run ⟨by simp, by simp⟩ h0 hn hs
  have hsub : [(0x17f000, 1)].Subperm s.live := singleton_subperm_iff.mpr hlive
  exact ⟨s0, s, sys', h0, hs, hlive, hr,
    ((null_exhausted hr).2 s.live hinv hco hsub).mpr (.inr hroom) rfl⟩

/-- **The page of an empty slab is not used.**  All 128 pages are held, the last one by an empty
slab; the request for one page gives it back, does not search again and returns `NULL`. -/
theorem reclaimed_unused : ∃ s0 s sys', pageAddRanges pageInit [(0x100000, 0x181000)] = .ok s0 ∧
    Run PageLegal pageStep ⟨s0, []⟩ s ∧ (0x17f000, 1) ∈ s.live ∧
    pageAllocN s.sys 1 [(0x17f000, 1)] = .ok (sys', none) ∧
    ∃ g ∈ sys'.pagegroupList, g.pgFreelist 0 ≠ [] := by
  obtain ⟨s0, s, h0, hs, htest⟩ := exists_of_ranges [(0x100000, 0x181000)]
    ([1, 1, 2, 4, 8, 16, 32, 64].map (.pageAllocN · [])) (fun _ s => (0x17f000, 1) ∈ s.live ∧
      (pageAllocN s.sys 1 [(0x17f000, 1)]).toOption.any (fun r =>
        r.2 = none ∧ ∃ g ∈ r.1.pagegroupList, g.pgFreelist 0 ≠ []) = true) (by decide +kernel)
  obtain ⟨hlive, hany⟩ := of_decide_eq_true htest
  obtain ⟨⟨sys', res⟩, hr, hres⟩ := ok_of_any hany
  obtain ⟨rfl, hfree⟩ := of_decide_eq_true hres
  exact ⟨s0, s, sys', h0, hs, hlive, hr, hfree⟩

end Weenix.Page
