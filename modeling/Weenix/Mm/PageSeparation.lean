/-
# Separation and complete coalescing

What the page allocator promises over whole runs, and for which ranges it keeps the promise.

For ranges whose groups have a multiple of 128 usable pages every run keeps the buddy invariant,
so blocks are separated, no `KASSERT` fires, and once all requests are freed the lists are what
they were at the start.  For any other range the promise is broken by two calls: request the
block at the lowest set bit of the page count and free it again (`ragged_fails`).
-/
import Mathlib.Tactic.IntervalCases
import Weenix.Mm.PageRun

namespace Weenix.Page

open Tile Lts List Pagegroup

variable {b : Blk} {live ranges : List (Nat × Nat)} {k o p : Nat} {r : Nat × Nat} {s : PageState}
  {s0 : PageSys} {g : Pagegroup}

attribute [local irreducible] blockSize

/-! ## 1. The groups a list of ranges gives -/

/-- `g` is the group kept for the range `r`. -/
structure KeptFrom (r : Nat × Nat) (g : Pagegroup) : Prop where
  range : PageRange (pageAlignDown r.1) (pageAlignDown r.2)
  create : pagegroupCreate (pageAlignDown r.1) (pageAlignDown r.2) = .ok g
  kept : g.pgBaseaddr < g.pgEndaddr

theorem pageAlignDown_mono {x y : Nat} (h : x ≤ y) : pageAlignDown x ≤ pageAlignDown y :=
  Nat.mul_le_mul_right _ (Nat.div_le_div_right h)

theorem pageRange_alignDown (h : r.1 ≤ r.2 ∧ r.2 < 2 ^ 32) :
    PageRange (pageAlignDown r.1) (pageAlignDown r.2) :=
  ⟨pageAlignDown_dvd _, pageAlignDown_dvd _, pageAlignDown_mono h.1,
    (pageAlignDown_le _).trans_lt h.2⟩

theorem pageAddRange_inv {sys sys' : PageSys} (hr : r.1 ≤ r.2 ∧ r.2 < 2 ^ 32)
    (h : pageAddRange sys r.1 r.2 = .ok sys') :
    sys' = sys ∨ ∃ g, KeptFrom r g ∧
      sys' = ⟨sys.pagegroupList ++ [g], sys.pageFreecount + g.usable⟩ := by
  obtain ⟨g, hg, h⟩ := bind_eq_ok h
  split at h
  · rename_i hkept
    cases h
    exact .inr ⟨g, ⟨pageRange_alignDown hr, hg, hkept⟩, rfl⟩
  · cases h
    exact .inl rfl

/-- The list of groups is the list of ranges without those that were dropped, in order. -/
theorem pageAddRanges_inv : ∀ {ranges : List (Nat × Nat)} {sys sys' : PageSys},
    (∀ r ∈ ranges, r.1 ≤ r.2 ∧ r.2 < 2 ^ 32) → pageAddRanges sys ranges = .ok sys' →
    ∃ kept : List ((Nat × Nat) × Pagegroup),
      sys'.pagegroupList = sys.pagegroupList ++ kept.map Prod.snd ∧
      (kept.map Prod.fst).Sublist ranges ∧ (∀ x ∈ kept, KeptFrom x.1 x.2) ∧
      sys'.pageFreecount = sys.pageFreecount + (kept.map fun x => x.2.usable).sum
  | [], sys, sys', _, h => by
    cases h
    exact ⟨[], by simp, List.Sublist.refl _, fun x hx => absurd hx not_mem_nil, rfl⟩
  | r :: rest, sys, sys', hle, h => by
    obtain ⟨sys1, h1, h2⟩ := bind_eq_ok h
    obtain ⟨kept, hlist, hsub, hkept, hcount⟩ :=
      pageAddRanges_inv (fun r' hr' => hle r' (.tail _ hr')) h2
    obtain rfl | ⟨g, hg, rfl⟩ := pageAddRange_inv (hle r (.head _)) h1
    · exact ⟨kept, hlist, hsub.cons _, hkept, hcount⟩
    · refine ⟨(r, g) :: kept, ?_, hsub.cons_cons _, ?_, ?_⟩
      · rw [hlist, map_cons, append_assoc]
        rfl
      · intro x hx
        obtain rfl | hx' := mem_cons.mp hx
        · exact hg
        · exact hkept x hx'
      · rw [hcount, map_cons, sum_cons]
        exact Nat.add_assoc _ _ _

theorem KeptFrom.apart {r' : Nat × Nat} {g' : Pagegroup} (h : KeptFrom r g)
    (h' : KeptFrom r' g') (hg : g.pgEndaddr ≤ pageAlignDown r.2)
    (hg' : g'.pgEndaddr ≤ pageAlignDown r'.2) (hap : r.2 ≤ r'.1 ∨ r'.2 ≤ r.1) :
    SpansApart g g' := by
  have hb := (pagegroupCreate_inv h.create).1
  have hb' := (pagegroupCreate_inv h'.create).1
  obtain hlt | hlt := hap
  · have := pageAlignDown_mono hlt
    exact .inl (by omega)
  · have := pageAlignDown_mono hlt
    exact .inr (by omega)

/-- **Ranges of multiples of 128 usable pages start in the invariant.** -/
theorem sysInv_init (hr : RangesOk ranges) (h : pageAddRanges pageInit ranges = .ok s0)
    (hn : ∀ g ∈ s0.pagegroupList, g.usable % 128 = 0) :
    SysInv ⟨s0, []⟩ ∧ AllCoalesced ⟨s0, []⟩ := by
  obtain ⟨kept, hlist, hsub, hkept, hcount⟩ := pageAddRanges_inv hr.le h
  have hlist' : s0.pagegroupList = kept.map Prod.snd := hlist
  have hnk : ∀ x ∈ kept, x.2.usable % 128 = 0 := fun x hx =>
    hn x.2 (by rw [hlist']; exact mem_map_of_mem hx)
  have hcore : ∀ x ∈ kept, Core x.2 [] ∧ Coalesced x.2 ∧ freePages x.2 = x.2.usable :=
    fun x hx => carved_core (hkept x hx).range (hkept x hx).create (hkept x hx).kept (hnk x hx)
  refine ⟨⟨?_, ?_, ?_, ?_, ?_⟩, ?_⟩
  · intro g hg
    rw [hlist'] at hg
    obtain ⟨x, hx, rfl⟩ := mem_map.mp hg
    exact (hcore x hx).1
  · have hpw := (hr.apart.sublist hsub)
    rw [pairwise_map] at hpw
    change s0.pagegroupList.Pairwise SpansApart
    rw [hlist', pairwise_map]
    refine hpw.imp_of_mem fun hx hy hxy => ?_
    exact (hkept _ hx).apart (hkept _ hy) (carved_le (hkept _ hx).range (hkept _ hx).create
      (hnk _ hx)) (carved_le (hkept _ hy).range (hkept _ hy).create (hnk _ hy)) hxy
  · exact fun r hr' => absurd hr' not_mem_nil
  · exact fun r hr' => absurd hr' not_mem_nil
  · change s0.pageFreecount = (s0.pagegroupList.map freePages).sum
    rw [hlist', hcount, map_map]
    have hmap : kept.map (freePages ∘ Prod.snd) = kept.map fun x => x.2.usable :=
      map_congr_left fun x hx => (hcore x hx).2.2
    rw [hmap]
    exact Nat.zero_add _
  · intro g hg
    change g ∈ s0.pagegroupList at hg
    rw [hlist'] at hg
    obtain ⟨x, hx, rfl⟩ := mem_map.mp hg
    exact (hcore x hx).2.1

/-! ## 2. Separation -/

/-- All blocks there are: on the free lists of every group, and handed out. -/
def allBlks (s : PageState) : List Blk :=
  s.sys.pagegroupList.flatMap freeBlks ++ s.live.map fun r => liveBlk (reqBlock r)

/-- The allocator's promise about a state. -/
structure Separated (s : PageState) : Prop where
  apart : (allBlks s).Pairwise Apart
  inside : ∀ b ∈ allBlks s, ∃ g ∈ s.sys.pagegroupList,
    g.pgBaseaddr ≤ b.lo ∧ b.lo + b.len ≤ g.pgEndaddr ∧ b.len ∣ b.lo - g.pgBaseaddr
  cover : ∀ g ∈ s.sys.pagegroupList, ∀ p, g.pgBaseaddr ≤ p → p < g.pgEndaddr →
    ∃ b ∈ allBlks s, b.has p = true
  freecount : s.sys.pageFreecount = ((s.sys.pagegroupList.flatMap freeBlks).map blkPages).sum

section
variable {s : PageState}

/-- The blocks of one group: its free blocks and the blocks handed out in its span. -/
def groupBlks (g : Pagegroup) (live : List (Nat × Nat)) : List Blk :=
  freeBlks g ++ (g.liveIn live).map liveBlk

theorem SysInv.mem_groupBlks (h : SysInv s) (hb : b ∈ allBlks s) :
    ∃ g ∈ s.sys.pagegroupList, b ∈ groupBlks g s.live := by
  obtain hf | hl := mem_append.mp hb
  · obtain ⟨g, hg, hbg⟩ := mem_flatMap.mp hf
    exact ⟨g, hg, mem_append_left _ hbg⟩
  · obtain ⟨r, hr, rfl⟩ := mem_map.mp hl
    obtain ⟨g, hg, hsp⟩ := h.home r hr
    refine ⟨g, hg, mem_append_right _ (mem_map_of_mem (mem_map_of_mem ?_))⟩
    exact mem_filter.mpr ⟨hr, hsp⟩

theorem mem_allBlks (hg : g ∈ s.sys.pagegroupList) (hb : b ∈ groupBlks g s.live) :
    b ∈ allBlks s := by
  obtain hf | hl := mem_append.mp hb
  · exact mem_append_left _ (mem_flatMap.mpr ⟨g, hg, hf⟩)
  · simp only [liveIn, map_map, mem_map] at hl
    obtain ⟨r, hr, rfl⟩ := hl
    exact mem_append_right _ (mem_map_of_mem (mem_filter.mp hr).1)

/-- A block of a group is of one of the orders, at a multiple of its size from the base. -/
theorem Core.blk_shape (h : Core g (g.liveIn live)) (hb : b ∈ groupBlks g live) :
    ∃ o k, b = blk o (g.at o k) := by
  obtain hf | hl := mem_append.mp hb
  · obtain ⟨o, -, a, ha, rfl⟩ := Page.mem_freeBlks.mp hf
    obtain ⟨k, rfl⟩ := h.freeAt o a ha
    exact ⟨o, k, rfl⟩
  · obtain ⟨c, hc, rfl⟩ := mem_map.mp hl
    obtain ⟨-, k, hk⟩ := h.liveAt c hc
    exact ⟨c.1, k, by rw [liveBlk, hk]⟩

theorem Core.blk_len_pos (h : Core g (g.liveIn live)) (hb : b ∈ groupBlks g live) : 0 < b.len := by
  obtain ⟨o, k, rfl⟩ := h.blk_shape hb
  exact blockSize_pos o

/-- A point of a block lies in the span of the block's group. -/
theorem SysInv.spans_of_has (h : SysInv s) (hg : g ∈ s.sys.pagegroupList)
    (hb : b ∈ groupBlks g s.live) (hp : b.has p = true) : g.spans p = true := by
  have hsub := (h.core g hg).tiles.subset hb ((h.core g hg).blk_len_pos hb)
  rw [Blk.has_iff] at hp
  exact spans_iff.mpr ⟨by omega, by omega⟩

/-- At a point of a group, the requests that count are those held in the group. -/
theorem SysInv.cov_live (h : SysInv s)
    (hone : ∀ g' ∈ s.sys.pagegroupList, g'.spans p = true → g' = g) :
    cov (s.live.map fun r => liveBlk (reqBlock r)) p
      = cov ((g.liveIn s.live).map liveBlk) p := by
  simp only [cov, liveIn, countP_map, countP_filter]
  refine countP_congr fun r hr => ?_
  simp only [Function.comp_apply, Bool.and_eq_true]
  refine ⟨fun hhas => ⟨hhas, ?_⟩, fun hhas => hhas.1⟩
  obtain ⟨g', hg', hsp⟩ := h.home r hr
  have hb : liveBlk (reqBlock r) ∈ groupBlks g' s.live :=
    mem_append_right _ (mem_map_of_mem (mem_map_of_mem (mem_filter.mpr ⟨hr, hsp⟩)))
  rw [← hone g' hg' (h.spans_of_has hg' hb hhas)]
  exact hsp

/-- **No point is held twice**, over all groups and all requests. -/
theorem SysInv.cov_le_one (h : SysInv s) (p : Nat) : cov (allBlks s) p ≤ 1 := by
  by_cases hp : ∃ g ∈ s.sys.pagegroupList, g.spans p = true
  · obtain ⟨g, hg, hgp⟩ := hp
    obtain ⟨⟨list, fc⟩, live⟩ := s
    obtain ⟨pre, post, rfl⟩ := append_of_mem hg
    have honly := h.only hgp
    have hzero : ∀ l : List Pagegroup, (∀ g2 ∈ l, g2 ∈ pre ++ post) →
        cov (l.flatMap freeBlks) p = 0 := by
      intro l hl
      by_contra hne
      obtain ⟨b, hb, hbp⟩ := cov_pos_iff.mp (Nat.pos_of_ne_zero hne)
      obtain ⟨g2, hg2, hb2⟩ := mem_flatMap.mp hb
      refine honly g2 (hl g2 hg2) (h.spans_of_has ?_ (mem_append_left _ hb2) hbp)
      obtain hm | hm := mem_append.mp (hl g2 hg2)
      · exact mem_append_left _ hm
      · exact mem_append_right _ (.tail _ hm)
    have hlive := h.cov_live fun g' hg' hsp => by
      by_contra hne
      refine honly g' ?_ hsp
      simp only [mem_append, mem_cons] at hg' ⊢
      tauto
    have htile := (h.core g hg).tiles.cov_le_one p
    rw [cov_append] at htile
    rw [allBlks, cov_append, hlive, flatMap_append, flatMap_cons, cov_append, cov_append,
      hzero pre (fun g2 hm => mem_append_left _ hm),
      hzero post (fun g2 hm => mem_append_right _ hm)]
    omega
  · by_contra hne
    obtain ⟨b, hb, hbp⟩ := cov_pos_iff.mp (by omega : 0 < cov (allBlks s) p)
    obtain ⟨g, hg, hbg⟩ := h.mem_groupBlks hb
    exact hp ⟨g, hg, h.spans_of_has hg hbg hbp⟩

/-- **The invariant gives the promise.** -/
theorem SysInv.separated (h : SysInv s) : Separated s := by
  refine ⟨pairwise_apart_of_cov h.cov_le_one, ?_, ?_, ?_⟩
  · intro b hb
    obtain ⟨g, hg, hbg⟩ := h.mem_groupBlks hb
    have hcore := h.core g hg
    obtain ⟨h1, h2⟩ := hcore.tiles.subset hbg (hcore.blk_len_pos hbg)
    refine ⟨g, hg, h1, h2, ?_⟩
    obtain ⟨o, k, rfl⟩ := hcore.blk_shape hbg
    rw [blk_lo, blk_len, Pagegroup.at, Nat.add_sub_cancel_left]
    exact Dvd.intro_left _ rfl
  · intro g hg p h1 h2
    obtain ⟨b, hb, hbp⟩ := (h.core g hg).tiles.exists_has h1 h2
    exact ⟨b, mem_allBlks hg hb, hbp⟩
  · rw [h.count]
    generalize s.sys.pagegroupList = l
    induction l with
    | nil => rfl
    | cons g l ih =>
      rw [map_cons, sum_cons, ih, flatMap_cons, map_append, sum_append]
      rfl

end

/-! ## 3. Complete coalescing -/

/-- A free block meets the pair of another free block of a lower or equal order only if it is
one of the two halves: a larger block that reached the buddy would hold the whole pair. -/
theorem Core.order_of_buddy (h : Core g live)
    {o' k' : Nat} (hk : g.at o k ∈ g.pgFreelist o) (hk' : g.at o' k' ∈ g.pgFreelist o')
    (hoo : o ≤ o') (h1 : g.at o' k' ≤ g.at o (buddyOf k))
    (h2 : g.at o (buddyOf k) < g.at o' k' + blockSize o') : o' = o := by
  by_contra hne
  -- in units of the smaller block, the larger one spans an even number of places
  obtain ⟨d, rfl⟩ : ∃ d, o' = o + 1 + d := ⟨o' - (o + 1), by omega⟩
  have hsize : blockSize (o + 1 + d) = 2 * 2 ^ d * blockSize o := by
    rw [blockSize_eq, blockSize_eq, pow_add, pow_succ]
    ring
  have hat : g.at (o + 1 + d) k' = g.at o (k' * (2 * 2 ^ d)) := by
    simp only [Pagegroup.at, hsize]
    ring
  have hat' : g.at (o + 1 + d) k' + blockSize (o + 1 + d) =
      g.at o (k' * (2 * 2 ^ d) + 2 * 2 ^ d) := by
    simp only [Pagegroup.at, hsize]
    ring
  have hpos := blockSize_pos o
  have hle : k' * (2 * 2 ^ d) ≤ buddyOf k := by
    rw [hat] at h1
    exact Nat.le_of_mul_le_mul_right (Nat.le_of_add_le_add_left h1) hpos
  have hlt : buddyOf k < k' * (2 * 2 ^ d) + 2 * 2 ^ d := by
    rw [hat'] at h2
    exact Nat.lt_of_mul_lt_mul_right (Nat.lt_of_add_lt_add_left h2)
  have hin : k' * (2 * 2 ^ d) ≤ k ∧ k < k' * (2 * 2 ^ d) + 2 * 2 ^ d := by
    have e : k' * (2 * 2 ^ d) = 2 * (k' * 2 ^ d) := by ring
    have hdiv := buddyOf_div k
    rw [e] at hle hlt ⊢
    omega
  have hhas : (blk (o + 1 + d) (g.at (o + 1 + d) k')).has (g.at o k) = true := by
    rw [Blk.has_iff, blk_lo, blk_len, hat', hat]
    exact ⟨Nat.add_le_add_left (Nat.mul_le_mul_right _ hin.1) _,
      Nat.add_lt_add_left (Nat.mul_lt_mul_of_pos_right hin.2 hpos) _⟩
  have heq := h.tiles.eq_of_has (mem_append_left _ (h.mem_freeBlks hk'))
    (mem_append_left _ (h.mem_freeBlks hk)) hhas (by simp [hpos])
  have := (blk_inj heq).1
  omega

/-- **At rest everything is merged**: with nothing handed out, a coalesced group has no free
block below the largest order. -/
theorem Core.rest_lists (h : Core g []) (hco : Coalesced g) (ho : o < pageNsizes - 1) :
    g.pgFreelist o = [] := by
  -- induction on the order: the buddy of a free block of the least order is covered by a block
  -- of the same order
  induction o using Nat.strong_induction_on with
  | _ o ih =>
    by_contra hne
    obtain ⟨a, ha⟩ := exists_mem_of_ne_nil _ hne
    obtain ⟨k, rfl⟩ := h.freeAt o a ha
    have hpair := h.pair_in_span ho (h.free_in_span ha)
    have hpos := blockSize_pos o
    have hend : g.at o (buddyOf k) < g.pgEndaddr := by
      refine at_lt_end (Nat.le_trans ?_ hpair)
      rw [blockSize_succ, ← Nat.mul_assoc]
      refine Nat.mul_le_mul_right _ ?_
      unfold buddyOf
      split <;> omega
    obtain ⟨b, hb, hbp⟩ := h.tiles.exists_has (Nat.le_add_right _ _) hend
    rw [map_nil, append_nil] at hb
    obtain ⟨o', ho', a', ha', rfl⟩ := Page.mem_freeBlks.mp hb
    obtain ⟨k', rfl⟩ := h.freeAt o' a' ha'
    rw [Blk.has_iff, blk_lo, blk_len] at hbp
    have hoo : o ≤ o' := by
      by_contra hlt
      rw [ih o' (by omega) (by omega)] at ha'
      cases ha'
    have heq : o' = o := h.order_of_buddy ha ha' hoo hbp.1 hbp.2
    subst heq
    have hk' : k' = buddyOf k := by
      have e1 : k' ≤ buddyOf k :=
        Nat.le_of_mul_le_mul_right (Nat.le_of_add_le_add_left hbp.1) hpos
      rw [← at_succ] at hbp
      have e2 : buddyOf k < k' + 1 := Nat.lt_of_mul_lt_mul_right (Nat.lt_of_add_lt_add_left hbp.2)
      omega
    subst hk'
    have hmem : ∀ x ∈ [g.at o' (2 * (k / 2)), g.at o' (2 * (k / 2) + 1)], x ∈ g.pgFreelist o' := by
      intro x hx
      obtain rfl | hx' := mem_cons.mp ((pair_perm g o' k []).mem_iff.mpr hx)
      · exact ha
      · rw [mem_singleton.mp hx']
        exact ha'
    exact hco o' ho (k / 2) ⟨hmem _ (.head _), hmem _ (.tail _ (.head _))⟩

/-- The lists at rest depend on the span only. -/
theorem Core.rest_mem (h : Core g []) (hco : Coalesced g) {a : Nat} :
    a ∈ g.pgFreelist o ↔ o = pageNsizes - 1 ∧
      ∃ k, a = g.at o k ∧ (k + 1) * blockSize o ≤ g.pgEndaddr - g.pgBaseaddr := by
  constructor
  · intro ha
    obtain ⟨k, rfl⟩ := h.freeAt o a ha
    refine ⟨?_, k, rfl, h.free_in_span ha⟩
    have ho := h.order_lt ha
    by_contra hne
    rw [h.rest_lists hco (by omega)] at ha
    cases ha
  · rintro ⟨rfl, k, rfl, hk⟩
    have hpos := blockSize_pos (pageNsizes - 1)
    obtain ⟨b, hb, hbp⟩ := h.tiles.exists_has (Nat.le_add_right _ _) (at_lt_end hk)
    rw [map_nil, append_nil] at hb
    obtain ⟨o', ho', a', ha', rfl⟩ := Page.mem_freeBlks.mp hb
    have heq : o' = pageNsizes - 1 := by
      by_contra hne
      rw [h.rest_lists hco (by omega)] at ha'
      cases ha'
    subst heq
    obtain ⟨k', rfl⟩ := h.freeAt _ a' ha'
    rw [Blk.has_iff, blk_lo, blk_len] at hbp
    have e1 : k' ≤ k := Nat.le_of_mul_le_mul_right (Nat.le_of_add_le_add_left hbp.1) hpos
    have e2 : k < k' + 1 := by
      have h2 := hbp.2
      change _ < g.at (pageNsizes - 1) k' + _ at h2
      rw [← at_succ] at h2
      exact Nat.lt_of_mul_lt_mul_right (Nat.lt_of_add_lt_add_left h2)
    have e3 : k' = k := by omega
    subst e3
    exact ha'

/-! ## 4. Where the promise is broken -/

/-- **A merge with a buddy that is not free.**  The bit says "both free" and the buddy is on no
list: `list_remove` follows whatever the buddy's first words are. -/
theorem pageJoin_wild (fuel : Nat) (hbase : pageSize ∣ g.pgBaseaddr)
    (ho : o < pageNsizes - 1) (hk : (k + 1) * blockSize o ≤ g.pgEndaddr - g.pgBaseaddr)
    (hmem : g.at o k ∈ g.pgFreelist o) (hbit : bitCheck (g.pgMap (o + 1)) (k / 2) = .ok false)
    (hbuddy : ∀ o', g.at o (buddyOf k) ∉ g.pgFreelist o') :
    pageJoin (fuel + 1) g o (g.at o k) = .error .wild := by
  have hidx := calculateIndex_at_succ hk hbase ho
  have hrem : g.listRemove (g.at o k) =
      .ok { g with pgFreelist o' := (g.pgFreelist o').erase (g.at o k) } := by
    unfold listRemove
    rw [if_pos]
    rw [any_eq_true]
    exact ⟨o, mem_range.mpr (by omega), by simpa using hmem⟩
  have hwild : listRemove { g with pgFreelist o' := (g.pgFreelist o').erase (g.at o k) }
      (g.at o (buddyOf k)) = .error .wild := by
    unfold listRemove
    rw [if_neg]
    rw [any_eq_true]
    rintro ⟨o', -, hc⟩
    exact hbuddy o' (mem_of_mem_erase (by simpa using hc))
  simp only [pageJoin, if_pos ho, hidx, ok_bind, hbit, buddy_addr, offset_aligned, kassert_true,
    hrem, hwild, Bool.false_eq_true, if_false, error_bind]

theorem pageOrder_two_pow (ho : o < 7) : pageOrder (2 ^ o) = .ok o := by
  interval_cases o <;> rfl

section
variable (pre post : List Pagegroup) (fc : Nat) {g : Pagegroup} {o q m : Nat}
  (hbase : pageSize ∣ g.pgBaseaddr) (ho : o < 7) (hfl : g.pgFreelist o = [g.at o (2 * q)])
include hbase ho hfl

/-- The allocation of the block at the end of a ragged group: its bit is set, or lies outside
the bitmap. -/
theorem ragged_alloc (hpre : ∀ g' ∈ pre, g'.pgFreelist o = [])
    (hk : (2 * q + 1) * blockSize o ≤ g.pgEndaddr - g.pgBaseaddr)
    (hmap : g.pgMap (o + 1) = List.replicate m false) :
    pageStep ⟨⟨pre ++ g :: post, fc⟩, []⟩ (.pageAllocN (2 ^ o) [])
      = if q < m then
          .ok ⟨⟨pre ++ g.setList o [] (update g.pgMap (o + 1)
            ((List.replicate m false).set q true)) :: post, fc - 1 <<< o⟩,
              [(g.at o (2 * q), 2 ^ o)]⟩
        else .error .wild := by
  have hfind : ((pre ++ g :: post).findIdx? fun g => !(g.pgFreelist o).isEmpty) = some pre.length :=
    findIdx?_of_split (by rw [hfl]; rfl) fun g' hg' => by simp [hpre g' hg']
  have hidx : pagegroupCalculateIndex (g.removeHead o) (o + 1) (g.at o (2 * q)) = .ok q := by
    have h := calculateIndex_at_succ (g := g.removeHead o) hk hbase ho
    rwa [Nat.mul_div_cancel_left _ (by decide)] at h
  have hbits : (g.removeHead o).pgMap (o + 1) = replicate m false := hmap
  simp only [pageStep, pageAllocN, pageOrder_two_pow ho, ok_bind, pageAllocOrder, hfind, pageTake,
    getElem?_append_right (le_refl _), Nat.sub_self, getElem?_cons_zero, hfl,
    Pagegroup.flipPair, if_pos (show o < pageNsizes - 1 from ho), hidx, Pagegroup.flip, hbits,
    bitFlip]
  by_cases hqm : q < m
  · rw [getElem?_replicate_of_lt hqm, if_pos hqm]
    simp only [ok_bind, pure_eq_ok, set_append_right _ _ (le_refl _), Nat.sub_self, set_cons_zero,
      Bool.not_false]
    simp [Pagegroup.removeHead, Pagegroup.setList, hfl]
  · rw [getElem?_eq_none (by simpa using hqm), if_neg hqm]
    rfl

/-- And the free of it: the bit is clear again, so `__page_join` merges it with what lies behind
the end of the group. -/
theorem ragged_free (hpre : ∀ g' ∈ pre, ¬ g'.spans (g.at o (2 * q)) = true)
    (hend : g.at o (2 * q + 1) = g.pgEndaddr)
    (hlt : ∀ o' a, a ∈ g.pgFreelist o' → a < g.pgEndaddr) (hqm : q < m) :
    pageStep ⟨⟨pre ++ g.setList o [] (update g.pgMap (o + 1)
        ((List.replicate m false).set q true)) :: post, fc⟩, [(g.at o (2 * q), 2 ^ o)]⟩
      (.pageFreeN (g.at o (2 * q), 2 ^ o)) = .error .wild := by
  have hk : (2 * q + 1) * blockSize o ≤ g.pgEndaddr - g.pgBaseaddr := by
    rw [← hend, Pagegroup.at]
    omega
  have hhalf : 2 * q / 2 = q := Nat.mul_div_cancel_left _ (by decide)
  set on : List Bool := (replicate m false).set q true with hon
  set map1 := update g.pgMap (o + 1) on with hmap1
  set map2 := update map1 (o + 1) (on.set q false) with hmap2
  have hlen : q < on.length := by simpa [hon] using hqm
  -- the free finds the group, links the block and flips its bit back
  have hfrom : pagegroupFromAddress ⟨pre ++ g.setList o [] map1 :: post, fc⟩ (g.at o (2 * q)) =
    some pre.length :=
    findIdx?_of_split (p := fun g' : Pagegroup => g'.spans (g.at o (2 * q)))
      (spans_iff.mpr ⟨Nat.le_add_right _ _, at_lt_end hk⟩) hpre
  have hins : (g.setList o [] map1).insertHead o (g.at o (2 * q)) =
      g.setList o [g.at o (2 * q)] map1 := by
    simp [insertHead, setList]
  have hidx := calculateIndex_at_succ (g := g.setList o [g.at o (2 * q)] map1) hk hbase ho
  rw [setList_at, hhalf] at hidx
  have hflip : (g.setList o [g.at o (2 * q)] map1).flipPair o (g.at o (2 * q))
      = .ok (g.setList o [g.at o (2 * q)] map2) := by
    have hbit : bitFlip (map1 (o + 1)) q = .ok (on.set q false) := by
      rw [hmap1, update_self, bitFlip, hon, getElem?_set_self (by simpa using hqm)]
      rfl
    simp only [flipPair, if_pos (show o < pageNsizes - 1 from ho), hidx, ok_bind, Pagegroup.flip,
      setList_map, hbit]
    rfl
  have hjoin := pageJoin_wild (g := g.setList o [g.at o (2 * q)] map2) (o := o)
      (k := 2 * q) 7 hbase ho hk (by simp) (by
      rw [hhalf, setList_map, hmap2, update_self, bitCheck, getElem?_set_self hlen])
    (by
      intro o' hc
      have hb : buddyOf (2 * q) = 2 * q + 1 := by simp [buddyOf]
      rw [hb, setList_at, hend] at hc
      by_cases hoo : o' = o
      · subst hoo
        rw [setList_self, mem_singleton] at hc
        have := at_lt_end hk
        omega
      · rw [setList_ne _ _ _ _ hoo] at hc
        exact lt_irrefl _ (hlt o' _ hc))
  rw [setList_at] at hjoin
  simp only [pageStep, pageFreeN, pageOrder_two_pow ho, ok_bind, pageFreeOrder, hfrom,
    getElem?_append_right (le_refl _), Nat.sub_self, getElem?_cons_zero, pageGive, hins,
    if_pos (show o < pageNsizes - 1 from ho), hflip]
  rw [show pageNsizes = 7 + 1 from rfl, hjoin]
  rfl

end

/-- **Two calls break the promise** for every list of ranges that keeps a ragged group. -/
theorem ragged_fails (hr : RangesOk ranges) (h0 : pageAddRanges pageInit ranges = .ok s0)
    (hn : ∃ g ∈ s0.pagegroupList, g.usable % 128 ≠ 0) :
    ∃ s c, Run PageLegal pageStep ⟨s0, []⟩ s ∧ PageLegal s c ∧ pageStep s c = .error .wild := by
  obtain ⟨kept, hlist, hsub, hkept, -⟩ := pageAddRanges_inv hr.le h0
  -- the first ragged group: before it, all blocks are of the largest order
  obtain ⟨i, hi⟩ : ∃ i, kept.findIdx? (fun x => x.2.usable % 128 != 0) = some i := by
    rw [← Option.isSome_iff_exists, findIdx?_isSome, any_eq_true]
    obtain ⟨g, hg, hne⟩ := hn
    rw [hlist] at hg
    obtain ⟨x, hx, rfl⟩ := mem_map.mp hg
    exact ⟨x, hx, by simpa using hne⟩
  obtain ⟨pre, ⟨r, g⟩, post, rfl, -, hrag, hpre⟩ := findIdx?_split hi
  obtain ⟨list, fc⟩ := s0
  have hl : list = pre.map Prod.snd ++ g :: post.map Prod.snd := by
    simpa [pageInit] using hlist
  subst hl
  have hmem : (r, g) ∈ pre ++ (r, g) :: post := mem_append_right _ mem_cons_self
  have hk : KeptFrom r g := hkept _ hmem
  have hb := (pagegroupCreate_inv hk.create).1
  have hbase : pageSize ∣ g.pgBaseaddr := hb ▸ hk.range.startPage
  obtain ⟨o, ho, q, m, hfl, hend, hlt, hmap, hcase⟩ :=
    carved_ragged hk.range hk.create hk.kept (by simpa using hrag)
  have hspan : (2 * q + 1) * blockSize o ≤ g.pgEndaddr - g.pgBaseaddr := by
    rw [← hend, Pagegroup.at]
    omega
  have hpre' : ∀ x ∈ pre, KeptFrom x.1 x.2 ∧ x.2.usable % 128 = 0 := fun x hx =>
    ⟨hkept x (mem_append_left _ hx), by simpa using hpre x hx⟩
  have halloc := ragged_alloc (pre.map Prod.snd)
      (post.map Prod.snd) fc hbase ho hfl (fun g' hg' => by
      obtain ⟨x, hx, rfl⟩ := mem_map.mp hg'
      obtain ⟨hkx, hnx⟩ := hpre' x hx
      rw [(carved_lists hkx.range hkx.create hkx.kept hnx).1, update_of_ne (by omega)])
    hspan hmap
  have hlegal : PageLegal ⟨⟨pre.map Prod.snd ++ g :: post.map Prod.snd, fc⟩,
    []⟩ (.pageAllocN (2 ^ o) []) := nil_subperm
  by_cases hqm : q < m
  · rw [if_pos hqm] at halloc
    have hend' : g.pgEndaddr ≤ pageAlignDown r.2 := by
      obtain h | h := hcase <;> omega
    have hfree := ragged_free (pre.map Prod.snd) (post.map Prod.snd)
        (fc - 1 <<< o) hbase ho hfl (fun g' hg' => by
        obtain ⟨x, hx, rfl⟩ := mem_map.mp hg'
        obtain ⟨hkx, hnx⟩ := hpre' x hx
        have hpw := hr.apart.sublist hsub
        rw [pairwise_map, pairwise_append] at hpw
        have hap := hkx.apart hk (carved_le hkx.range hkx.create hnx) hend' (hpw.2.2 x hx (r,
          g) mem_cons_self)
        refine SpansApart.not_both (Or.symm hap) (spans_iff.mpr ⟨Nat.le_add_right _ _, ?_⟩)
        exact at_lt_end hspan)
      hend hlt hqm
    exact ⟨_, _, .tail .refl hlegal halloc, mem_cons_self, hfree⟩
  · rw [if_neg hqm] at halloc
    exact ⟨_, _, .refl, hlegal, halloc⟩

/-! ## 5. The results -/

/-- The call returns, or is a request that `page_alloc_n` refuses by its panic: no `KASSERT`
fires and no link is followed that is not one of the lists'. -/
def Answers (s : PageState) (c : PageCall) : Prop :=
  (∃ s', pageStep s c = .ok s') ∨ pageStep s c = .error tooLarge

/-- **The invariant along runs**, with the spans the groups had at the start. -/
theorem sysInv_run (hr : RangesOk ranges) (h0 : pageAddRanges pageInit ranges = .ok s0)
    (hn : ∀ g ∈ s0.pagegroupList, g.usable % 128 = 0) (hrun : Run PageLegal pageStep ⟨s0, []⟩ s) :
    SysInv s ∧ AllCoalesced s ∧ s.sys.spans = s0.spans := by
  obtain ⟨hinv, hco⟩ := sysInv_init hr h0 hn
  refine Run.invariant (I := fun s => SysInv s ∧ AllCoalesced s ∧ s.sys.spans = s0.spans) ⟨hinv,
    hco, rfl⟩ ?_ hrun
  rintro t c u ⟨h1, h2, h3⟩ hl hstep
  obtain ⟨u', hu, h1', h2', h3'⟩ | herr := pageStep_spec h1 h2 hl
  · rw [hu] at hstep
    cases hstep
    exact ⟨h1', h2', h3'.trans h3⟩
  · rw [herr] at hstep
    cases hstep

theorem SysInv.answers {c : PageCall} (h : SysInv s) (hco : AllCoalesced s) (hl : PageLegal s c) :
    Answers s c := by
  obtain ⟨s', hs', -⟩ | herr := pageStep_spec h hco hl
  · exact .inl ⟨s', hs'⟩
  · exact .inr herr

/-- **Buddy separation holds exactly for ranges of multiples of 128 usable pages.** -/
theorem buddy_separation {ranges : List (Nat × Nat)} {s0 : PageSys} (hr : RangesOk ranges)
    (h0 : pageAddRanges pageInit ranges = .ok s0) :
    (∀ s, Run PageLegal pageStep ⟨s0, []⟩ s → Separated s ∧ ∀ c, PageLegal s c → Answers s c) ↔
    ∀ g ∈ s0.pagegroupList, g.usable % 128 = 0 := by
  constructor
  · intro h
    by_contra hn
    obtain ⟨s, c, hrun, hl, hwild⟩ := ragged_fails hr h0 (by simpa using hn)
    obtain ⟨s', hs'⟩ | herr := (h s hrun).2 c hl
    · rw [hwild] at hs'
      cases hs'
    · rw [hwild] at herr
      cases herr
  · intro hn s hrun
    obtain ⟨hinv, hco, -⟩ := sysInv_run hr h0 hn hrun
    exact ⟨hinv.separated, fun c hl => hinv.answers hco hl⟩

/-- A run from the pages of some ranges, at whose end a test is passed. -/
theorem exists_of_ranges (ranges : List (Nat × Nat)) (cs : List PageCall)
    (test : PageSys → PageState → Bool)
    (h : (pageAddRanges pageInit ranges).toOption.any (fun s0 =>
      (drive PageLegal pageStep cs ⟨s0, []⟩).any (test s0)) = true) :
    ∃ s0 s, pageAddRanges pageInit ranges = .ok s0 ∧ Run PageLegal pageStep ⟨s0, []⟩ s ∧
      test s0 s = true := by
  obtain ⟨s0, h0, hdrive⟩ := ok_of_any h
  obtain ⟨s, hs, htest⟩ := Run.of_drive_any hdrive
  exact ⟨s0, s, h0, hs, htest⟩

/-- The promise at a range of 129 pages, which leaves 128. -/
theorem buddy_separation_129 : ∃ s0, pageAddRanges pageInit [(0x100000, 0x181000)] = .ok s0 ∧
    ((∀ s, Run PageLegal pageStep ⟨s0, []⟩ s → Separated s ∧ ∀ c, PageLegal s c → Answers s c) ↔
    ∀ g ∈ s0.pagegroupList, g.usable % 128 = 0) := by
  obtain ⟨s0, -, h0, -⟩ := exists_of_ranges [(0x100000, 0x181000)] [] (fun _ _ => true)
    (by decide +kernel)
  exact ⟨s0, h0, buddy_separation ⟨by simp, by simp⟩ h0⟩

/-- Some block reaches past the end of every group. -/
def escapes (s : PageState) : Bool :=
  (allBlks s).any fun b => s.sys.pagegroupList.all fun g => decide (g.pgEndaddr < b.lo + b.len)

theorem not_separated_of_escapes (h : escapes s = true) : ¬ Separated s := by
  intro hs
  obtain ⟨b, hb, hall⟩ := any_eq_true.mp h
  obtain ⟨g, hg, -, hend, -⟩ := hs.inside b hb
  have := of_decide_eq_true (all_eq_true.mp hall g hg)
  omega

/-- **A range of 140 pages** leaves 139, cut into 128, 8, 2 and 1.  Requesting the two pages at
`0x188000` and freeing them merges them with the single page behind, which is on the list of
another order, and with the page behind that, which holds the bitmaps: the list of order 2 then
has a block that reaches past the group. -/
theorem buddy_separation_140 : ∃ s0 s, RangesOk [(0x100000, 0x18c000)] ∧
    pageAddRanges pageInit [(0x100000, 0x18c000)] = .ok s0 ∧
    Run PageLegal pageStep ⟨s0, []⟩ s ∧ ¬ Separated s := by
  obtain ⟨s0, s, h0, hs, hesc⟩ := exists_of_ranges [(0x100000, 0x18c000)]
    [.pageAllocN 2 [], .pageFreeN (0x188000, 2)] (fun _ => escapes) (by decide +kernel)
  exact ⟨s0, s, ⟨by simp, by simp⟩, h0, hs, not_separated_of_escapes hesc⟩

/-- The lists of two groups of one span, both at rest. -/
theorem rest_forall₂ : ∀ {l l0 : List Pagegroup},
    (l.map fun g => (g.pgBaseaddr, g.pgEndaddr)) = l0.map (fun g => (g.pgBaseaddr, g.pgEndaddr)) →
    (∀ g ∈ l, Core g [] ∧ Coalesced g) → (∀ g ∈ l0, Core g [] ∧ Coalesced g) →
    List.Forall₂ (fun g g0 => ∀ o, (g.pgFreelist o).Perm (g0.pgFreelist o)) l l0
  | [], [], _, _, _ => .nil
  | [], _ :: _, h, _, _ => by cases h
  | _ :: _, [], h, _, _ => by cases h
  | g :: l, g0 :: l0, h, hl, hl0 => by
    simp only [map_cons, cons.injEq, Prod.mk.injEq] at h
    obtain ⟨⟨hb, he⟩, htl⟩ := h
    obtain ⟨hc, hco⟩ := hl g (.head _)
    obtain ⟨hc0, hco0⟩ := hl0 g0 (.head _)
    refine .cons (fun o => ?_)
      (rest_forall₂ htl (fun g2 h2 => hl g2 (.tail _ h2)) fun g2 h2 => hl0 g2 (.tail _ h2))
    refine (perm_ext_iff_of_nodup (hc.nodup o) (hc0.nodup o)).mpr fun a => ?_
    rw [hc.rest_mem hco, hc0.rest_mem hco0, hb, he]
    simp only [Pagegroup.at, hb]

/-- **Complete coalescing.**  In every state of every run no two buddies below the largest order
are both free and every call is answered; and whenever no request is held, every free list has
exactly the blocks it had right after `page_add_range`. -/
theorem complete_coalescing {ranges : List (Nat × Nat)} {s0 : PageSys} {s : PageState}
    (hr : RangesOk ranges) (h0 : pageAddRanges pageInit ranges = .ok s0)
    (hn : ∀ g ∈ s0.pagegroupList, g.usable % 128 = 0) (hrun : Run PageLegal pageStep ⟨s0, []⟩ s) :
    (∀ g ∈ s.sys.pagegroupList, ∀ o < 7, ∀ i,
      ¬ (g.at o (2 * i) ∈ g.pgFreelist o ∧ g.at o (2 * i + 1) ∈ g.pgFreelist o)) ∧
    (∀ c, PageLegal s c → Answers s c) ∧
    (s.live = [] → List.Forall₂ (fun g g0 => ∀ o, (g.pgFreelist o).Perm (g0.pgFreelist o))
      s.sys.pagegroupList s0.pagegroupList) := by
  obtain ⟨hinv, hco, hspans⟩ := sysInv_run hr h0 hn hrun
  obtain ⟨hinv0, hco0⟩ := sysInv_init hr h0 hn
  refine ⟨fun g hg o ho i => hco g hg o ho i, fun c hl => hinv.answers hco hl, fun hlive => ?_⟩
  refine rest_forall₂ hspans (fun g hg => ⟨?_, hco g hg⟩) fun g hg => ⟨hinv0.core g hg, hco0 g hg⟩
  have hcore := hinv.core g hg
  rw [hlive] at hcore
  exact hcore

/-- The same range of 129 pages, after two requests of different sizes freed in the order they
were made. -/
theorem complete_coalescing_129 :
    ∃ s0 s, pageAddRanges pageInit [(0x100000, 0x181000)] = .ok s0 ∧ s.live = [] ∧
    (∀ g ∈ s.sys.pagegroupList, ∀ o < 7, ∀ i,
      ¬ (g.at o (2 * i) ∈ g.pgFreelist o ∧ g.at o (2 * i + 1) ∈ g.pgFreelist o)) ∧
    (∀ c, PageLegal s c → Answers s c) ∧
    List.Forall₂ (fun g g0 => ∀ o, (g.pgFreelist o).Perm (g0.pgFreelist o))
      s.sys.pagegroupList s0.pagegroupList := by
  obtain ⟨s0, s, h0, hs, htest⟩ := exists_of_ranges [(0x100000, 0x181000)]
    [.pageAllocN 1 [], .pageAllocN 3 [], .pageFreeN (0x17f000, 1), .pageFreeN (0x178000, 3)]
    (fun s0 s => (∀ g ∈ s0.pagegroupList, g.usable % 128 = 0) ∧ s.live = []) (by decide +kernel)
  obtain ⟨hn, hlive⟩ := of_decide_eq_true htest
  obtain ⟨h1, h2, h3⟩ := complete_coalescing ⟨by simp, by simp⟩ h0 hn hs
  exact ⟨s0, s, h0, hlive, h1, h2, h3 hlive⟩

end Weenix.Page
