/-
# Runs of the page allocator

The allocator as its callers see it: any number of ranges are added, then blocks are requested
and freed in any order.  A state is the allocator's own data with the requests that are still
held; a call frees a request with the size it was made with.  A `slab_allocators_reclaim` inside
an allocation frees requests too (those the slab allocator holds), so the call names them.

`SysInv` lifts the invariant of one group to the list of groups, `step_spec` carries it through
every call, and the results about whole runs follow from `Lts.Run.invariant`.
-/
import Weenix.Lib.Run
import Weenix.Mm.PageCreate

namespace Weenix.Page

open Tile List Pagegroup

variable {l live : List (Nat × Nat)} {a : Nat} {sys : PageSys} {g g' : Pagegroup} {α : Type}

/-! ## 1. Calls -/

/-- The order `page_alloc_n` and `page_free_n` use for a request they accept. -/
def reqOrder (npages : Nat) : Nat := (pageOrderFrom npages pageNsizes 0).getD 0

/-- The block behind a request, which is an address with the number of pages asked for. -/
def reqBlock (r : Nat × Nat) : Nat × Nat := (reqOrder r.2, r.1)

/-- The allocator, and the requests that are still held. -/
structure PageState where
  sys : PageSys
  live : List (Nat × Nat)

/-- A call of the allocator's interface.  `empty` lists the slabs a reclaim would give back. -/
inductive PageCall where
  | pageAllocN (npages : Nat) (empty : List (Nat × Nat))
  | pageFreeN (r : Nat × Nat)

/-- One call.  A reclaim runs exactly when `page_alloc_n` returns `NULL`. -/
def pageStep (s : PageState) : PageCall → Except Halt PageState
  | .pageAllocN npages empty => do
    match ← pageAllocN s.sys npages empty with
    | (sys, some addr) => return ⟨sys, (addr, npages) :: s.live⟩
    | (sys, none) => return ⟨sys, s.live.diff empty⟩
  | .pageFreeN r => do
    let sys ← pageFreeN s.sys r.1 r.2
    return ⟨sys, s.live.erase r⟩

/-- The callers' contract: what is freed is held, with this size, and is freed once. -/
def PageLegal (s : PageState) : PageCall → Prop
  | .pageAllocN _ empty => empty.Subperm s.live
  | .pageFreeN r => r ∈ s.live

instance : ∀ (s : PageState) (c : PageCall), Decidable (PageLegal s c)
  | s, .pageAllocN _ empty => inferInstanceAs (Decidable (empty.Subperm s.live))
  | s, .pageFreeN r => inferInstanceAs (Decidable (r ∈ s.live))

def pageAddRanges (sys : PageSys) : List (Nat × Nat) → Except Halt PageSys
  | [] => .ok sys
  | r :: rest => do pageAddRanges (← pageAddRange sys r.1 r.2) rest

/-- The ranges a kernel hands over: in order, below 4 GiB, and no two overlap. -/
structure RangesOk (ranges : List (Nat × Nat)) : Prop where
  le : ∀ r ∈ ranges, r.1 ≤ r.2 ∧ r.2 < 2 ^ 32
  apart : ranges.Pairwise fun r r' => r.2 ≤ r'.1 ∨ r'.2 ≤ r.1

/-! ## 2. The requests held in a group -/

/-- The test of `_pagegroup_from_address`. -/
def Pagegroup.spans (g : Pagegroup) (a : Nat) : Bool := g.pgBaseaddr ≤ a && a < g.pgEndaddr

theorem spans_iff : g.spans a = true ↔ g.pgBaseaddr ≤ a ∧ a < g.pgEndaddr := by
  simp [spans]

/-- The blocks of the group that are handed out. -/
def Pagegroup.liveIn (g : Pagegroup) (live : List (Nat × Nat)) : List (Nat × Nat) :=
  (live.filter fun r => g.spans r.1).map reqBlock

section
variable {g g' : Pagegroup} {live live' : List (Nat × Nat)} {r : Nat × Nat}

theorem liveIn_congr (h : SameSpan g g') : g'.liveIn live = g.liveIn live := by
  unfold liveIn spans
  rw [h.1, h.2]

theorem liveIn_perm (h : live.Perm live') : (g.liveIn live).Perm (g.liveIn live') :=
  (h.filter _).map _

theorem liveIn_cons_of (h : g.spans r.1 = true) :
    g.liveIn (r :: live) = reqBlock r :: g.liveIn live := by
  simp [liveIn, h]

theorem liveIn_cons_not (h : ¬ g.spans r.1 = true) : g.liveIn (r :: live) = g.liveIn live := by
  simp [liveIn, h]

/-- The invariant does not depend on the order in which the requests are listed. -/
theorem Core.perm {l' : List (Nat × Nat)} (h : Core g l) (hp : l.Perm l') : Core g l' :=
  { h with
    tiles := h.tiles.perm ((hp.map _).append_left _)
    liveAt b hb := h.liveAt b (hp.mem_iff.mpr hb) }

end

/-- No address belongs to both groups. -/
def SpansApart (g g' : Pagegroup) : Prop :=
  g.pgEndaddr ≤ g'.pgBaseaddr ∨ g'.pgEndaddr ≤ g.pgBaseaddr

theorem SpansApart.not_both (h : SpansApart g g') (ha : g.spans a = true) :
    ¬ g'.spans a = true := by
  intro ha'
  rw [spans_iff] at ha ha'
  obtain h | h := h <;> omega

/-! ## 3. The invariant of the allocator -/

/-- What every call keeps, over all groups. -/
structure SysInv (s : PageState) : Prop where
  core : ∀ g ∈ s.sys.pagegroupList, Core g (g.liveIn s.live)
  apart : s.sys.pagegroupList.Pairwise SpansApart
  home : ∀ r ∈ s.live, ∃ g ∈ s.sys.pagegroupList, g.spans r.1 = true
  orders : ∀ r ∈ s.live, pageOrder r.2 = .ok (reqOrder r.2)
  count : s.sys.pageFreecount = (s.sys.pagegroupList.map freePages).sum

/-- No group has an open pair. -/
def AllCoalesced (s : PageState) : Prop := ∀ g ∈ s.sys.pagegroupList, Coalesced g

/-- The addresses the groups manage, which no call changes. -/
def PageSys.spans (sys : PageSys) : List (Nat × Nat) :=
  sys.pagegroupList.map fun g => (g.pgBaseaddr, g.pgEndaddr)

section
variable {pre post : List Pagegroup} {g g' : Pagegroup} {fc fc' : Nat}
  {live live' : List (Nat × Nat)}

theorem spans_replace (h : SameSpan g g') :
    PageSys.spans ⟨pre ++ g' :: post, fc'⟩ = PageSys.spans ⟨pre ++ g :: post, fc⟩ := by
  simp [PageSys.spans, h.1, h.2]

/-- In a list of groups that are apart, the others do not span what one of them spans. -/
theorem SysInv.only (h : SysInv ⟨⟨pre ++ g :: post, fc⟩, live⟩)
    (ha : g.spans a = true) : ∀ g2 ∈ pre ++ post, ¬ g2.spans a = true := by
  intro g2 hg2
  obtain ⟨-, h2, h3⟩ := pairwise_append.mp h.apart
  obtain hm | hm := mem_append.mp hg2
  · exact SpansApart.not_both ((h3 g2 hm g (.head _)).symm) ha
  · exact SpansApart.not_both ((pairwise_cons.mp h2).1 g2 hm) ha

/-- **One group changes**, within its span; the requests held in the others stay. -/
theorem SysInv.replace (h : SysInv ⟨⟨pre ++ g :: post, fc⟩, live⟩) (hspan : SameSpan g g')
    (hcore : Core g' (g'.liveIn live'))
    (hother : ∀ g2 ∈ pre ++ post, (g2.liveIn live).Perm (g2.liveIn live'))
    (hhome : ∀ r ∈ live', r ∈ live ∨ g.spans r.1 = true)
    (horders : ∀ r ∈ live', pageOrder r.2 = .ok (reqOrder r.2))
    (hcount : fc' + freePages g = fc + freePages g') :
    SysInv ⟨⟨pre ++ g' :: post, fc'⟩, live'⟩ := by
  have hmem : ∀ g2, g2 ∈ pre ++ g' :: post ↔ g2 = g' ∨ g2 ∈ pre ++ post := by
    intro g2
    simp only [mem_append, mem_cons]
    tauto
  refine ⟨?_, ?_, ?_, horders, ?_⟩
  · intro g2 hg2
    obtain rfl | hm := (hmem g2).mp hg2
    · exact hcore
    · refine (h.core g2 ?_).perm (hother g2 hm)
      simp only [mem_append, mem_cons] at hm ⊢
      tauto
  · have hap := h.apart
    simp only [pairwise_append, pairwise_cons, mem_cons, SpansApart, hspan.1, hspan.2,
      forall_eq_or_imp] at hap ⊢
    exact hap
  · intro r hr
    have hsp : ∀ a, g'.spans a = g.spans a := by
      intro a
      simp only [spans, hspan.1, hspan.2]
    obtain hold | hnew := hhome r hr
    · obtain ⟨g2, hg2, hs⟩ := h.home r hold
      by_cases hgg : g2 = g
      · subst hgg
        exact ⟨g', (hmem g').mpr (.inl rfl), by rw [hsp]; exact hs⟩
      · refine ⟨g2, (hmem g2).mpr (.inr ?_), hs⟩
        simp only [mem_append, mem_cons] at hg2 ⊢
        tauto
    · exact ⟨g', (hmem g').mpr (.inl rfl), by rw [hsp]; exact hnew⟩
  · have hc := h.count
    simp only [map_append, map_cons, sum_append, sum_cons] at hc ⊢
    omega

end

theorem findIdx?_split {p : α → Bool} : ∀ {l : List α} {i : Nat}, l.findIdx? p = some i →
    ∃ pre x post, l = pre ++ x :: post ∧ pre.length = i ∧ p x = true ∧ ∀ y ∈ pre, ¬ p y = true
  | [], i, h => by cases h
  | y :: l, i, h => by
    rw [findIdx?_cons] at h
    by_cases hy : p y = true
    · rw [if_pos hy] at h
      cases h
      exact ⟨[], y, l, rfl, rfl, hy, fun z hz => absurd hz not_mem_nil⟩
    · rw [if_neg hy, Option.map_eq_some_iff] at h
      obtain ⟨j, hj, rfl⟩ := h
      obtain ⟨pre, x, post, rfl, rfl, hx, hpre⟩ := findIdx?_split hj
      refine ⟨y :: pre, x, post, rfl, rfl, hx, fun z hz => ?_⟩
      obtain rfl | hz' := mem_cons.mp hz
      · exact hy
      · exact hpre z hz'

theorem findIdx?_of_split {p : α → Bool} {pre post : List α} {x : α} (hx : p x = true)
    (hpre : ∀ y ∈ pre, ¬ p y = true) : (pre ++ x :: post).findIdx? p = some pre.length := by
  have hnone : pre.findIdx? p = none := by
    rw [findIdx?_eq_none_iff]
    exact fun y hy => by simpa using hpre y hy
  rw [findIdx?_append, hnone, findIdx?_cons, if_pos hx]
  simp

/-! ## 4. Allocation -/

section
variable {pre post : List Pagegroup} {g : Pagegroup} {fc o n : Nat} {live : List (Nat × Nat)}

theorem reqOrder_eq (h : pageOrder n = .ok o) : reqOrder n = o := by
  unfold pageOrder at h
  unfold reqOrder
  split at h
  · rename_i o' ho'
    rw [ho']
    cases h
    rfl
  · cases h

/-- **From the label `found` on**: the head of the list is handed out, and the pair that was
open is closed. -/
theorem pageTake_spec (h : SysInv ⟨⟨pre ++ g :: post, fc⟩, live⟩) (hp : HeadPair g o)
    (hn : pageOrder n = .ok o) :
    ∃ g' a fc', pageTake ⟨pre ++ g :: post, fc⟩ pre.length o = .ok (⟨pre ++ g' :: post, fc'⟩, a) ∧
      SysInv ⟨⟨pre ++ g' :: post, fc'⟩, (a, n) :: live⟩ ∧ Coalesced g' ∧ SameSpan g g' := by
  obtain ⟨k, t, hfl, hbut⟩ := hp
  have hcore := h.core g (mem_append_right _ (.head _))
  have hmem : g.at o k ∈ g.pgFreelist o := by rw [hfl]; exact .head _
  have ho := hcore.order_lt hmem
  obtain ⟨map, hflip, hcore'⟩ := core_take hcore hfl
  have hsp : g.spans (g.at o k) = true :=
    spans_iff.mpr ⟨Nat.le_add_right _ _, at_lt_end (hcore.free_in_span hmem)⟩
  have hspan : SameSpan g (g.setList o t map) := ⟨rfl, rfl⟩
  have hpages := freePages_take ho (by rw [hfl] : (g.pgFreelist o).Perm (g.at o k :: t)) map
  have hsum : 1 <<< o ≤ fc := by
    have hc := h.count
    simp only [map_append, map_cons, sum_append, sum_cons] at hc
    omega
  refine ⟨g.setList o t map, g.at o k, fc - 1 <<< o, ?_, ?_, coalesced_take hcore hfl hbut, hspan⟩
  · simp only [pageTake, getElem?_append_right (le_refl _), Nat.sub_self,
      getElem?_cons_zero, hfl, hflip, ok_bind, set_append_right _ _ (le_refl _),
      set_cons_zero]
    rfl
  · refine h.replace hspan ?_ ?_ ?_ ?_ (by rw [hpages]; omega)
    · have hlive :
          (g.setList o t map).liveIn ((g.at o k, n) :: live) = (o, g.at o k) :: g.liveIn live := by
        rw [liveIn_congr hspan, liveIn_cons_of (r := (g.at o k, n)) hsp, reqBlock, reqOrder_eq hn]
      rw [hlive]
      exact hcore'
    · intro g2 hg2
      rw [liveIn_cons_not (r := (g.at o k, n)) (h.only hsp g2 hg2)]
    · intro r hr
      obtain rfl | hr' := mem_cons.mp hr
      · exact .inr hsp
      · exact .inl hr'
    · intro r hr
      obtain rfl | hr' := mem_cons.mp hr
      · rw [reqOrder_eq hn]
        exact hn
      · exact h.orders r hr'

/-- The search of `_page_split` returns an order from `norder` on with a free block. -/
theorem pageSplitSearch_spec :
    ∀ {fuel norder i m : Nat}, pageSplitSearch sys fuel norder = some (i, m) →
    norder ≤ m ∧ (sys.pagegroupList.findIdx? fun g => !(g.pgFreelist m).isEmpty) = some i
  | 0, _, _, _, h => by cases h
  | fuel + 1, norder, i, m, h => by
    rw [pageSplitSearch] at h
    split at h
    · rename_i j hj
      cases h
      exact ⟨le_refl _, hj⟩
    · obtain ⟨h1, h2⟩ := pageSplitSearch_spec h
      exact ⟨by omega, h2⟩

/-- A list with a free block in a coalesced group can be taken from. -/
theorem Core.headPair (h : Core g l) (hco : Coalesced g)
    (hne : (!(g.pgFreelist o).isEmpty) = true) : HeadPair g o := by
  match hfl : g.pgFreelist o with
  | [] =>
    rw [hfl] at hne
    cases hne
  | a :: t =>
    obtain ⟨k, rfl⟩ := h.freeAt o a (by rw [hfl]; exact .head _)
    exact ⟨k, t, hfl, hco.but o (k / 2)⟩

theorem HeadPair.nonempty (h : HeadPair g o) : (!(g.pgFreelist o).isEmpty) = true := by
  obtain ⟨k, t, hfl, -⟩ := h
  rw [hfl]
  rfl

/-- **The split loop on the group it found**, with the rest of the list as it is. -/
theorem SysInv.splitDown {m : Nat} (h : SysInv ⟨⟨pre ++ g :: post, fc⟩, live⟩) (hp : HeadPair g m)
    (hm : o ≤ m) :
    ∃ g', pageSplitDown o (m - o) g = .ok g' ∧ SysInv ⟨⟨pre ++ g' :: post, fc⟩, live⟩ ∧
      HeadPair g' o ∧ SameSpan g g' := by
  have hcore := h.core g (mem_append_right _ (.head _))
  obtain ⟨g', hrun, hcore', hhead, hspan, hpages⟩ :=
    pageSplitDown_spec (o := o) (m - o) hcore (by rw [Nat.add_sub_cancel' hm]; exact hp)
  refine ⟨g', hrun, ?_, hhead, hspan⟩
  refine h.replace hspan ?_ (fun _ _ => .refl _) (fun r hr => .inl hr) h.orders (by omega)
  rw [liveIn_congr hspan]
  exact hcore'

end

/-! ## 5. Freeing -/

theorem AllCoalesced.replace {pre post : List Pagegroup} {fc fc' : Nat}
    {live' : List (Nat × Nat)} (h : AllCoalesced ⟨⟨pre ++ g :: post, fc⟩, live⟩)
    (hg : Coalesced g') : AllCoalesced ⟨⟨pre ++ g' :: post, fc'⟩, live'⟩ := by
  intro g2 hg2
  obtain hm | hm := mem_append.mp hg2
  · exact h g2 (mem_append_left _ hm)
  · obtain rfl | hm' := mem_cons.mp hm
    · exact hg
    · exact h g2 (mem_append_right _ (.tail _ hm'))

section
variable {sys : PageSys} {live : List (Nat × Nat)}

/-- **A free of a request that is held** finds its group and returns the block to it. -/
theorem pageFreeN_spec (h : SysInv ⟨sys, live⟩) (hco : AllCoalesced ⟨sys, live⟩) {r : Nat × Nat}
    (hr : r ∈ live) :
    ∃ sys', pageFreeN sys r.1 r.2 = .ok sys' ∧ SysInv ⟨sys', live.erase r⟩ ∧
      AllCoalesced ⟨sys', live.erase r⟩ ∧ sys'.spans = sys.spans := by
  obtain ⟨list, fc⟩ := sys
  have hord := h.orders r hr
  -- the group that `_pagegroup_from_address` finds
  obtain ⟨i, hi⟩ : ∃ i, list.findIdx? (fun g => g.spans r.1) = some i := by
    rw [← Option.isSome_iff_exists, findIdx?_isSome, any_eq_true]
    exact h.home r hr
  obtain ⟨pre, g, post, rfl, rfl, hsp, -⟩ := findIdx?_split hi
  have hfrom : pagegroupFromAddress ⟨pre ++ g :: post, fc⟩ r.1 = some pre.length := hi
  have hgmem : g ∈ pre ++ g :: post := mem_append_right _ (.head _)
  have hlive : (g.liveIn live).Perm (reqBlock r :: g.liveIn (live.erase r)) := by
    rw [← liveIn_cons_of hsp]
    exact liveIn_perm (perm_cons_erase hr)
  obtain ⟨g', hgive, hcore', hco', hspan, hpages⟩ :=
    pageGive_spec ((h.core g hgmem).perm hlive) (hco g hgmem)
  refine ⟨⟨pre ++ g' :: post, fc + 1 <<< reqOrder r.2⟩, ?_, ?_, hco.replace hco',
    spans_replace hspan⟩
  · simp only [pageFreeN, hord, ok_bind, pageFreeOrder, hfrom,
      getElem?_append_right (le_refl _), Nat.sub_self, getElem?_cons_zero, hgive,
      set_append_right _ _ (le_refl _), set_cons_zero]
    rfl
  · refine h.replace hspan ?_ ?_ (fun r' hr' => .inl (mem_of_mem_erase hr'))
      (fun r' hr' => h.orders r' (mem_of_mem_erase hr')) (by omega)
    · rw [liveIn_congr hspan]
      exact hcore'
    · intro g2 hg2
      have hp := liveIn_perm (g := g2) (perm_cons_erase hr)
      rwa [liveIn_cons_not (r := r) (h.only hsp g2 hg2)] at hp

/-- **A reclaim** frees requests that are held, one after the other. -/
theorem slabAllocatorsReclaim_spec : ∀ (empty : List (Nat × Nat)) {sys : PageSys}
    {live : List (Nat × Nat)}, SysInv ⟨sys, live⟩ → AllCoalesced ⟨sys, live⟩ →
    empty.Subperm live →
    ∃ sys', slabAllocatorsReclaim sys empty = .ok sys' ∧ SysInv ⟨sys', live.diff empty⟩ ∧
      AllCoalesced ⟨sys', live.diff empty⟩ ∧ sys'.spans = sys.spans
  | [], sys, live, h, hco, _ => ⟨sys, rfl, h, hco, rfl⟩
  | r :: empty, sys, live, h, hco, hsub => by
    obtain ⟨sys1, hfree, h1, hco1, hsp1⟩ := pageFreeN_spec h hco (hsub.subset (.head _))
    have hsub1 : empty.Subperm (live.erase r) := by
      have := hsub.erase r
      rwa [erase_cons_head] at this
    obtain ⟨sys2, hrest, h2, hco2, hsp2⟩ := slabAllocatorsReclaim_spec empty h1 hco1 hsub1
    rw [diff_cons]
    refine ⟨sys2, ?_, h2, hco2, hsp2.trans hsp1⟩
    simp only [slabAllocatorsReclaim, hfree, ok_bind]
    exact hrest

end

/-! ## 6. One call -/

/-- What `page_alloc_n` leaves behind: with a block, the request is held; with `NULL`, the slabs
are gone. -/
def afterAlloc (npages : Nat) (live empty : List (Nat × Nat)) : Option Nat → List (Nat × Nat)
  | some addr => (addr, npages) :: live
  | none => live.diff empty

/-- **An allocation** of an order the code accepts returns, and keeps the invariant. -/
theorem pageAllocOrder_spec {empty : List (Nat × Nat)} {o n : Nat}
    (h : SysInv ⟨sys, live⟩) (hco : AllCoalesced ⟨sys, live⟩) (hn : pageOrder n = .ok o)
    (hsub : empty.Subperm live) :
    ∃ sys' res, pageAllocOrder sys o empty = .ok (sys', res) ∧
      SysInv ⟨sys', afterAlloc n live empty res⟩ ∧
      AllCoalesced ⟨sys', afterAlloc n live empty res⟩ ∧ sys'.spans = sys.spans := by
  obtain ⟨list, fc⟩ := sys
  unfold pageAllocOrder
  split
  · -- some group has a block of the order
    rename_i i hi
    obtain ⟨pre, g, post, rfl, rfl, hne, -⟩ := findIdx?_split hi
    have hg : g ∈ pre ++ g :: post := mem_append_right _ (.head _)
    obtain ⟨g', a, fc', htake, h', hco', hspan⟩ :=
      pageTake_spec h ((h.core g hg).headPair (hco g hg) hne) hn
    exact ⟨_, some a, by rw [htake]; rfl, h', hco.replace hco', spans_replace hspan⟩
  · unfold pageSplit
    split
    · -- nothing to split either: reclaim, and `NULL`
      obtain ⟨sys', hrec, h', hco', hspan⟩ := slabAllocatorsReclaim_spec empty h hco hsub
      exact ⟨sys', none, by rw [hrec]; rfl, h', hco', hspan⟩
    · rename_i i m hm
      obtain ⟨hle, hi⟩ := pageSplitSearch_spec hm
      obtain ⟨pre, g, post, rfl, rfl, hne, -⟩ := findIdx?_split hi
      have hg : g ∈ pre ++ g :: post := mem_append_right _ (.head _)
      obtain ⟨g1, hdown, h1, hhead, hspan1⟩ :=
        h.splitDown (o := o) ((h.core g hg).headPair (hco g hg) hne) (by omega)
      obtain ⟨g2, a, fc', htake, h2, hco2, hspan2⟩ := pageTake_spec h1 hhead hn
      refine ⟨_, some a, ?_, h2, hco.replace hco2, spans_replace (hspan1.trans hspan2)⟩
      simp only [getElem?_append_right (le_refl _), Nat.sub_self, getElem?_cons_zero,
        hdown, ok_bind, kassert_of hhead.nonempty, set_append_right _ _ (le_refl _),
        set_cons_zero, pure_eq_ok, htake]

/-- The panic of `page_alloc_n` on a request for more pages than the largest order has. -/
def tooLarge : Halt := .panic "Implementation does not permit allocating %u pages!\n"

/-- **Every legal call returns and keeps the invariant**, or is a request that `page_alloc_n`
refuses by its panic. -/
theorem pageStep_spec {s : PageState} {c : PageCall} (h : SysInv s) (hco : AllCoalesced s)
    (hl : PageLegal s c) :
    (∃ s', pageStep s c = .ok s' ∧ SysInv s' ∧ AllCoalesced s' ∧ s'.sys.spans = s.sys.spans) ∨
      pageStep s c = .error tooLarge := by
  obtain ⟨sys, live⟩ := s
  cases c with
  | pageAllocN n empty =>
    cases hn : pageOrder n with
    | error e =>
      right
      have he : e = tooLarge := by
        unfold pageOrder at hn
        split at hn <;> cases hn
        rfl
      rw [← he]
      simp only [pageStep, pageAllocN, hn, error_bind]
    | ok o =>
      left
      obtain ⟨sys', res, hrun, h', hco', hspan⟩ := pageAllocOrder_spec h hco hn hl
      refine ⟨⟨sys', afterAlloc n live empty res⟩, ?_, h', hco', hspan⟩
      simp only [pageStep, pageAllocN, hn, ok_bind, hrun]
      cases res <;> rfl
  | pageFreeN r =>
    left
    obtain ⟨sys', hrun, h', hco', hspan⟩ := pageFreeN_spec h hco hl
    exact ⟨⟨sys', live.erase r⟩, by rw [pageStep, hrun]; rfl, h', hco', hspan⟩

end Weenix.Page
