/-
# The slab allocator in every run

The caches' slabs are in disjoint blocks, each laid out as `SlabAt` says (`SlabInv`).  A call works
on one slab, or unlinks slabs without live objects from a list, so that one lemma about a slab that
changes (`SlabInv.onSlab`) and one about slabs that go (`SlabInv.drop`) give every step.

`slab_heap_sound` puts the result in terms of the heap alone: what the lists in memory are, and how
they agree with the objects that are live.
-/
import Mathlib.Data.List.Nodup
import Weenix.Lib.Run
import Weenix.Mm.SlabSweep

namespace Weenix.Slab

open Bytes Bytes.Mem Weenix.Page List

variable {free' : List Nat} {m : Mem}

/-! ## 1. All the slabs

The blocks are disjoint, so that an address lies in one slab at most (`owner`): what is written in a
slab leaves the others as they are. -/

/-- The blocks of the slabs of each cache, in the order of its list, and the free objects of each
slab in the order of its free list. -/
structure Slabs where
  bases : Nat → List Nat
  free : Nat → List Nat

structure SlabInv (h : SlabHeap) (g : Slabs) : Prop where
  ids : ∀ c, c ∈ h.sys.slabAllocators ↔ c < h.sys.slabAllocators.length
  unused : ∀ c, c ∉ h.sys.slabAllocators → g.bases c = []
  fits : ∀ c ∈ h.sys.slabAllocators, Fits (h.sys.allocator c)
  list : ∀ c ∈ h.sys.slabAllocators, Linked h.sys.mem 0 (h.sys.allocator c).saSlabs
    ((g.bases c).map (slabOf (h.sys.allocator c)))
  slab : ∀ c, ∀ b ∈ g.bases c, SlabAt h.sys.mem (h.sys.allocator c) b (g.free b)
  valid : ∀ c, ∀ b ∈ g.bases c, b ≠ 0 ∧ b + (h.sys.allocator c).bytes ≤ 2 ^ 32
  apart : ∀ c, ∀ b ∈ g.bases c, ∀ c', ∀ b' ∈ g.bases c', (c, b) ≠ (c', b') →
    b + (h.sys.allocator c).bytes ≤ b' ∨ b' + (h.sys.allocator c').bytes ≤ b
  nodup : ∀ c, (g.bases c).Nodup
  held : ∀ x, x ∈ h.held ↔ ∃ c, ∃ b ∈ g.bases c, x = (b, 1 <<< (h.sys.allocator c).saOrder)
  live : ∀ c p, (c, p) ∈ h.live ↔ ∃ b ∈ g.bases c, ∃ k < (h.sys.allocator c).saSlabNobjs,
    k ∉ g.free b ∧ p = objAt (h.sys.allocator c) b k + 4
  liveNodup : h.live.Nodup

section
variable {h : SlabHeap} {g : Slabs} {c c' b b' k k' : Nat}

theorem bytes_eq (a : SlabAllocator) : (1 <<< a.saOrder) * pageSize = a.bytes := by
  rw [SlabAllocator.bytes, Nat.shiftLeft_eq, Nat.shiftLeft_eq, Nat.one_mul, Nat.mul_comm]

section
variable (hi : SlabInv h g) (hb : b ∈ g.bases c)
include hi hb

theorem SlabInv.mem_ids : c ∈ h.sys.slabAllocators := by
  by_contra hc
  rw [hi.unused c hc] at hb
  cases hb

theorem SlabInv.fits_of : Fits (h.sys.allocator c) :=
  hi.fits c (hi.mem_ids hb)

theorem SlabInv.owner (hb' : b' ∈ g.bases c') {x : Nat}
    (hx : b ≤ x ∧ x < b + (h.sys.allocator c).bytes)
    (hx' : b' ≤ x ∧ x < b' + (h.sys.allocator c').bytes) :
    c = c' ∧ b = b' := by
  by_contra hne
  have hapart := hi.apart c b hb c' b' hb' fun heq => hne (Prod.mk.inj heq)
  omega

theorem SlabInv.bytes_pos : 16 ≤ (h.sys.allocator c).bytes := by
  have hroom := (hi.fits_of hb).room
  omega

theorem SlabInv.cache_unique (hb' : b ∈ g.bases c') : c = c' := by
  have hpos := hi.bytes_pos hb
  have hpos' := hi.bytes_pos hb'
  exact (hi.owner hb hb' (x := b) (by omega) (by omega)).1

theorem SlabInv.obj_bounds (hk : k < (h.sys.allocator c).saSlabNobjs) :
    b ≤ objAt (h.sys.allocator c) b k ∧
      objAt (h.sys.allocator c) b k + (h.sys.allocator c).saObjsize + 8 ≤
        slabOf (h.sys.allocator c) b ∧
      slabOf (h.sys.allocator c) b + 16 ≤ b + (h.sys.allocator c).bytes :=
  ⟨le_objAt, objAt_lt hk, slabOf_le (hi.fits_of hb)⟩

theorem SlabInv.obj_inj (hb' : b' ∈ g.bases c')
    (hk : k < (h.sys.allocator c).saSlabNobjs) (hk' : k' < (h.sys.allocator c').saSlabNobjs)
    (heq : objAt (h.sys.allocator c) b k = objAt (h.sys.allocator c') b' k') :
    c = c' ∧ b = b' ∧ k = k' := by
  have hin := hi.obj_bounds hb hk
  have hin' := hi.obj_bounds hb' hk'
  obtain ⟨rfl, rfl⟩ := hi.owner hb hb' (x := objAt (h.sys.allocator c) b k) (by omega) (by omega)
  exact ⟨rfl, rfl, objAt_inj heq⟩

end

theorem mem_update_free (hothers : ∀ j, j ≠ k → (j ∈ free' ↔ j ∈ g.free b))
    (hne : (b', k') ≠ (b, k)) : k' ∈ update g.free b free' b' ↔ k' ∈ g.free b' := by
  obtain rfl | hb := eq_or_ne b' b
  · rw [update_self]
    exact hothers k' fun heq => hne (by rw [heq])
  · rw [update_of_ne hb]

variable (hi : SlabInv h g)
include hi

/-- The list of a cache is shorter than the walks may be. -/
theorem SlabInv.length_lt (c : Nat) :
    ((g.bases c).map (slabOf (h.sys.allocator c))).length < walkLimit := by
  have hnodup : (0 :: g.bases c).Nodup :=
    nodup_cons.mpr ⟨fun hmem => (hi.valid c 0 hmem).1 rfl, hi.nodup c⟩
  have hsub : 0 :: g.bases c ⊆ range walkLimit := by
    refine cons_subset.mpr ⟨mem_range.mpr (Nat.two_pow_pos 32), fun b hb => ?_⟩
    have hpos := hi.bytes_pos hb
    have hvalid := (hi.valid c b hb).2
    exact mem_range.mpr (Nat.lt_of_lt_of_le (Nat.lt_add_of_pos_right (by omega)) hvalid)
  have hlen := (hnodup.subperm hsub).length_le
  rw [length_range] at hlen
  rw [length_map]
  exact hlen

theorem SlabInv.descsApart (c : Nat) :
    DescsApart ((g.bases c).map (slabOf (h.sys.allocator c))) := by
  refine pairwise_map.mpr ((hi.nodup c).imp_of_mem fun {b b'} hb hb' hne => ?_)
  have hapart := hi.apart c b hb c b' hb' fun heq => hne (Prod.mk.inj heq).2
  have hin := slab_bounds (b := b) (hi.fits_of hb)
  have hin' := slab_bounds (b := b') (hi.fits_of hb)
  omega

/-- What is written outside of the slabs, or inside of an object, does not touch the layout. -/
theorem SlabInv.frame
    (hsame : ∀ c, ∀ b ∈ g.bases c, ∀ x, b ≤ x → x < slabOf (h.sys.allocator c) b + 16 →
      (∀ k < (h.sys.allocator c).saSlabNobjs, ¬ Inside (h.sys.allocator c) b k x) →
      m x = h.sys.mem x)
    :
    SlabInv { h with sys := { h.sys with mem := m } } g where
  __ := hi
  list c hc := by
    refine Seg.congr (hi.list c hc) fun x hx => ?_
    obtain ⟨b, hb, rfl⟩ := mem_map.mp hx
    dsimp only
    refine word_congr fun y hle hlt => hsame c b hb y ?_ (by omega) fun k hk hin => ?_
    · have hb' : b ≤ slabOf (h.sys.allocator c) b := le_objAt
      omega
    · have hlt' : objAt (h.sys.allocator c) b k + _ + 8 ≤ slabOf (h.sys.allocator c) b :=
        objAt_lt hk
      have hin' := hin.2
      omega
  slab c b hb := (hi.slab c b hb).congr (hi.fits_of hb) fun x hle hlt _ hin =>
    hsame c b hb x hle hlt hin

variable (hb : b ∈ g.bases c) (hrel : Relinked h.sys.mem m (h.sys.allocator c) b k)
include hb hrel

theorem SlabInv.onSlab {live' : List (Nat × Nat)} (hk : k < (h.sys.allocator c).saSlabNobjs)
    (hat : SlabAt m (h.sys.allocator c) b free')
    (hlive : ∀ c' p, (c', p) ∈ live' ↔ ∃ b' ∈ g.bases c', ∃ k' < (h.sys.allocator c').saSlabNobjs,
      k' ∉ update g.free b free' b' ∧ p = objAt (h.sys.allocator c') b' k' + 4)
    (hnodup : live'.Nodup) :
    SlabInv ⟨{ h.sys with mem := m }, live', h.held⟩ { g with free := update g.free b free' } := by
  have hfit := hi.fits_of hb
  have hend := slabOf_le (b := b) hfit
  have hobj : objAt (h.sys.allocator c) b k + _ + 8 ≤ slabOf (h.sys.allocator c) b := objAt_lt hk
  have hle : b ≤ objAt (h.sys.allocator c) b k := le_objAt
  have hctl : objBufctl (h.sys.allocator c)
    (objAt (h.sys.allocator c) b k) = objAt (h.sys.allocator c) b k + _ := rfl
  have hsame : ∀ x, x < b ∨ b + (h.sys.allocator c).bytes ≤ x → m x = h.sys.mem x := fun x hx =>
    hrel x (by omega) (by omega)
  have hother : ∀ c', ∀ b' ∈ g.bases c', b' ≠ b → ∀ x, b' ≤ x →
    x < slabOf (h.sys.allocator c') b' + 16 →
      m x = h.sys.mem x := by
    intro c' b' hb' hne x hx hx'
    have hapart := hi.apart c' b' hb' c b hb fun heq => hne (Prod.mk.inj heq).2
    have hend' := slabOf_le (b := b') (hi.fits_of hb')
    exact hsame x (by omega)
  refine { hi with list c' hc' := ?_, slab c' b' hb' := ?_, live := hlive, liveNodup := hnodup }
  · refine Seg.congr (hi.list c' hc') fun x hx => ?_
    obtain ⟨b', hb', rfl⟩ := mem_map.mp hx
    have hle' : b' ≤ slabOf (h.sys.allocator c') b' := le_objAt
    dsimp only
    refine word_congr fun y hy hy' => ?_
    obtain rfl | hne := eq_or_ne b' b
    · obtain rfl := hi.cache_unique hb' hb
      exact hrel y (by omega) (by omega)
    · exact hother c' b' hb' hne y (by omega) (by omega)
  · dsimp only
    obtain rfl | hne := eq_or_ne b' b
    · obtain rfl := hi.cache_unique hb' hb
      rw [update_self]
      exact hat
    · rw [update_of_ne hne]
      exact (hi.slab c' b' hb').congr (hi.fits_of hb') fun x hx hx' _ _ =>
        hother c' b' hb' hne x hx hx'

theorem SlabInv.take (hfree : g.free b = k :: free') (hat : SlabAt m (h.sys.allocator c) b free') :
    SlabInv ⟨{ h.sys with mem := m }, (c, objAt (h.sys.allocator c) b k + 4) :: h.live, h.held⟩
      { g with free := update g.free b free' } := by
  have hold := hfree ▸ hi.slab c b hb
  have hk := hold.lt k (.head _)
  have hnew : k ∉ free' := (nodup_cons.mp hold.nodup).1
  have hothers : ∀ j, j ≠ k → (j ∈ free' ↔ j ∈ g.free b) := fun j hne => by
    rw [hfree, mem_cons, or_iff_right hne]
  refine hi.onSlab hb hrel hk hat (fun c' p => ?_) (nodup_cons.mpr ⟨fun hmem => ?_, hi.liveNodup⟩)
  · rw [mem_cons, hi.live]
    constructor
    · rintro (heq | ⟨b', hb', k', hk', hlive, rfl⟩)
      · obtain ⟨rfl, rfl⟩ := Prod.mk.inj heq
        exact ⟨b, hb, k, hk, by rwa [update_self], rfl⟩
      · refine ⟨b', hb', k', hk', ?_, rfl⟩
        rwa [mem_update_free hothers]
        rintro heq
        obtain ⟨rfl, rfl⟩ := Prod.mk.inj heq
        exact hlive (hfree ▸ .head _ ..)
    · rintro ⟨b', hb', k', hk', hlive, rfl⟩
      by_cases heq : (b', k') = (b, k)
      · obtain ⟨rfl, rfl⟩ := Prod.mk.inj heq
        obtain rfl := hi.cache_unique hb' hb
        exact .inl rfl
      · exact .inr ⟨b', hb', k', hk', by rwa [mem_update_free hothers heq] at hlive, rfl⟩
  · obtain ⟨b', hb', k', hk', hlive, heq⟩ := (hi.live c _).mp hmem
    obtain ⟨-, rfl, rfl⟩ := hi.obj_inj hb hb' hk hk' (Nat.add_right_cancel heq)
    exact hlive (hfree ▸ .head _ ..)

theorem SlabInv.give (hk : k < (h.sys.allocator c).saSlabNobjs) (hlive : k ∉ g.free b)
    (hat : SlabAt m (h.sys.allocator c) b (k :: g.free b)) :
    SlabInv ⟨{ h.sys with mem := m }, h.live.erase (c, objAt (h.sys.allocator c) b k + 4), h.held⟩
      { g with free := update g.free b (k :: g.free b) } := by
  have hothers : ∀ j, j ≠ k → (j ∈ k :: g.free b ↔ j ∈ g.free b) := fun j hne => by
    rw [mem_cons, or_iff_right hne]
  refine hi.onSlab hb hrel hk hat (fun c' p => ?_) (hi.liveNodup.erase _)
  rw [hi.liveNodup.mem_erase_iff, hi.live]
  constructor
  · rintro ⟨hne, b', hb', k', hk', hfree, rfl⟩
    refine ⟨b', hb', k', hk', ?_, rfl⟩
    rwa [mem_update_free hothers]
    rintro heq
    obtain ⟨rfl, rfl⟩ := Prod.mk.inj heq
    obtain rfl := hi.cache_unique hb' hb
    exact hne rfl
  · rintro ⟨b', hb', k', hk', hfree, rfl⟩
    have hne : (b', k') ≠ (b, k) := by
      rintro heq
      obtain ⟨rfl, rfl⟩ := Prod.mk.inj heq
      rw [update_self] at hfree
      exact hfree (.head _)
    refine ⟨fun heq => ?_, b', hb', k', hk', by rwa [mem_update_free hothers hne] at hfree, rfl⟩
    obtain ⟨hc, hp⟩ := Prod.mk.inj heq
    obtain ⟨-, rfl, rfl⟩ := hi.obj_inj hb' hb hk' hk (Nat.add_right_cancel hp)
    exact hne rfl

end

/-! ## 2. Slabs that come and go

One cache's list changes, and nothing else of any layout (`SameLayout`).  `grow` adds a block that
meets no other; `drop` unlinks blocks without live objects. -/

/-- Caches that differ in their list of slabs only. -/
structure SameLayout (a a' : SlabAllocator) : Prop where
  objsize : a'.saObjsize = a.saObjsize
  order : a'.saOrder = a.saOrder
  nobjs : a'.saSlabNobjs = a.saSlabNobjs

section
variable {a a' : SlabAllocator} {m : Mem} {b k : Nat} {free : List Nat}

section
variable (h : SameLayout a a')
include h

theorem SameLayout.objAt : objAt a' b k = objAt a b k := by
  rw [Slab.objAt, h.objsize, Slab.objAt]

theorem SameLayout.slabOf : slabOf a' = slabOf a := by
  funext b
  rw [Slab.slabOf, h.nobjs, h.objAt, Slab.slabOf]

theorem SameLayout.bytes : a'.bytes = a.bytes := by
  rw [SlabAllocator.bytes, h.order, SlabAllocator.bytes]

theorem SameLayout.fits (hfit : Fits a) : Fits a' := by
  refine ⟨h.objsize ▸ hfit.objsize, h.nobjs ▸ hfit.nobjs, h.order ▸ hfit.order, ?_⟩
  rw [h.nobjs, h.objsize, h.bytes]
  exact hfit.room

theorem SameLayout.slabAt (hat : SlabAt m a b free) : SlabAt m a' b free := by
  obtain ⟨objsize, slabs, order, nobjs⟩ := a'
  obtain ⟨rfl, rfl, rfl⟩ := h
  exact { hat with }

end

theorem sameLayout_update (f : Nat → SlabAllocator) (c x c' : Nat) :
    SameLayout (f c') (update f c { f c with saSlabs := x } c') := by
  obtain rfl | hne := eq_or_ne c' c
  · rw [update_self]
    exact ⟨rfl, rfl, rfl⟩
  · rw [update_of_ne hne]
    exact ⟨rfl, rfl, rfl⟩

/-- A slab none of whose objects is in use has them all on its free list. -/
theorem SlabAt.all_free (hat : SlabAt m a b free) (hempty : m.word (slabOf a b + 4) = 0)
    (hk : k < a.saSlabNobjs) : k ∈ free := by
  by_contra hlive
  have hlen := hat.length_free hk hlive
  have hinuse := hat.inuse
  omega

end

section
variable {h : SlabHeap} {g : Slabs} {c b : Nat} (hi : SlabInv h g)
include hi

section
variable (hc : c ∈ h.sys.slabAllocators)
include hc

/-- A cache's list in a memory that has its slabs as they were. -/
theorem SlabInv.list_congr
    (hmem : ∀ b ∈ g.bases c, ∀ x, b ≤ x → x < slabOf (h.sys.allocator c) b + 16 →
      m x = h.sys.mem x) :
    Linked m 0 (h.sys.allocator c).saSlabs ((g.bases c).map (slabOf (h.sys.allocator c))) := by
  refine Seg.congr (hi.list c hc) fun x hx => ?_
  obtain ⟨b, hb, rfl⟩ := mem_map.mp hx
  have hle : b ≤ slabOf (h.sys.allocator c) b := le_objAt
  exact word_congr fun y hy hy' => hmem b hb y (by omega) (by omega)

theorem SlabInv.grow (hb : b ≠ 0)
    (hbound : b + (h.sys.allocator c).bytes ≤ 2 ^ 32) (hout : Outside h b (h.sys.allocator c).bytes)
    (hsame : ∀ x, x < b ∨ b + (h.sys.allocator c).bytes ≤ x → m x = h.sys.mem x)
    (hnext : m.word (slabOf (h.sys.allocator c) b) = (h.sys.allocator c).saSlabs)
    (hat : SlabAt m (h.sys.allocator c) b (List.range (h.sys.allocator c).saSlabNobjs)) :
    SlabInv ⟨{ h.sys with
        mem := m
        allocator := update h.sys.allocator c { h.sys.allocator c with
          saSlabs := slabOf (h.sys.allocator c) b } },
        h.live, (b, 1 <<< (h.sys.allocator c).saOrder) :: h.held⟩
      ⟨update g.bases c (b :: g.bases c),
        update g.free b (range (h.sys.allocator c).saSlabNobjs)⟩ := by
  have hlayout := sameLayout_update h.sys.allocator c (slabOf (h.sys.allocator c) b)
  have hapart : ∀ c', ∀ b' ∈ g.bases c', b + (h.sys.allocator c).bytes ≤ b' ∨
      b' + (h.sys.allocator c').bytes ≤ b := by
    intro c' b' hb'
    have hx := hout _ ((hi.held _).mpr ⟨c', b', hb', rfl⟩)
    rwa [bytes_eq] at hx
  have hne : ∀ c', ∀ b' ∈ g.bases c', b' ≠ b := by
    rintro c' b' hb' rfl
    have hpos := hi.bytes_pos hb'
    have hpos' := (hi.fits c hc).room
    have hx := hapart c' b' hb'
    omega
  have hbases : ∀ c' b', b' ∈ update g.bases c (b :: g.bases c) c' ↔
      (c' = c ∧ b' = b) ∨ b' ∈ g.bases c' := by
    intro c' b'
    obtain rfl | hne := eq_or_ne c' c
    · rw [update_self, mem_cons, eq_self_iff_true, true_and]
    · rw [update_of_ne hne, or_iff_right fun heq => hne heq.1]
  -- the new block meets no slab
  have hmem : ∀ c', ∀ b' ∈ g.bases c', ∀ x, b' ≤ x → x < slabOf (h.sys.allocator c') b' + 16 →
      m x = h.sys.mem x := by
    intro c' b' hb' x hle hlt
    have hx := hapart c' b' hb'
    have hend := slabOf_le (b := b') (hi.fits_of hb')
    exact hsame x (by omega)
  refine ⟨hi.ids, fun c' hc' => ?_, fun c' hc' => (hlayout c').fits (hi.fits c' hc'),
    fun c' hc' => ?_, fun c' b' hb' => (hlayout c').slabAt ?_, fun c' b' hb' => ?_,
    fun c₁ b₁ hb₁ c₂ b₂ hb₂ hdiff => ?_, fun c' => ?_, fun x => ?_, fun c' p => ?_, hi.liveNodup⟩
  · dsimp only
    have hcc : c' ≠ c := fun heq => hc' (heq ▸ hc)
    rw [update_of_ne hcc, hi.unused c' hc']
  · dsimp only
    rw [(hlayout c').slabOf]
    obtain rfl | hcc := eq_or_ne c' c
    · rw [update_self, update_self, map_cons]
      have hpos : slabOf (h.sys.allocator c') b ≠ 0 := by
        have hle : b ≤ slabOf (h.sys.allocator c') b := le_objAt
        omega
      refine .cons hpos ?_
      rw [Nat.add_zero, hnext]
      exact hi.list_congr hc' (hmem c')
    · rw [update_of_ne hcc, update_of_ne hcc]
      exact hi.list_congr hc' (hmem c')
  · dsimp only
    obtain ⟨rfl, rfl⟩ | hb' := (hbases c' b').mp hb'
    · rw [update_self]
      exact hat
    · rw [update_of_ne (hne c' b' hb')]
      exact (hi.slab c' b' hb').congr (hi.fits_of hb') fun x hle hlt _ _ => hmem c' b' hb' x hle hlt
  · rw [(hlayout c').bytes]
    obtain ⟨rfl, rfl⟩ | hb' := (hbases c' b').mp hb'
    · exact ⟨hb, hbound⟩
    · exact hi.valid c' b' hb'
  · rw [(hlayout c₁).bytes, (hlayout c₂).bytes]
    obtain ⟨rfl, rfl⟩ | hold₁ := (hbases c₁ b₁).mp hb₁
    · obtain ⟨rfl, rfl⟩ | hold₂ := (hbases c₂ b₂).mp hb₂
      · exact absurd rfl hdiff
      · exact hapart c₂ b₂ hold₂
    · obtain ⟨rfl, rfl⟩ | hold₂ := (hbases c₂ b₂).mp hb₂
      · exact (hapart c₁ b₁ hold₁).symm
      · exact hi.apart c₁ b₁ hold₁ c₂ b₂ hold₂ hdiff
  · dsimp only
    obtain rfl | hcc := eq_or_ne c' c
    · rw [update_self]
      exact nodup_cons.mpr ⟨fun hmem => hne c' b hmem rfl, hi.nodup c'⟩
    · rw [update_of_ne hcc]
      exact hi.nodup c'
  · rw [mem_cons, hi.held]
    constructor
    · rintro (rfl | ⟨c', b', hb', rfl⟩)
      · exact ⟨c, b, (hbases c b).mpr (.inl ⟨rfl, rfl⟩), by rw [(hlayout c).order]⟩
      · exact ⟨c', b', (hbases c' b').mpr (.inr hb'), by rw [(hlayout c').order]⟩
    · rintro ⟨c', b', hb', rfl⟩
      rw [(hlayout c').order]
      obtain ⟨rfl, rfl⟩ | hb' := (hbases c' b').mp hb'
      · exact .inl rfl
      · exact .inr ⟨c', b', hb', rfl⟩
  · dsimp only
    rw [hi.live]
    constructor
    · rintro ⟨b', hb', k, hk, hfree, rfl⟩
      refine ⟨b', (hbases c' b').mpr (.inr hb'), k, (hlayout c').nobjs.symm ▸ hk,
        ?_, by rw [(hlayout c').objAt]⟩
      rwa [update_of_ne (hne c' b' hb')]
    · rintro ⟨b', hb', k, hk, hfree, rfl⟩
      rw [(hlayout c').nobjs] at hk
      rw [(hlayout c').objAt]
      obtain ⟨rfl, rfl⟩ | hb' := (hbases c' b').mp hb'
      · rw [update_self] at hfree
        exact absurd (mem_range.mpr hk) hfree
      · rw [update_of_ne (hne c' b' hb')] at hfree
        exact ⟨b', hb', k, hk, hfree, rfl⟩

theorem SlabInv.drop {head : Nat} {bases' : List Nat} {held' : List (Nat × Nat)}
    (hsub : bases'.Sublist (g.bases c))
    (hempty : ∀ b ∈ g.bases c, b ∉ bases' → h.sys.mem.word (slabOf (h.sys.allocator c) b + 4) = 0)
    (hlist : Linked m 0 head (bases'.map (slabOf (h.sys.allocator c))))
    (hsame : ∀ x,
      (∀ b ∈ g.bases c, x < slabOf (h.sys.allocator c) b ∨ slabOf (h.sys.allocator c) b + 4 ≤ x) →
      m x = h.sys.mem x)
    (hheld : ∀ x, x ∈ held' ↔ x ∈ h.held ∧ ∀ b ∈ g.bases c, b ∉ bases' →
      x ≠ (b, 1 <<< (h.sys.allocator c).saOrder)) :
    SlabInv ⟨{ h.sys with
        mem := m
        allocator := update h.sys.allocator c { h.sys.allocator c with saSlabs := head } },
        h.live, held'⟩
      { g with bases := update g.bases c bases' } := by
  have hlayout := sameLayout_update h.sys.allocator c head
  have hold : ∀ c' b', b' ∈ update g.bases c bases' c' → b' ∈ g.bases c' := by
    intro c' b' hb'
    obtain rfl | hcc := eq_or_ne c' c
    · rw [update_self] at hb'
      exact hsub.subset hb'
    · rwa [update_of_ne hcc] at hb'
  -- the links of the cache's slabs are the only words that change
  have hword : ∀ c' ≠ c, ∀ b' ∈ g.bases c', ∀ x, b' ≤ x → x < slabOf (h.sys.allocator c') b' + 16 →
      m x = h.sys.mem x := by
    intro c' hcc b' hb' x hle hlt
    refine hsame x fun b hb => ?_
    have hapart := hi.apart c' b' hb' c b hb fun heq => hcc (Prod.mk.inj heq).1
    have hin := slab_bounds (b := b) (hi.fits_of hb)
    have hend' := slabOf_le (b := b') (hi.fits_of hb')
    omega
  have hdesc : ∀ b ∈ g.bases c, ∀ x, b ≤ x → x < slabOf (h.sys.allocator c) b + 16 →
      (x < slabOf (h.sys.allocator c) b ∨ slabOf (h.sys.allocator c) b + 4 ≤ x) →
        m x = h.sys.mem x := by
    intro b hb x hle hlt hx
    refine hsame x fun b' hb' => ?_
    obtain rfl | hne := eq_or_ne b' b
    · exact hx
    · have hapart := hi.apart c b hb c b' hb' fun heq => hne (Prod.mk.inj heq).2.symm
      have hend := slabOf_le (b := b) (hi.fits_of hb)
      have hin' := slab_bounds (b := b') (hi.fits_of hb')
      omega
  refine ⟨hi.ids, fun c' hc' => ?_, fun c' hc' => (hlayout c').fits (hi.fits c' hc'),
    fun c' hc' => ?_, fun c' b' hb' => (hlayout c').slabAt ?_, fun c' b' hb' => ?_,
    fun c₁ b₁ hb₁ c₂ b₂ hb₂ hdiff => ?_, fun c' => ?_, fun x => ?_, fun c' p => ?_, hi.liveNodup⟩
  · dsimp only
    have hcc : c' ≠ c := fun heq => hc' (heq ▸ hc)
    rw [update_of_ne hcc, hi.unused c' hc']
  · dsimp only
    rw [(hlayout c').slabOf]
    obtain rfl | hcc := eq_or_ne c' c
    · rw [update_self, update_self]
      exact hlist
    · rw [update_of_ne hcc, update_of_ne hcc]
      exact hi.list_congr hc' (hword c' hcc)
  · have hmem := hold c' b' hb'
    refine (hi.slab c' b' hmem).congr (hi.fits_of hmem) fun x hle hlt hx _ => ?_
    obtain rfl | hcc := eq_or_ne c' c
    · exact hdesc b' hmem x hle hlt hx
    · exact hword c' hcc b' hmem x hle hlt
  · rw [(hlayout c').bytes]
    exact hi.valid c' b' (hold c' b' hb')
  · rw [(hlayout c₁).bytes, (hlayout c₂).bytes]
    exact hi.apart c₁ b₁ (hold c₁ b₁ hb₁) c₂ b₂ (hold c₂ b₂ hb₂) hdiff
  · dsimp only
    obtain rfl | hcc := eq_or_ne c' c
    · rw [update_self]
      exact (hi.nodup c').sublist hsub
    · rw [update_of_ne hcc]
      exact hi.nodup c'
  · dsimp only
    rw [hheld, hi.held]
    constructor
    · rintro ⟨⟨c', b', hb', rfl⟩, hkept⟩
      refine ⟨c', b', ?_, by rw [(hlayout c').order]⟩
      obtain rfl | hcc := eq_or_ne c' c
      · rw [update_self]
        by_contra hgone
        exact hkept b' hb' hgone rfl
      · rwa [update_of_ne hcc]
    · rintro ⟨c', b', hb', rfl⟩
      rw [(hlayout c').order]
      refine ⟨⟨c', b', hold c' b' hb', rfl⟩, fun b hb hgone heq => ?_⟩
      obtain ⟨rfl, -⟩ := Prod.mk.inj heq
      obtain rfl := hi.cache_unique (hold c' b' hb') hb
      rw [update_self] at hb'
      exact hgone hb'
  · dsimp only
    rw [hi.live]
    constructor
    · rintro ⟨b', hb', k, hk, hfree, rfl⟩
      refine ⟨b', ?_, k, (hlayout c').nobjs.symm ▸ hk, hfree, by rw [(hlayout c').objAt]⟩
      obtain rfl | hcc := eq_or_ne c' c
      · rw [update_self]
        by_contra hgone
        exact hfree ((hi.slab c' b' hb').all_free (hempty b' hb' hgone) hk)
      · rwa [update_of_ne hcc]
    · rintro ⟨b', hb', k, hk, hfree, rfl⟩
      rw [(hlayout c').nobjs] at hk
      rw [(hlayout c').objAt]
      exact ⟨b', hold c' b' hb', k, hk, hfree, rfl⟩

end

theorem SlabInv.create {a : SlabAllocator} (hfit : Fits a) (hslabs : a.saSlabs = 0) :
    SlabInv { h with sys := { h.sys with
      slabAllocators := h.sys.slabAllocators.length :: h.sys.slabAllocators
      allocator := update h.sys.allocator h.sys.slabAllocators.length a } } g := by
  have hnew : h.sys.slabAllocators.length ∉ h.sys.slabAllocators := fun hmem =>
    lt_irrefl _ ((hi.ids _).mp hmem)
  have hne : ∀ c ∈ h.sys.slabAllocators, update h.sys.allocator h.sys.slabAllocators.length a c
      = h.sys.allocator c := fun c hc =>
    update_of_ne (fun heq : c = h.sys.slabAllocators.length => hnew (heq ▸ hc)) _ _
  have hold : ∀ c, ∀ b ∈ g.bases c, update h.sys.allocator h.sys.slabAllocators.length a c
      = h.sys.allocator c := fun c b hb => hne c (hi.mem_ids hb)
  refine ⟨fun c => ?_, fun c hc => hi.unused c fun hmem => hc (.tail _ hmem), fun c hc => ?_,
    fun c hc => ?_, fun c b hb => ?_, fun c b hb => ?_, fun c b hb c' b' hb' hdiff => ?_, hi.nodup,
    fun x => ?_, fun c p => ?_, hi.liveNodup⟩
  · rw [mem_cons, hi.ids, length_cons]
    omega
  · dsimp only
    obtain rfl | hc := mem_cons.mp hc
    · rwa [update_self]
    · rw [hne c hc]
      exact hi.fits c hc
  · dsimp only
    obtain rfl | hc := mem_cons.mp hc
    · rw [update_self, hi.unused _ hnew, hslabs]
      exact .nil 0
    · rw [hne c hc]
      exact hi.list c hc
  · dsimp only
    rw [hold c b hb]
    exact hi.slab c b hb
  · dsimp only
    rw [hold c b hb]
    exact hi.valid c b hb
  · dsimp only
    rw [hold c b hb, hold c' b' hb']
    exact hi.apart c b hb c' b' hb' hdiff
  · dsimp only
    rw [hi.held]
    refine exists_congr fun c => exists_congr fun b => and_congr_right fun hb => ?_
    rw [hold c b hb]
  · dsimp only
    rw [hi.live]
    refine exists_congr fun b => and_congr_right fun hb => ?_
    rw [hold c b hb]

end

/-! ## 3. The calls

Reclaiming is an induction over the caches, with `sweep` for the list of each. -/

def NoLive (h : SlabHeap) (x : Nat × Nat) : Prop :=
  ∀ o ∈ h.live, o.2 < x.1 ∨ x.1 + x.2 * pageSize ≤ o.2

section
variable {h : SlabHeap} {g : Slabs} {c : Nat}

/-- A slab without objects in use holds none of the live ones. -/
theorem SlabInv.noLive {b : Nat} (hi : SlabInv h g) (hb : b ∈ g.bases c)
    (hempty : h.sys.mem.word (slabOf (h.sys.allocator c) b + 4) = 0) :
    NoLive h (b, 1 <<< (h.sys.allocator c).saOrder) := by
  rintro ⟨c', p⟩ ho
  obtain ⟨b', hb', k, hk, hfree, rfl⟩ := (hi.live c' p).mp ho
  rw [bytes_eq]
  have hne : (c', b') ≠ (c, b) := by
    rintro heq
    obtain ⟨rfl, rfl⟩ := Prod.mk.inj heq
    exact hfree ((hi.slab c' b' hb').all_free hempty hk)
  have hapart := hi.apart c' b' hb' c b hb hne
  have hin := hi.obj_bounds hb' hk
  omega

/-- The loop over the slabs of one cache, as a step on the heap. -/
theorem SlabInv.sweep (hi : SlabInv h g) (target : Int) (freed : Nat) (released : List (Nat × Nat))
    (hc : c ∈ h.sys.slabAllocators) :
    ∃ r met more g', reclaimSlabs target (1 <<< (h.sys.allocator c).saOrder) walkLimit none
        (h.sys.allocator c).saSlabs ⟨h.sys.mem, (h.sys.allocator c).saSlabs, freed, released⟩ =
          .ok (r, met) ∧
      r.released = released ++ more ∧ r.npagesFreed = freed + (more.map Prod.snd).sum ∧ more.Nodup ∧
      (∀ x ∈ more, x ∈ h.held ∧ NoLive h x) ∧
      SlabInv ⟨{ h.sys with
        mem := r.mem
        allocator := update h.sys.allocator c { h.sys.allocator c with saSlabs := r.saSlabs } },
        h.live, h.held.filter (· ∉ more)⟩ g' := by
  obtain ⟨r, met, gone, hloop, hswept⟩ :=
    reclaimSlabs_spec target (1 <<< (h.sys.allocator c).saOrder)
    (r := ⟨h.sys.mem, (h.sys.allocator c).saSlabs, freed, released⟩)
    (show Seg _ 0 _ [] _ from .nil _) (hi.list c hc)
    (by rw [nil_append]; exact hi.descsApart c) (hi.length_lt c)
  obtain ⟨dead, hsub, rfl⟩ := sublist_map_iff.mp hswept.sub
  have hinj : Function.Injective (slabOf (h.sys.allocator c)) :=
    fun x y heq => Nat.add_right_cancel heq
  have hdead : ∀ b ∈ dead, h.sys.mem.word (slabOf (h.sys.allocator c) b + 4) = 0 := fun b hb =>
    hswept.empty _ (mem_map_of_mem hb)
  have hmore : (dead.map (slabOf (h.sys.allocator c))).map (fun x =>
      (h.sys.mem.word (x + 12), 1 <<< (h.sys.allocator c).saOrder))
      = dead.map fun b => (b, 1 <<< (h.sys.allocator c).saOrder) := by
    rw [map_map]
    refine map_congr_left fun b hb => ?_
    rw [Function.comp_apply, (hi.slab c b (hsub.subset hb)).addr]
  have hlist := hswept.linked
  rw [nil_append, filter_map] at hlist
  have hfilter : (g.bases c).filter ((fun x => decide (x ∉ dead.map (slabOf (h.sys.allocator c)))) ∘
      slabOf (h.sys.allocator c)) = (g.bases c).filter (· ∉ dead) := by
    exact filter_congr fun b _ => decide_eq_decide.mpr (not_congr (mem_map_of_injective hinj))
  rw [hfilter] at hlist
  have hgone : ∀ b ∈ g.bases c, b ∉ (g.bases c).filter (· ∉ dead) → b ∈ dead := by
    intro b hb hnot
    by_contra hkept
    exact hnot (mem_filter.mpr ⟨hb, decide_eq_true hkept⟩)
  refine ⟨r, met, _, _, hloop, hswept.released, ?_, ?_, ?_, hi.drop hc filter_sublist
    (fun b hb hnot => hdead b (hgone b hb hnot)) hlist (fun x hx => hswept.same x ?_) ?_⟩
  · rw [hswept.freed, hmore, map_map, length_map]
    have hconst : Prod.snd ∘ (fun b : Nat => (b, 1 <<< (h.sys.allocator c).saOrder))
        = fun _ => 1 <<< (h.sys.allocator c).saOrder := rfl
    rw [hconst, map_const', sum_replicate_nat]
  · rw [hmore]
    exact List.Nodup.map (fun x y heq => (Prod.mk.inj heq).1) ((hi.nodup c).sublist hsub)
  · rw [hmore]
    intro x hx
    obtain ⟨b, hb, rfl⟩ := mem_map.mp hx
    exact ⟨(hi.held _).mpr ⟨c, b, hsub.subset hb, rfl⟩, hi.noLive (hsub.subset hb) (hdead b hb)⟩
  · intro y hy
    rw [nil_append] at hy
    obtain ⟨b, hb, rfl⟩ := mem_map.mp hy
    exact hx b hb
  · intro x
    rw [hmore, mem_filter, decide_eq_true_eq]
    refine and_congr_right fun _ => ⟨fun hnot b hb hb' heq => hnot ?_, fun hall hmem => ?_⟩
    · exact mem_map.mpr ⟨b, hgone b hb hb', heq.symm⟩
    · obtain ⟨b, hb, rfl⟩ := mem_map.mp hmem
      refine hall b (hsub.subset hb) (fun hkept => ?_) rfl
      exact of_decide_eq_true (mem_filter.mp hkept).2 hb

theorem reclaimCaches_spec (target : Int) {cs : List Nat} {s : SlabSys}
    {live held released : List (Nat × Nat)}
    (freed : Nat) (hi : SlabInv ⟨s, live, held.filter (· ∉ released)⟩ g)
    (hcs : ∀ c ∈ cs, c ∈ s.slabAllocators) :
    ∃ s' freed' more g',
      reclaimCaches target cs s freed released = .ok (s', freed', released ++ more) ∧
      freed' = freed + (more.map Prod.snd).sum ∧ more.Nodup ∧
      (∀ x ∈ more, x ∈ held ∧ x ∉ released ∧ ∀ o ∈ live, o.2 < x.1 ∨ x.1 + x.2 * pageSize ≤ o.2) ∧
      SlabInv ⟨s', live, held.filter (· ∉ released ++ more)⟩ g' := by
  induction cs generalizing s freed released g with
  | nil =>
    refine ⟨s, freed, [], g, ?_, rfl, .nil, nofun, ?_⟩
    · rw [append_nil]
      rfl
    · rwa [append_nil]
  | cons c cs ih =>
    obtain ⟨r, met, more, g', hloop, hreleased, hfreed, hnodup, hmore, hi'⟩ :=
      hi.sweep target freed released (hcs c (.head _))
    have hmem : ∀ x ∈ more, x ∈ held ∧ x ∉ released ∧ ∀ o ∈ live, o.2 < x.1 ∨
        x.1 + x.2 * pageSize ≤ o.2 := by
      intro x hx
      obtain ⟨hheld, hnone⟩ := hmore x hx
      obtain ⟨hheld, hnot⟩ := mem_filter.mp hheld
      exact ⟨hheld, of_decide_eq_true hnot, hnone⟩
    have hfilter :
        (held.filter (· ∉ released)).filter (· ∉ more) = held.filter (· ∉ released ++ more) := by
      rw [filter_filter]
      refine filter_congr fun x _ => ?_
      simp [mem_append, not_or, Bool.and_comm]
    rw [hfilter] at hi'
    rw [reclaimCaches]
    rw [hloop, ok_bind]
    dsimp only
    rw [hreleased, hfreed]
    cases met with
    | true => exact ⟨_, _, more, g', rfl, rfl, hnodup, hmem, hi'⟩
    | false =>
      obtain ⟨s', freed', more', g'', hrest, hfreed', hnodup', hmore', hi''⟩ :=
        ih _ hi' fun c' hc' =>
        hcs c' (.tail _ hc')
      refine ⟨s', freed', more ++ more', g'', ?_, ?_, ?_, ?_, ?_⟩
      · rw [← append_assoc]
        exact hrest
      · rw [hfreed', map_append, sum_append, Nat.add_assoc]
      · refine nodup_append.mpr ⟨hnodup, hnodup', fun x hx y hy heq => ?_⟩
        exact (hmore' y hy).2.1 (mem_append_right _ (heq ▸ hx))
      · intro x hx
        obtain hx | hx := mem_append.mp hx
        · exact hmem x hx
        · obtain ⟨hheld, hnot, hnone⟩ := hmore' x hx
          exact ⟨hheld, fun hmem => hnot (mem_append_left _ hmem), hnone⟩
      · rwa [← append_assoc]

section
variable (hi : SlabInv h g)
include hi

/-- **Reclaiming** returns the number of the pages it releases, from slabs without live objects. -/
theorem SlabInv.reclaim (target : Int) :
    ∃ s n released g', slabAllocatorsReclaim h.sys target = .ok (s, n, released) ∧
      n = (released.map Prod.snd).sum ∧ released.Nodup ∧ (∀ x ∈ released, x ∈ h.held ∧ NoLive h x) ∧
      SlabInv ⟨s, h.live, h.held.filter (· ∉ released)⟩ g' := by
  have hstart : SlabInv ⟨h.sys, h.live, h.held.filter (· ∉ [])⟩ g := by rwa [filter_notMem_nil]
  obtain ⟨s, n, more, g', hrun, hn, hnodup, hmore, hi'⟩ :=
    reclaimCaches_spec target 0 hstart fun c hc => hc
  rw [nil_append] at hrun hi'
  rw [Nat.zero_add] at hn
  exact ⟨s, n, more, g', hrun, hn, hnodup, fun x hx => ⟨(hmore x hx).1, (hmore x hx).2.2⟩, hi'⟩

/-- The slab that is found has a free object, or there is none. -/
theorem SlabInv.findSlab (hc : c ∈ h.sys.slabAllocators) :
    ∃ x, findSlab h.sys.mem (h.sys.allocator c).saSlabNobjs walkLimit (h.sys.allocator c).saSlabs =
      .ok x ∧
      ((usable h.sys.mem (h.sys.allocator c).saSlabNobjs x = false ∧ ∀ b ∈ g.bases c,
        g.free b = []) ∨
        (usable h.sys.mem (h.sys.allocator c).saSlabNobjs x = true ∧ ∃ b ∈ g.bases c,
          x = slabOf (h.sys.allocator c) b ∧ ∃ k free, g.free b = k :: free)) := by
  obtain ⟨hfind, hall⟩ | ⟨x, hx, hfind, hinuse⟩ := findSlab_spec
    (h.sys.allocator c).saSlabNobjs (hi.list c hc) (hi.length_lt c)
  · refine ⟨0, hfind, .inl ⟨rfl, fun b hb => ?_⟩⟩
    have hword := hall _ (mem_map_of_mem hb)
    have hinuse := (hi.slab c b hb).inuse
    exact eq_nil_of_length_eq_zero (by omega)
  · obtain ⟨b, hb, rfl⟩ := mem_map.mp hx
    have hat := hi.slab c b hb
    have hlen := hat.inuse
    have hnobjs := (hi.fits c hc).nobjs_lt
    have hpos : slabOf (h.sys.allocator c) b ≠ 0 := Seg.ne_zero (hi.list c hc) hx
    refine ⟨_, hfind, .inr ⟨?_, b, hb, rfl, ?_⟩⟩
    · rw [usable, asInt_of_lt (by omega), Bool.and_eq_true, decide_eq_true_eq, bne_iff_ne]
      exact ⟨hpos, by omega⟩
    · cases hfree : g.free b with
      | nil =>
        rw [hfree, length_nil] at hlen
        exact absurd (by omega) hinuse
      | cons k free => exact ⟨k, free, rfl⟩

theorem SlabInv.saSlabs_lt (hc : c ∈ h.sys.slabAllocators) :
    (h.sys.allocator c).saSlabs < 2 ^ 32 := by
  obtain ⟨hzero, -⟩ | ⟨-, rest, heq, -⟩ := (hi.list c hc).inv
  · rw [hzero]
    decide
  · obtain ⟨b, hb, hslab⟩ := mem_map.mp (heq ▸ mem_cons_self ..)
    have hend := slabOf_le (b := b) (hi.fits_of hb)
    have hvalid := (hi.valid c b hb).2
    omega

/-- **Allocation** hands out an object that was free, after growing the cache if there was none. -/
theorem SlabInv.alloc {page : Option Nat} (hl : slabLegal h (.alloc c page)) :
    ∃ t g', slabStep h (.alloc c page) = .ok t ∧ SlabInv t g' := by
  obtain ⟨hc, hpage⟩ := hl
  unfold slabStep slabObjAlloc
  obtain ⟨x, hfind, ⟨hfull, hnone⟩ | ⟨huse, b, hb, rfl, k, free, hfree⟩⟩ := hi.findSlab hc
  · simp only [hfind, ok_bind, hfull, Bool.false_eq_true, if_false]
    cases page with
    | none =>
      obtain ⟨s, n, released, g', hrun, -, -, -, hi'⟩ := hi.reclaim 0
      rw [hrun]
      exact ⟨_, g', rfl, hi'⟩
    | some addr =>
      obtain ⟨haddr, hbound, hout⟩ := hpage addr rfl
      obtain ⟨m, hgrow, hsame, hnext, hat⟩ :=
        slabAllocatorGrow_spec (hi.fits c hc) haddr hbound (hi.saSlabs_lt hc)
      have hi' := hi.grow hc haddr hbound hout hsame hnext hat
      have hnobjs := (sameLayout_update h.sys.allocator c (slabOf (h.sys.allocator c) addr) c).nobjs
      -- the loop finds a free object now: the new slab has one
      obtain ⟨x, hfind', ⟨-, hnone'⟩ | ⟨huse, b, hb, rfl, k, free, hfree⟩⟩ := hi'.findSlab hc
      · have hnew := hnone' addr (by dsimp only; rw [update_self]; exact .head _)
        have hpos := (hi.fits c hc).nobjs
        dsimp only at hnew
        rw [update_self, range_eq_nil] at hnew
        omega
      have hold := hfree ▸ hi'.slab c b hb
      obtain ⟨m', htake, hrel, hat'⟩ := takeObj_spec (hi'.fits c hc) hold (hi'.valid c b hb).2
      have hi'' := hi'.take hb hrel hfree hat'
      rw [hnobjs] at hfind' huse
      refine ⟨_, _, ?_, hi''⟩
      simp only [hgrow, hfind', ok_bind, huse, if_true, htake, pure_eq_ok, filter_notMem_nil]
      rfl
  · have hold := hfree ▸ hi.slab c b hb
    obtain ⟨m, htake, hrel, hat⟩ := takeObj_spec (hi.fits c hc) hold (hi.valid c b hb).2
    refine ⟨_, _, ?_, hi.take hb hrel hfree hat⟩
    simp only [hfind, ok_bind, huse, if_true, htake, pure_eq_ok, filter_notMem_nil]
    rfl

/-- **Freeing** puts a live object back; neither of its checks fires. -/
theorem SlabInv.free {obj : Nat} (hl : (c, obj) ∈ h.live) :
    ∃ t g', slabStep h (.free c obj) = .ok t ∧ SlabInv t g' := by
  obtain ⟨b, hb, k, hk, hlive, rfl⟩ := (hi.live c obj).mp hl
  obtain ⟨hne, hbound⟩ := hi.valid c b hb
  obtain ⟨m, hfree, hrel, hat⟩ :=
    slabObjFree_spec (hi.fits_of hb) (hi.slab c b hb) hk hlive hne hbound
  refine ⟨_, _, ?_, hi.give hb hrel hk hlive hat⟩
  rw [slabStep, hfree]
  rfl

/-- What is written outside of the slabs, or by the user of an object, keeps the layout. -/
theorem SlabInv.write {addr : Nat} {data : List UInt8} (hl : slabLegal h (.write addr data)) :
    SlabInv { h with sys := { h.sys with mem := h.sys.mem.write addr data } } g := by
  refine hi.frame fun c b hb x hle hlt hin => write_of_not_mem ?_
  by_contra hx
  obtain hout | ⟨⟨c', p⟩, ho, hp, hend⟩ := hl
  · have hapart := hout _ ((hi.held _).mpr ⟨c, b, hb, rfl⟩)
    rw [bytes_eq] at hapart
    have hroom := slabOf_le (b := b) (hi.fits_of hb)
    omega
  · obtain ⟨b', hb', k, hk, -, rfl⟩ := (hi.live c' p).mp ho
    dsimp only at hp hend
    have hin' := hi.obj_bounds hb' hk
    have hroom := slabOf_le (b := b) (hi.fits_of hb)
    obtain ⟨rfl, rfl⟩ := hi.owner hb hb' (x := x) (by omega) (by omega)
    exact hin k hk ⟨by omega, by omega⟩

theorem SlabInv.step {call : SlabCall} (hl : slabLegal h call) :
    ∃ t g', slabStep h call = .ok t ∧ SlabInv t g' := by
  cases call with
  | create size =>
    obtain ⟨a, hinit, -, hslabs, hfit⟩ := allocatorInit_spec size hl
    refine ⟨_, g, ?_, hi.create hfit hslabs⟩
    rw [slabStep, slabAllocatorCreate, hinit]
    rfl
  | alloc c page => exact hi.alloc hl
  | free c obj => exact hi.free hl
  | reclaim target =>
    obtain ⟨s, n, released, g', hrun, -, -, -, hi'⟩ := hi.reclaim target
    refine ⟨_, g', ?_, hi'⟩
    rw [slabStep, hrun]
    rfl
  | write addr data => exact ⟨_, g, rfl, hi.write hl⟩

end

end

theorem slabInv_init (m : Mem) : SlabInv (.init m) ⟨fun _ => [], fun _ => []⟩ where
  ids _ := ⟨nofun, nofun⟩
  unused _ _ := rfl
  fits := nofun
  list := nofun
  slab := nofun
  valid := nofun
  apart := nofun
  nodup _ := .nil
  held _ := ⟨nofun, nofun⟩
  live _ _ := ⟨nofun, nofun⟩
  liveNodup := .nil

theorem slabRun_inv {h : SlabHeap} (hrun : Lts.Run slabLegal slabStep (.init m) h) :
    ∃ g, SlabInv h g := by
  refine hrun.invariant (I := fun h => ∃ g, SlabInv h g) ⟨_, slabInv_init m⟩ ?_
  rintro h call t ⟨g, hi⟩ hl hstep
  obtain ⟨t', g', hstep', hi'⟩ := hi.step hl
  cases hstep'.symm.trans hstep
  exact ⟨g', hi'⟩

/-! ## 4. What holds of the heap

The ghost state is traded for the lists that the memory holds. -/

/-- A slab of cache `c`, given by its descriptor: it is in a block that is held, its objects with
their red zones and control words come before the descriptor, `s_inuse` counts its live objects, and
its free list holds the others, each once. -/
structure SlabOk (h : SlabHeap) (c slab : Nat) : Prop where
  block : (h.sys.mem.word (slab + 12), 1 <<< (h.sys.allocator c).saOrder) ∈ h.held
  desc : slab = slabOf (h.sys.allocator c) (h.sys.mem.word (slab + 12))
  room : slab + sizeofSlab ≤ h.sys.mem.word (slab + 12) + (h.sys.allocator c).bytes
  inuse : h.sys.mem.word (slab + 4) = ((List.range (h.sys.allocator c).saSlabNobjs).filter fun k =>
    (c, objAt (h.sys.allocator c) (h.sys.mem.word (slab + 12)) k + 4) ∈ h.live).length
  free : ∃ objs, Linked h.sys.mem (h.sys.allocator c).saObjsize (h.sys.mem.word (slab + 8)) objs ∧
    objs.Nodup ∧
    ∀ x, x ∈ objs ↔ ∃ k < (h.sys.allocator c).saSlabNobjs,
      x = objAt (h.sys.allocator c) (h.sys.mem.word (slab + 12)) k ∧ (c, x + 4) ∉ h.live

/-- `slabs` are the lists of the caches, and the live objects are objects of these slabs.  With
its red zones and control words a live object has `sa_objsize + 8` bytes, from 4 before its
address on. -/
structure HeapOk (h : SlabHeap) (slabs : Nat → List Nat) : Prop where
  lists : ∀ c ∈ h.sys.slabAllocators, Linked h.sys.mem 0 (h.sys.allocator c).saSlabs (slabs c) ∧
    (slabs c).Nodup ∧ ∀ slab ∈ slabs c, SlabOk h c slab
  blocks : ∀ x ∈ h.held, ∀ y ∈ h.held, x ≠ y →
    x.1 + x.2 * pageSize ≤ y.1 ∨ y.1 + y.2 * pageSize ≤ x.1
  inside : ∀ o ∈ h.live, o.1 ∈ h.sys.slabAllocators ∧ ∃ slab ∈ slabs o.1,
    (∃ k < (h.sys.allocator o.1).saSlabNobjs,
      o.2 = objAt (h.sys.allocator o.1) (h.sys.mem.word (slab + 12)) k + 4) ∧
    h.sys.mem.word (slab + 12) + 4 ≤ o.2 ∧ o.2 + (h.sys.allocator o.1).saObjsize + 4 ≤ slab
  disjoint : ∀ o ∈ h.live, ∀ o' ∈ h.live, o ≠ o' →
    o.2 + (h.sys.allocator o.1).saObjsize + 8 ≤ o'.2 ∨
      o'.2 + (h.sys.allocator o'.1).saObjsize + 8 ≤ o.2

section
variable {h : SlabHeap} {g : Slabs} {c b k : Nat}

/-- Objects that are not on the free list are counted by `s_inuse`. -/
theorem length_live {nobjs : Nat} {free : List Nat} (hnodup : free.Nodup)
    (hlt : ∀ k ∈ free, k < nobjs) :
    ((List.range nobjs).filter (· ∉ free)).length + free.length = nobjs := by
  have hperm : ((range nobjs).filter (· ∈ free)).Perm free := by
    refine (perm_ext_iff_of_nodup (nodup_range.filter _) hnodup).mpr fun k => ?_
    rw [mem_filter, mem_range, decide_eq_true_eq]
    exact ⟨fun hk => hk.2, fun hk => ⟨hlt k hk, hk⟩⟩
  have hsplit := length_eq_length_filter_add (l := range nobjs) (fun k => decide (k ∈ free))
  rw [hperm.length_eq, length_range] at hsplit
  have hneg : (range nobjs).filter (fun k => !decide (k ∈ free)) =
    (range nobjs).filter (· ∉ free) :=
    filter_congr fun k _ => (decide_not ..).symm
  rw [hneg] at hsplit
  omega

variable (hi : SlabInv h g)
include hi

theorem SlabInv.live_iff (hb : b ∈ g.bases c) (hk : k < (h.sys.allocator c).saSlabNobjs) :
    (c, objAt (h.sys.allocator c) b k + 4) ∈ h.live ↔ k ∉ g.free b := by
  rw [hi.live]
  constructor
  · rintro ⟨b', hb', k', hk', hfree, heq⟩
    obtain ⟨-, rfl, rfl⟩ := hi.obj_inj hb hb' hk hk' (Nat.add_right_cancel heq)
    exact hfree
  · exact fun hfree => ⟨b, hb, k, hk, hfree, rfl⟩

theorem SlabInv.slabOk (hb : b ∈ g.bases c) : SlabOk h c (slabOf (h.sys.allocator c) b) := by
  have hat := hi.slab c b hb
  have haddr := hat.addr
  refine ⟨?_, ?_, ?_, ?_, (g.free b).map (objAt (h.sys.allocator c) b), hat.list, ?_, fun x => ?_⟩
  · rw [haddr]
    exact (hi.held _).mpr ⟨c, b, hb, rfl⟩
  · rw [haddr]
  · rw [haddr]
    exact slabOf_le (hi.fits_of hb)
  · rw [haddr]
    have hlive : ((range (h.sys.allocator c).saSlabNobjs).filter fun k =>
        (c, objAt (h.sys.allocator c) b k + 4) ∈ h.live)
        = (range (h.sys.allocator c).saSlabNobjs).filter (· ∉ g.free b) :=
      filter_congr fun k hk => decide_eq_decide.mpr (hi.live_iff hb (mem_range.mp hk))
    have hcount := length_live hat.nodup hat.lt
    have hinuse := hat.inuse
    rw [hlive]
    omega
  · exact List.Nodup.map (fun _ _ heq => objAt_inj heq) hat.nodup
  · rw [haddr, mem_map]
    constructor
    · rintro ⟨k, hk, rfl⟩
      exact ⟨k, hat.lt k hk, rfl, fun hmem => (hi.live_iff hb (hat.lt k hk)).mp hmem hk⟩
    · rintro ⟨k, hk, rfl, hnot⟩
      exact ⟨k, by_contra fun hfree => hnot ((hi.live_iff hb hk).mpr hfree), rfl⟩

theorem SlabInv.heapOk : HeapOk h fun c => (g.bases c).map (slabOf (h.sys.allocator c)) where
  lists c hc := by
    have hinj : Function.Injective (slabOf (h.sys.allocator c)) :=
      fun x y heq => Nat.add_right_cancel heq
    refine ⟨hi.list c hc, List.Nodup.map hinj (hi.nodup c), fun slab hslab => ?_⟩
    obtain ⟨b, hb, rfl⟩ := mem_map.mp hslab
    exact hi.slabOk hb
  blocks x hx y hy hne := by
    obtain ⟨c, b, hb, rfl⟩ := (hi.held x).mp hx
    obtain ⟨c', b', hb', rfl⟩ := (hi.held y).mp hy
    rw [bytes_eq, bytes_eq]
    refine hi.apart c b hb c' b' hb' fun heq => hne ?_
    obtain ⟨rfl, rfl⟩ := Prod.mk.inj heq
    rfl
  inside := by
    rintro ⟨c, p⟩ ho
    obtain ⟨b, hb, k, hk, -, rfl⟩ := (hi.live c p).mp ho
    have haddr := (hi.slab c b hb).addr
    have hin := hi.obj_bounds hb hk
    refine ⟨hi.mem_ids hb, _, mem_map_of_mem hb, ?_⟩
    dsimp only
    rw [haddr]
    exact ⟨⟨k, hk, rfl⟩, by omega, by omega⟩
  disjoint := by
    rintro ⟨c, p⟩ ho ⟨c', p'⟩ ho' hne
    obtain ⟨b, hb, k, hk, -, rfl⟩ := (hi.live c p).mp ho
    obtain ⟨b', hb', k', hk', -, rfl⟩ := (hi.live c' p').mp ho'
    have hin := hi.obj_bounds hb hk
    have hin' := hi.obj_bounds hb' hk'
    dsimp only
    by_cases hblock : (c, b) = (c', b')
    · obtain ⟨rfl, rfl⟩ := Prod.mk.inj hblock
      obtain hkk | rfl | hkk := Nat.lt_trichotomy k k'
      · have hapart := objAt_lt (a := h.sys.allocator c) (b := b) hkk
        omega
      · exact absurd rfl hne
      · have hapart := objAt_lt (a := h.sys.allocator c) (b := b) hkk
        omega
    · have hapart := hi.apart c b hb c' b' hb' hblock
      omega

end

/-- **The slab allocator is sound.**  After any calls, with anything written to the live objects and
outside of the slabs: the heap is as it should be, every legal call returns, so that no red-zone or
invalid-free check fires, and reclaiming releases slabs without live objects only and returns the
number of their pages. -/
theorem slab_heap_sound (m : Mem) (h : SlabHeap) (hrun : Lts.Run slabLegal slabStep (.init m) h) :
    (∃ slabs, HeapOk h slabs) ∧ (∀ call, slabLegal h call → ∃ t, slabStep h call = .ok t) ∧
      ∀ target, ∃ s n released, slabAllocatorsReclaim h.sys target = .ok (s, n, released) ∧
        n = (released.map Prod.snd).sum ∧ released.Nodup ∧ ∀ x ∈ released, x ∈ h.held ∧
          NoLive h x := by
  obtain ⟨g, hi⟩ := slabRun_inv hrun
  refine ⟨⟨_, hi.heapOk⟩, fun call hl => ?_, fun target => ?_⟩
  · obtain ⟨t, -, hstep, -⟩ := hi.step hl
    exact ⟨t, hstep⟩
  · obtain ⟨s, n, released, -, hreclaim, hn, hnodup, hreleased, -⟩ := hi.reclaim target
    exact ⟨s, n, released, hreclaim, hn, hnodup, hreleased⟩

/-- Two objects of 2000 bytes from one page, the first of them freed again. -/
def slabCalls : List SlabCall :=
  [.create 2000, .alloc 0 (some 4096), .alloc 0 none, .write 6118 [1, 2, 3], .free 0 4100,
    .reclaim (-1)]

theorem slab_heap_sound_one_object : ∃ h, Lts.Run slabLegal slabStep (.init fun _ => 0) h ∧
    (∃ slabs, HeapOk h slabs) ∧ h.live = [(0, 6116)] := by
  obtain ⟨h, hrun, hlive⟩ : ∃ h, Lts.Run slabLegal slabStep (.init fun _ => 0) h ∧
    h.live = [(0, 6116)] :=
    Lts.exists_run slabCalls (by decide +kernel)
  exact ⟨h, hrun, (slab_heap_sound _ h hrun).1, hlive⟩

end Weenix.Slab
