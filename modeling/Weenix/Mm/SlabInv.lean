/-
# The layout of a slab

What the bytes of a slab say, with `free` as the numbers of its free objects in the order of the
free list (`SlabAt`).  The predicate reads the descriptor, the control words and the red zones, and
nothing of the objects (`SlabAt.congr`): these are the clients' to write.

* **Sizes.**  `_calc_slab_size` finds a block into which `sa_slab_nobjs` objects and the descriptor
  fit, if one object does (`allocatorInit_spec`).
* **Taking and returning an object** changes one control structure and two words of the descriptor
  (`SlabAt.relink`), and moves one number off the free list or onto it (`SlabAt.take`,
  `SlabAt.give`).
* **Growing** makes a slab whose objects are all free, in order (`slabAllocatorGrow_spec`).
-/
import Mathlib.Data.List.Perm.Subperm
import Weenix.Lib.Linked
import Weenix.Mm.Slab

namespace Weenix.Slab

open Bytes Bytes.Mem Weenix.Page List

/-! ## 1. Sizes -/

/-- The objects, at least one of them, and the descriptor fit in a block. -/
structure Fits (a : SlabAllocator) : Prop where
  objsize : 8 ≤ a.saObjsize
  nobjs : 1 ≤ a.saSlabNobjs
  order : a.saOrder < pageNsizes
  room : a.saSlabNobjs * (a.saObjsize + 8) + 16 ≤ a.bytes

theorem pageSize_shiftLeft (order : Nat) : pageSize <<< order = 4096 * 2 ^ order :=
  Nat.shiftLeft_eq ..

theorem pageSize_shiftLeft_le {order order' : Nat} (h : order ≤ order') :
    pageSize <<< order ≤ pageSize <<< order' := by
  rw [pageSize_shiftLeft, pageSize_shiftLeft]
  exact Nat.mul_le_mul_left _ (Nat.pow_le_pow_right (by decide) h)

theorem pageSize_shiftLeft_bound {order : Nat} (h : order < pageNsizes) :
    pageSize <<< order ≤ 2 ^ 19 :=
  pageSize_shiftLeft_le (Nat.le_of_lt_succ h)

theorem asInt_of_lt {w : Nat} (h : w < 2 ^ 31) : asInt w = w := by
  have hmod : w % 2 ^ 32 = w := Nat.mod_eq_of_lt (by omega)
  rw [asInt, hmod, if_pos h]

/-- The search stops at the smallest order whose block holds an object. -/
theorem minOrder_spec (objsize : Nat) (h : objsize + 24 ≤ 2 ^ 19) :
    ∃ order, minOrder objsize = some order ∧ order < pageNsizes ∧
      objsize + 24 ≤ pageSize <<< order ∧
      ∀ o < order, pageSize <<< o < objsize + 24 := by
  have hsize : slabSize objsize 1 = objsize + 24 := by
    rw [slabSize, Nat.one_mul]
    exact Nat.mod_eq_of_lt (by simp only [sizeofBufctl, sizeofSlab]; omega)
  have hiff : ∀ order < pageNsizes, asInt (slabSize objsize 1) ≤ asInt (pageSize <<< order) ↔
      objsize + 24 ≤ pageSize <<< order := by
    intro order horder
    have hbound := pageSize_shiftLeft_bound horder
    rw [hsize, asInt_of_lt (by omega), asInt_of_lt (by omega), Int.ofNat_le]
  have hsome : (minOrder objsize).isSome := by
    refine find?_isSome.mpr ⟨7, by decide, ?_⟩
    rw [decide_eq_true_eq, hiff 7 (by decide)]
    exact h
  obtain ⟨order, horder⟩ := Option.isSome_iff_exists.mp hsome
  obtain ⟨htest, hmem, hbefore⟩ := find?_range_eq_some.mp horder
  have hlt : order < pageNsizes := mem_range.mp hmem
  refine ⟨order, horder, hlt, (hiff order hlt).mp (of_decide_eq_true htest), fun o ho => ?_⟩
  have hnot := hbefore o ho
  rw [Bool.not_eq_true', decide_eq_false_iff_not, hiff o (ho.trans hlt)] at hnot
  exact Nat.lt_of_not_le hnot

/-- `r` has the least weight, and is the first that has it. -/
def Least (w : Nat → Int) (S : Nat → Prop) (r : Nat) : Prop :=
  S r ∧ ∀ x, S x → w r < w x ∨ w r = w x ∧ r ≤ x

theorem foldl_least (w : Nat → Int) {l : List Nat} {a : Nat} (h : (a :: l).Pairwise (· < ·)) :
    ∃ r, l.foldl (fun best x => if w x < best.2 then (x, w x) else best) (a, w a) = (r, w r) ∧
      Least w (· ∈ a :: l) r := by
  induction l generalizing a with
  | nil => exact ⟨a, rfl, .head _, fun x hx =>
    .inr ⟨by rw [mem_singleton.mp hx], (mem_singleton.mp hx).ge⟩⟩
  | cons b l ih =>
    obtain ⟨ha, hl⟩ := pairwise_cons.mp h
    have hab := ha b (.head _)
    rw [foldl_cons]
    by_cases hw : w b < w a
    · obtain ⟨r, hfold, hr, hleast⟩ := ih hl
      refine ⟨r, by rw [if_pos hw, hfold], .tail _ hr, fun x hx => ?_⟩
      obtain rfl | hx := mem_cons.mp hx
      · have hb := hleast b (.head _)
        omega
      · exact hleast x hx
    · have hsub : (a :: l).Sublist (a :: b :: l) := (sublist_cons_self b l).cons_cons a
      obtain ⟨r, hfold, hr, hleast⟩ := ih (h.sublist hsub)
      refine ⟨r, by rw [if_neg hw, hfold], hsub.subset hr, fun x hx => ?_⟩
      have h0 := hleast a (.head _)
      obtain rfl | hx := mem_cons.mp hx
      · exact h0
      obtain rfl | hx := mem_cons.mp hx
      · omega
      · exact hleast x (.tail _ hx)

/-- The orders that `_calc_slab_size` compares. -/
def Considered (minorder order : Nat) : Prop :=
  order = minorder ∨ minorder < order ∧ order < slabMaxOrder

theorem bestOrder_least (objsize minorder : Nat) :
    Least (slabWaste objsize) (Considered minorder) (bestOrder objsize minorder).1 := by
  have hmem : (· ∈ minorder :: range' (minorder + 1) (slabMaxOrder - (minorder + 1))) =
      Considered minorder := by
    funext o
    rw [mem_cons, mem_range'_1, Considered]
    exact propext (by omega)
  obtain ⟨r, hfold, hleast⟩ := foldl_least (slabWaste objsize) (a := minorder)
    (l := range' (minorder + 1) (slabMaxOrder - (minorder + 1)))
      (pairwise_lt_range' (s := minorder) (n := _ + 1))
  rw [hmem] at hleast
  rwa [bestOrder, hfold]

/-- What is left of a block with as many objects as fit. -/
def unusedSpace (objsize order : Nat) : Nat :=
  pageSize <<< order - (slabNobjs objsize order * (objsize + 8) + 16)

section
variable {objsize order : Nat}

/-- As many objects as fit, and at least one if one does. -/
theorem slabNobjs_fits (hone : objsize + 24 ≤ pageSize <<< order) (h : objsize + 24 ≤ 2 ^ 19) :
    1 ≤ slabNobjs objsize order ∧
      slabNobjs objsize order * (objsize + 8) + 16 ≤ pageSize <<< order ∧
      ∀ n, n * (objsize + 8) + 16 ≤ pageSize <<< order → n ≤ slabNobjs objsize order := by
  have hstride : (objsize + sizeofBufctl) % 2 ^ 32 = objsize + 8 :=
    Nat.mod_eq_of_lt (show objsize + 8 < 2 ^ 32 by omega)
  have hmul := Nat.div_mul_le_self (pageSize <<< order - 16) (objsize + 8)
  rw [slabNobjs, hstride, sizeofSlab]
  refine ⟨(Nat.one_le_div_iff (by omega)).mpr (by omega), by omega, fun n hn => ?_⟩
  exact (Nat.le_div_iff_mul_le (by omega)).mpr (by omega)

theorem slabWaste_eq (horder : order < pageNsizes) (hone : objsize + 24 ≤ pageSize <<< order) :
    slabWaste objsize order = unusedSpace objsize order := by
  have hbound := pageSize_shiftLeft_bound horder
  obtain ⟨-, hfits, -⟩ := slabNobjs_fits hone (hone.trans hbound)
  have hsize : slabSize objsize (slabNobjs objsize order) =
    slabNobjs objsize order * (objsize + 8) + 16 :=
    Nat.mod_eq_of_lt (show slabNobjs objsize order * (objsize + 8) + 16 < 2 ^ 32 by omega)
  rw [slabWaste, hsize, sub32_eq hfits (by omega), asInt_of_lt (by omega), unusedSpace]

theorem calcSlabSize_spec (h : objsize + 24 ≤ 2 ^ 19) : ∃ minorder order,
    calcSlabSize objsize = .ok (order, slabNobjs objsize order) ∧
    Least (slabWaste objsize) (Considered minorder) order ∧
      (∀ o < minorder, pageSize <<< o < objsize + 24) ∧
    ∀ o, Considered minorder o → o < pageNsizes ∧ objsize + 24 ≤ pageSize <<< o := by
  obtain ⟨minorder, hmin, hlt, hone, hfirst⟩ := minOrder_spec objsize h
  refine ⟨minorder, _, by rw [calcSlabSize, hmin], bestOrder_least objsize minorder, hfirst,
    fun o ho => ?_⟩
  obtain rfl | ⟨hgt, hmax⟩ := ho
  · exact ⟨hlt, hone⟩
  · exact ⟨hmax.trans (by decide), hone.trans (pageSize_shiftLeft_le hgt.le)⟩

end

/-- **The choice of the slab size**: as many objects as fit in the block, and of the orders
considered the first with the least unused space. -/
theorem slab_size_choice (objsize : Nat) (h : objsize + 24 ≤ pageSize <<< (pageNsizes - 1)) :
    ∃ minorder order nobjs, calcSlabSize objsize = .ok (order, nobjs) ∧ 1 ≤ nobjs ∧
      nobjs * (objsize + 8) + 16 ≤ pageSize <<< order ∧
      (∀ n, n * (objsize + 8) + 16 ≤ pageSize <<< order → n ≤ nobjs) ∧
      objsize + 24 ≤ pageSize <<< minorder ∧ (∀ o < minorder, pageSize <<< o < objsize + 24) ∧
      Least (fun o => unusedSpace objsize o) (Considered minorder) order := by
  obtain ⟨minorder, order, heq, ⟨horder, hwaste⟩, hfirst, hfit⟩ := calcSlabSize_spec h
  obtain ⟨hone, hroom, hmost⟩ := slabNobjs_fits (hfit order horder).2 h
  refine ⟨minorder, order, _, heq, hone, hroom, hmost, (hfit minorder (.inl rfl)).2, hfirst, horder,
    fun o ho => ?_⟩
  have heqs : ∀ x, Considered minorder x → slabWaste objsize x = unusedSpace objsize x :=
    fun x hx =>
    slabWaste_eq (hfit x hx).1 (hfit x hx).2
  have hleast := hwaste o ho
  rwa [heqs order horder, heqs o ho] at hleast

/-- Objects of 1000 bytes. -/
theorem slab_size_choice_1000 :
    ∃ order nobjs, calcSlabSize 1000 = .ok (order, nobjs) ∧ 1 ≤ nobjs := by
  obtain ⟨-, order, nobjs, heq, hone, -⟩ := slab_size_choice 1000 (by decide)
  exact ⟨order, nobjs, heq, hone⟩

theorem allocatorInit_spec (size : Nat) (h : size + 32 ≤ 2 ^ 19) :
    ∃ a, allocatorInit size = .ok a ∧ a.saObjsize = size + 8 ∧ a.saSlabs = 0 ∧ Fits a := by
  have hobjsize : (size + 2 * 4) % 2 ^ 32 = size + 8 := Nat.mod_eq_of_lt (by omega)
  obtain ⟨_, order, heq, ⟨horder, -⟩, -, hfit⟩ := @calcSlabSize_spec (size + 8) (by omega)
  obtain ⟨hlt, hfit⟩ := hfit order horder
  obtain ⟨hone, hroom, -⟩ := slabNobjs_fits hfit (by omega)
  refine ⟨⟨size + 8, 0, order, slabNobjs (size + 8) order⟩, ?_, rfl, rfl, Nat.le_add_left ..,
    hone, hlt, hroom⟩
  unfold allocatorInit
  dsimp only
  rw [hobjsize, heq]
  rfl

/-! ## 2. The bytes of a slab -/

/-- Object `k` of the slab whose block starts at `b`. -/
def objAt (a : SlabAllocator) (b k : Nat) : Nat := b + k * (a.saObjsize + 8)

/-- The descriptor comes after the last object. -/
def slabOf (a : SlabAllocator) (b : Nat) : Nat := objAt a b a.saSlabNobjs

section
variable {a : SlabAllocator} {m m' : Mem} {b j k : Nat} {free : List Nat}

@[simp] theorem objAt_zero : objAt a b 0 = b := by rw [objAt, Nat.zero_mul, Nat.add_zero]

theorem nextObj_objAt : nextObj a (objAt a b k) = objAt a b (k + 1) := by
  simp only [nextObj, objAt, sizeofBufctl, Nat.succ_mul]
  omega

/-- Objects and their control words follow one another. -/
theorem objAt_lt (h : j < k) : objAt a b j + a.saObjsize + 8 ≤ objAt a b k := by
  have hmul := Nat.mul_le_mul_right (a.saObjsize + 8) (Nat.succ_le_of_lt h)
  rw [Nat.succ_mul] at hmul
  simp only [objAt]
  omega

theorem le_objAt : b ≤ objAt a b k := Nat.le_add_right ..

theorem objAt_inj (h : objAt a b j = objAt a b k) : j = k := by
  obtain hlt | heq | hlt := Nat.lt_trichotomy j k
  · have hle := objAt_lt (a := a) (b := b) hlt
    omega
  · exact heq
  · have hle := objAt_lt (a := a) (b := b) hlt
    omega

theorem slabOf_le (hfit : Fits a) : slabOf a b + 16 ≤ b + a.bytes := by
  have hroom := hfit.room
  simp only [slabOf, objAt]
  omega

theorem slab_bounds (hfit : Fits a) : b ≤ slabOf a b ∧ slabOf a b + 16 ≤ b + a.bytes :=
  ⟨le_objAt, slabOf_le hfit⟩

/-- What the memory says of the slab at `b` whose free objects are `free`, the link to the next slab
apart. -/
structure SlabAt (m : Mem) (a : SlabAllocator) (b : Nat) (free : List Nat) : Prop where
  inuse : m.word (slabOf a b + 4) + free.length = a.saSlabNobjs
  list : Linked m a.saObjsize (m.word (slabOf a b + 8)) (free.map (objAt a b))
  addr : m.word (slabOf a b + 12) = b
  nodup : free.Nodup
  lt : ∀ k ∈ free, k < a.saSlabNobjs
  front : ∀ k < a.saSlabNobjs, m.word (objAt a b k) = slabRedzone
  rear : ∀ k < a.saSlabNobjs, m.word (rearRz a (objAt a b k)) = slabRedzone
  flag : ∀ k < a.saSlabNobjs, m (sbFree a (objAt a b k)) = if k ∈ free then 1 else 0
  back : ∀ k < a.saSlabNobjs, k ∉ free → m.word (objBufctl a (objAt a b k)) = slabOf a b

/-- The part of object `k` that its user has. -/
def Inside (a : SlabAllocator) (b k x : Nat) : Prop :=
  objAt a b k + 4 ≤ x ∧ x + 4 < objAt a b k + a.saObjsize

/-- The red zones and the control words of an object are not inside of any. -/
theorem not_inside {x : Nat} (hx : objAt a b k ≤ x ∧ x < objAt a b k + a.saObjsize + 8)
    (hout : ¬ Inside a b k x) (j : Nat) : ¬ Inside a b j x := by
  rintro ⟨hle, hlt⟩
  obtain hjk | rfl | hkj := Nat.lt_trichotomy j k
  · have hapart := objAt_lt (a := a) (b := b) hjk
    omega
  · exact hout ⟨hle, hlt⟩
  · have hapart := objAt_lt (a := a) (b := b) hkj
    omega

/-- Only the descriptor, the control words and the red zones matter. -/
theorem SlabAt.congr (hfit : Fits a) (h : SlabAt m a b free)
    (hsame : ∀ x, b ≤ x → x < slabOf a b + 16 → (x < slabOf a b ∨ slabOf a b + 4 ≤ x) →
      (∀ k < a.saSlabNobjs, ¬ Inside a b k x) → m' x = m x) : SlabAt m' a b free := by
  have hobjsize := hfit.objsize
  -- the descriptor
  have hdesc : ∀ x, slabOf a b + 4 ≤ x → x < slabOf a b + 16 → m' x = m x := by
    intro x hle hlt
    have hb : b ≤ slabOf a b := le_objAt
    refine hsame x (by omega) hlt (.inr hle) fun k hk hin => ?_
    have hapart := objAt_lt (a := a) (b := b) hk
    obtain ⟨-, hin⟩ := hin
    simp only [slabOf] at hle
    omega
  -- the control words and red zones of an object
  have hctl : ∀ k < a.saSlabNobjs, ∀ x, objAt a b k ≤ x → x < objAt a b k + a.saObjsize + 8 →
      ¬ Inside a b k x → m' x = m x := by
    intro k hk x hle hlt hout
    have hb : b ≤ objAt a b k := le_objAt
    have hend : objAt a b k + a.saObjsize + 8 ≤ slabOf a b := objAt_lt hk
    exact hsame x (by omega) (by omega) (.inl (by omega)) fun j _ => not_inside ⟨hle, hlt⟩ hout j
  have hlink : ∀ k < a.saSlabNobjs,
      m'.word (objBufctl a (objAt a b k)) = m.word (objBufctl a (objAt a b k)) := by
    intro k hk
    refine word_congr fun x hle hlt => hctl k hk x ?_ ?_ fun hin => ?_
    all_goals simp only [objBufctl, Inside] at *; omega
  refine ⟨?_, ?_, ?_, h.nodup, h.lt, ?_, ?_, ?_, ?_⟩
  · rw [word_congr fun x hle hlt => hdesc x (by omega) (by omega), h.inuse]
  · rw [word_congr fun x hle hlt => hdesc x (by omega) (by omega)]
    refine Seg.congr h.list fun x hx => ?_
    obtain ⟨k, hk, rfl⟩ := mem_map.mp hx
    exact hlink k (h.lt k hk)
  · rw [word_congr fun x hle hlt => hdesc x (by omega) (by omega), h.addr]
  · intro k hk
    rw [word_congr fun x hle hlt => hctl k hk x hle (by omega) fun hin => by have := hin.1; omega,
      h.front k hk]
  · intro k hk
    rw [word_congr fun x hle hlt => ?_, h.rear k hk]
    refine hctl k hk x ?_ ?_ fun hin => ?_
    all_goals simp only [rearRz, Inside] at *; omega
  · intro k hk
    rw [hctl k hk _ ?_ ?_ fun hin => ?_, h.flag k hk]
    all_goals simp only [sbFree, objBufctl, Inside] at *; omega
  · intro k hk hmem
    rw [hlink k hk, h.back k hk hmem]

/-! ## 3. Taking and returning an object -/

/-- Written are the control structure of object `k`, and `s_inuse` and `s_free` of the
descriptor. -/
def Relinked (m m' : Mem) (a : SlabAllocator) (b k : Nat) : Prop :=
  ∀ x, (x < objBufctl a (objAt a b k) ∨ objBufctl a (objAt a b k) + 5 ≤ x) →
    (x < slabOf a b + 4 ∨ slabOf a b + 12 ≤ x) → m' x = m x

theorem Relinked.word_apart {a' : Nat} (h : Relinked m m' a b k)
    (hctl : a' + 4 ≤ objBufctl a (objAt a b k) ∨ objBufctl a (objAt a b k) + 5 ≤ a')
    (hdesc : a' + 4 ≤ slabOf a b + 4 ∨ slabOf a b + 12 ≤ a') : m'.word a' = m.word a' :=
  word_congr fun x hle hlt => h x (by omega) (by omega)

theorem Relinked.link (h : Relinked m m' a b k) (hne : j ≠ k) (hj : j < a.saSlabNobjs) :
    m'.word (objBufctl a (objAt a b j)) = m.word (objBufctl a (objAt a b j)) := by
  have hend : objAt a b j + a.saObjsize + 8 ≤ slabOf a b := objAt_lt hj
  refine h.word_apart ?_ (.inl (by simp only [objBufctl]; omega))
  simp only [objBufctl]
  obtain hlt | hlt := Nat.lt_or_gt_of_ne hne
  · have hapart := objAt_lt (a := a) (b := b) hlt
    omega
  · have hapart := objAt_lt (a := a) (b := b) hlt
    omega

/-- A slab after its object `k` has changed sides. -/
theorem SlabAt.relink {free' : List Nat} (hfit : Fits a) (h : SlabAt m a b free)
    (hk : k < a.saSlabNobjs)
    (hrel : Relinked m m' a b k) (hothers : ∀ j, j ≠ k → (j ∈ free' ↔ j ∈ free))
    (hinuse : m'.word (slabOf a b + 4) + free'.length = a.saSlabNobjs)
    (hlist : Linked m' a.saObjsize (m'.word (slabOf a b + 8)) (free'.map (objAt a b)))
    (hnodup : free'.Nodup) (hflag : m' (sbFree a (objAt a b k)) = if k ∈ free' then 1 else 0)
    (hback : k ∉ free' → m'.word (objBufctl a (objAt a b k)) = slabOf a b) :
    SlabAt m' a b free' := by
  have hobjsize := hfit.objsize
  have hapart : ∀ j < a.saSlabNobjs, j ≠ k → objAt a b j + a.saObjsize + 8 ≤ objAt a b k ∨
      objAt a b k + a.saObjsize + 8 ≤ objAt a b j := fun j _ hne =>
    (Nat.lt_or_gt_of_ne hne).imp objAt_lt objAt_lt
  have hend : ∀ j < a.saSlabNobjs, objAt a b j + a.saObjsize + 8 ≤ slabOf a b :=
    fun j hj => objAt_lt hj
  -- a word of an object, up to its control structure
  have hword : ∀ j < a.saSlabNobjs, ∀ x, objAt a b j ≤ x → x + 4 ≤ objAt a b j + a.saObjsize →
      m'.word x = m.word x := by
    intro j hj x hle hlt
    have hend := hend j hj
    refine hrel.word_apart ?_ (.inl (by omega))
    simp only [objBufctl]
    obtain rfl | hne := eq_or_ne j k
    · exact .inl hlt
    · have hapart := hapart j hj hne
      omega
  refine ⟨hinuse, hlist, ?_, hnodup, ?_, ?_, ?_, ?_, ?_⟩
  · have hend := hend k hk
    rw [hrel.word_apart (.inr (by simp only [objBufctl]; omega)) (.inr le_rfl), h.addr]
  · intro j hj
    obtain rfl | hne := eq_or_ne j k
    · exact hk
    · exact h.lt j ((hothers j hne).mp hj)
  · intro j hj
    rw [hword j hj _ le_rfl (by omega), h.front j hj]
  · intro j hj
    rw [hword j hj _ (by simp only [rearRz]; omega) (by simp only [rearRz]; omega), h.rear j hj]
  · intro j hj
    obtain rfl | hne := eq_or_ne j k
    · exact hflag
    · have hapart := hapart j hj hne
      have hend := hend j hj
      rw [hrel _ ?_ ?_, h.flag j hj]
      · simp only [hothers j hne]
      all_goals simp only [sbFree, objBufctl]; omega
  · intro j hj hmem
    obtain rfl | hne := eq_or_ne j k
    · exact hback hmem
    · rw [hrel.link hne hj, h.back j hj fun hfree => hmem ((hothers j hne).mpr hfree)]

theorem SlabAt.take (hfit : Fits a) (h : SlabAt m a b (k :: free)) (hrel : Relinked m m' a b k)
    (hinuse : m'.word (slabOf a b + 4) = m.word (slabOf a b + 4) + 1)
    (hhead : m'.word (slabOf a b + 8) = m.word (objBufctl a (objAt a b k)))
    (hflag : m' (sbFree a (objAt a b k)) = 0)
    (hback : m'.word (objBufctl a (objAt a b k)) = slabOf a b) : SlabAt m' a b free := by
  obtain ⟨hnew, hnodup⟩ := nodup_cons.mp h.nodup
  have hk := h.lt k (.head _)
  obtain ⟨-, -, hlist⟩ := Linked.cons_inv h.list
  refine h.relink hfit hk hrel ?_ ?_ ?_ hnodup ?_ fun _ => hback
  · intro j hne
    simp [hne]
  · have hold := h.inuse
    rw [length_cons] at hold
    omega
  · rw [hhead]
    refine Seg.congr hlist fun x hx => ?_
    obtain ⟨j, hj, rfl⟩ := mem_map.mp hx
    have hne : j ≠ k := fun heq => hnew (heq ▸ hj)
    exact hrel.link hne (h.lt j (.tail _ hj))
  · rw [hflag, if_neg hnew]

theorem SlabAt.give (hfit : Fits a) (h : SlabAt m a b free) (hk : k < a.saSlabNobjs)
    (hlive : k ∉ free)
    (hrel : Relinked m m' a b k) (hb : b ≠ 0)
    (hinuse : m'.word (slabOf a b + 4) + 1 = m.word (slabOf a b + 4))
    (hhead : m'.word (slabOf a b + 8) = objAt a b k) (hflag : m' (sbFree a (objAt a b k)) = 1)
    (hnext : m'.word (objBufctl a (objAt a b k)) = m.word (slabOf a b + 8)) :
    SlabAt m' a b (k :: free) := by
  have hpos : objAt a b k ≠ 0 := by
    have hle : b ≤ objAt a b k := le_objAt
    omega
  refine h.relink hfit hk hrel ?_ ?_ ?_ (nodup_cons.mpr ⟨hlive, h.nodup⟩) ?_ ?_
  · intro j hne
    simp [hne]
  · have hold := h.inuse
    rw [length_cons]
    omega
  · rw [hhead]
    refine .cons hpos ?_
    rw [show m'.word (objAt a b k + a.saObjsize) = _ from hnext]
    refine Seg.congr h.list fun x hx => ?_
    obtain ⟨j, hj, rfl⟩ := mem_map.mp hx
    exact hrel.link (fun heq => hlive (heq ▸ hj)) (h.lt j hj)
  · rw [hflag, if_pos (.head _)]
  · exact fun hmem => absurd (.head _) hmem

theorem SlabAt.length_free (h : SlabAt m a b free) (hk : k < a.saSlabNobjs) (hlive : k ∉ free) :
    free.length < a.saSlabNobjs := by
  have hnodup : (k :: free).Nodup := nodup_cons.mpr ⟨hlive, h.nodup⟩
  have hsub : k :: free ⊆ range a.saSlabNobjs := by
    intro j hj
    obtain rfl | hj := mem_cons.mp hj
    · exact mem_range.mpr hk
    · exact mem_range.mpr (h.lt j hj)
  have hlen := (hnodup.subperm hsub).length_le
  rwa [length_range] at hlen

theorem Fits.nobjs_lt (hfit : Fits a) : a.saSlabNobjs < 2 ^ 31 := by
  have hroom := hfit.room
  have hbound := pageSize_shiftLeft_bound hfit.order
  have hle : a.saSlabNobjs ≤ a.saSlabNobjs * (a.saObjsize + 8) :=
    Nat.le_mul_of_pos_right _ (by omega)
  simp only [SlabAllocator.bytes] at hroom
  omega

theorem verifyRedzones_ok (hfront : m.word (objAt a b k) = slabRedzone)
    (hrear : m.word (rearRz a (objAt a b k)) = slabRedzone) :
    verifyRedzones m a (objAt a b k) = .ok () := by
  rw [verifyRedzones, if_neg (not_not_intro hfront), if_neg (not_not_intro hrear)]

end

section
variable {s : SlabSys} {c b k : Nat} {free : List Nat}

theorem takeObj_spec (hfit : Fits (s.allocator c)) (h : SlabAt s.mem (s.allocator c) b (k :: free))
    (hbound : b + (s.allocator c).bytes ≤ 2 ^ 32) :
    ∃ m, takeObj s c (slabOf (s.allocator c) b) =
      .ok ({ s with mem := m }, objAt (s.allocator c) b k + 4) ∧
      Relinked s.mem m (s.allocator c) b k ∧ SlabAt m (s.allocator c) b free := by
  have hk := h.lt k (.head _)
  have hend : objAt (s.allocator c) b k + (s.allocator c).saObjsize + 8 ≤
    slabOf (s.allocator c) b :=
    objAt_lt hk
  have hslab := slabOf_le (b := b) hfit
  have hobj : s.mem.word (slabOf (s.allocator c) b + 8) = objAt (s.allocator c) b k :=
    (Linked.cons_inv h.list).1
  have hinuse := h.inuse
  have hnobjs := hfit.nobjs_lt
  rw [length_cons] at hinuse
  unfold takeObj
  dsimp only
  rw [hobj]
  generalize s.allocator c = a at *
  generalize hslabOf : slabOf a b = slab at *
  generalize hobjAt : objAt a b k = obj at *
  have hctl : objBufctl a obj = obj + a.saObjsize := rfl
  have hbyte : sbFree a obj = obj + a.saObjsize + 4 := rfl
  generalize hm :
    (((s.mem.setWord (slab + 8) (s.mem.word (objBufctl a obj))).setWord (objBufctl a obj)
    slab).write (sbFree a obj) [0]) = m₃
  have hcount : m₃.word (slab + 4) = s.mem.word (slab + 4) := by
    rw [← hm, word_write_of_disjoint (by rw [length_singleton]; omega),
      word_setWord_of_disjoint, word_setWord_of_disjoint]
    all_goals omega
  rw [hcount, Nat.mod_eq_of_lt (by omega : s.mem.word (slab + 4) + 1 < 2 ^ 32)]
  generalize ht : m₃.setWord (slab + 4) (s.mem.word (slab + 4) + 1) = m
  have hrel : Relinked s.mem m a b k := by
    intro x hx hdesc
    rw [hslabOf] at hdesc
    rw [hobjAt] at hx
    rw [← ht, ← hm, setWord_of_not_mem, write_of_not_mem (by rw [length_singleton]; omega),
      setWord_of_not_mem, setWord_of_not_mem]
    all_goals omega
  have hat : SlabAt m a b free := by
    refine h.take hfit hrel ?_ ?_ ?_ ?_
    · rw [hslabOf, ← ht, word_setWord (by omega)]
    · rw [hslabOf, hobjAt, ← ht, word_setWord_of_disjoint (by omega), ← hm,
        word_write_of_disjoint (by rw [length_singleton]; omega), word_setWord_of_disjoint,
          word_setWord (word_lt ..)]
      all_goals omega
    · rw [hobjAt, ← ht, setWord_of_not_mem (.inl (by omega)), ← hm]
      exact write_of_mem le_rfl (by rw [Nat.sub_self]; rfl)
    · rw [hslabOf, hobjAt, ← ht, word_setWord_of_disjoint, ← hm,
        word_write_of_disjoint (by rw [length_singleton]; omega), word_setWord (by omega)]
      all_goals omega
  have hzones := verifyRedzones_ok (hat.front k hk) (hat.rear k hk)
  rw [hobjAt] at hzones
  rw [hzones]
  exact ⟨m, rfl, hrel, hat⟩

theorem slabObjFree_spec (hfit : Fits (s.allocator c)) (h : SlabAt s.mem (s.allocator c) b free)
    (hk : k < (s.allocator c).saSlabNobjs) (hlive : k ∉ free) (hb : b ≠ 0)
    (hbound : b + (s.allocator c).bytes ≤ 2 ^ 32) :
    ∃ m, slabObjFree s c (objAt (s.allocator c) b k + 4) = .ok { s with mem := m } ∧
      Relinked s.mem m (s.allocator c) b k ∧ SlabAt m (s.allocator c) b (k :: free) := by
  have hend : objAt (s.allocator c) b k + (s.allocator c).saObjsize + 8 ≤
    slabOf (s.allocator c) b :=
    objAt_lt hk
  have hslab := slabOf_le (b := b) hfit
  have hinuse := h.inuse
  have hlen := h.length_free hk hlive
  have hzones := verifyRedzones_ok (h.front k hk) (h.rear k hk)
  have hflag : s.mem (sbFree (s.allocator c) (objAt (s.allocator c) b k)) = 0 := by
    rw [h.flag k hk, if_neg hlive]
  have hback := h.back k hk hlive
  unfold slabObjFree
  dsimp only
  rw [Nat.add_sub_cancel, hzones, ok_bind, hflag, kassert_of (by decide), ok_bind]
  generalize s.allocator c = a at *
  generalize hslabOf : slabOf a b = slab at *
  generalize hobjAt : objAt a b k = obj at *
  have hctl : objBufctl a obj = obj + a.saObjsize := rfl
  have hbyte : sbFree a obj = obj + a.saObjsize + 4 := rfl
  generalize hm₁ : s.mem.write (sbFree a obj) [1] = m₁
  have hword : ∀ x, x + 4 ≤ sbFree a obj ∨ sbFree a obj + 1 ≤ x → m₁.word x = s.mem.word x :=
    fun x hx => by
    rw [← hm₁, word_write_of_disjoint (by rw [length_singleton]; omega)]
  have hslab' : m₁.word (objBufctl a obj) = slab := by
    rw [hword _ (.inl (by omega)), hback]
  have hfree : m₁.word (slab + 8) = s.mem.word (slab + 8) :=
    hword _ (.inr (by omega))
  simp only [hslab', hfree]
  generalize hm₃ :
    (m₁.setWord (objBufctl a obj) (s.mem.word (slab + 8))).setWord (slab + 8) obj = m₃
  have hcount : m₃.word (slab + 4) = s.mem.word (slab + 4) := by
    rw [← hm₃, word_setWord_of_disjoint, word_setWord_of_disjoint, hword]
    all_goals omega
  have hsub : sub32 (m₃.word (slab + 4)) 1 = s.mem.word (slab + 4) - 1 := by
    have hlt := word_lt s.mem (slab + 4)
    rw [hcount, sub32]
    omega
  rw [hsub]
  generalize ht : m₃.setWord (slab + 4) (s.mem.word (slab + 4) - 1) = m
  have hrel : Relinked s.mem m a b k := by
    intro x hx hdesc
    rw [hslabOf] at hdesc
    rw [hobjAt] at hx
    rw [← ht, ← hm₃, ← hm₁, setWord_of_not_mem, setWord_of_not_mem, setWord_of_not_mem,
      write_of_not_mem (by rw [length_singleton]; omega)]
    all_goals omega
  refine ⟨m, rfl, hrel, h.give hfit hk hlive hrel hb ?_ ?_ ?_ ?_⟩
  · have hlt := word_lt s.mem (slab + 4)
    rw [hslabOf, ← ht, word_setWord (by omega)]
    omega
  · rw [hslabOf, hobjAt, ← ht, word_setWord_of_disjoint (by omega), ← hm₃, word_setWord (by omega)]
  · rw [hobjAt, ← ht, ← hm₃, ← hm₁, setWord_of_not_mem, setWord_of_not_mem, setWord_of_not_mem]
    · exact write_of_mem le_rfl (by rw [Nat.sub_self]; rfl)
    all_goals omega
  · rw [hslabOf, hobjAt, ← ht, word_setWord_of_disjoint, ← hm₃, word_setWord_of_disjoint,
      word_setWord (word_lt ..)]
    all_goals omega

end

/-! ## 4. Growing -/

section
variable {a : SlabAllocator} {b n : Nat}

/-- The control words of object `n`, after those of the objects before it. -/
theorem control_spec {m₁ m₂ : Mem} {w : Nat} {f : Nat → Nat}
    (hm : (m₁.write (sbFree a (objAt a b n)) [1]).setWord (objBufctl a (objAt a b n)) w = m₂)
    (hw : w < 2 ^ 32) (hlast : f n = w)
    (hdone : ∀ k < n, m₁ (sbFree a (objAt a b k)) = 1 ∧ m₁.word (objBufctl a (objAt a b k)) = f k) :
    (∀ x, x < objAt a b n + a.saObjsize ∨ objAt a b n + a.saObjsize + 5 ≤ x → m₂ x = m₁ x) ∧
      ∀ k < n + 1, m₂ (sbFree a (objAt a b k)) = 1 ∧ m₂.word (objBufctl a (objAt a b k)) = f k := by
  have hctl : ∀ k, objBufctl a (objAt a b k) = objAt a b k + a.saObjsize := fun _ => rfl
  have hbyte : ∀ k, sbFree a (objAt a b k) = objAt a b k + a.saObjsize + 4 := fun _ => rfl
  have hsame : ∀ x, x < objAt a b n + a.saObjsize ∨ objAt a b n + a.saObjsize + 5 ≤ x →
      m₂ x = m₁ x := by
    intro x hx
    have hctln := hctl n
    have hbyten := hbyte n
    rw [← hm, setWord_of_not_mem (by omega), write_of_not_mem (by rw [length_singleton]; omega)]
  refine ⟨hsame, fun k hk => ?_⟩
  have hctlk := hctl k
  have hbytek := hbyte k
  obtain hlt | rfl := Nat.lt_or_eq_of_le (Nat.le_of_lt_succ hk)
  · have hapart : objAt a b k + a.saObjsize + 8 ≤ objAt a b n := objAt_lt hlt
    rw [hsame _ (by omega), word_congr fun x hle hlt => hsame x (by omega)]
    exact hdone k hlt
  · rw [← hm, hlast]
    refine ⟨?_, word_setWord hw⟩
    rw [setWord_of_not_mem (by omega)]
    exact write_of_mem le_rfl (by rw [Nat.sub_self]; rfl)

theorem threadObjs_spec (m : Mem) (hbound : objAt a b n < 2 ^ 32) :
    (threadObjs a b n m).2 = objAt a b n ∧
      (∀ x, x < b ∨ objAt a b n ≤ x → (threadObjs a b n m).1 x = m x) ∧
      ∀ k < n, (threadObjs a b n m).1 (sbFree a (objAt a b k)) = 1 ∧
        (threadObjs a b n m).1.word (objBufctl a (objAt a b k)) = objAt a b (k + 1) := by
  induction n with
  | zero => exact ⟨objAt_zero.symm, fun _ _ => rfl, nofun⟩
  | succ n ih =>
    have hstep : objAt a b n + a.saObjsize + 8 = objAt a b (n + 1) := nextObj_objAt
    obtain ⟨hobj, hsame, hdone⟩ := ih (by omega)
    rw [threadObjs]
    simp only [hobj, nextObj_objAt]
    generalize (threadObjs a b n m).1 = m₁ at hsame hdone
    have hb : b ≤ objAt a b n := le_objAt
    generalize hm : (m₁.write (sbFree a (objAt a b n)) [1]).setWord (objBufctl a (objAt a b n))
      (objAt a b (n + 1)) = m₂
    obtain ⟨hbefore, hall⟩ := control_spec (f := fun k => objAt a b (k + 1)) hm hbound rfl hdone
    refine ⟨trivial, fun x hx => ?_, hall⟩
    rw [hbefore x (by omega), hsame x (by omega)]

/-- The loop that sets the red zones; it leaves the control words. -/
theorem initObjs_spec (m : Mem) (hobjsize : 8 ≤ a.saObjsize) : (initObjs a b n m).2 = objAt a b n ∧
      (∀ x, (x < b ∨ objAt a b n ≤ x ∨ ∃ k < n, objAt a b k + a.saObjsize ≤ x ∧
        x < objAt a b k + a.saObjsize + 8) → (initObjs a b n m).1 x = m x) ∧
      ∀ k < n, (initObjs a b n m).1.word (objAt a b k) = slabRedzone ∧
        (initObjs a b n m).1.word (rearRz a (objAt a b k)) = slabRedzone := by
  induction n with
  | zero => exact ⟨objAt_zero.symm, fun _ _ => rfl, nofun⟩
  | succ n ih =>
    have hstep : objAt a b n + a.saObjsize + 8 = objAt a b (n + 1) := nextObj_objAt
    obtain ⟨hobj, hsame, hdone⟩ := ih
    rw [initObjs]
    simp only [hobj, nextObj_objAt]
    generalize (initObjs a b n m).1 = m₁ at hsame hdone
    have hb : b ≤ objAt a b n := le_objAt
    have hrear : rearRz a (objAt a b n) = objAt a b n + a.saObjsize - 4 := rfl
    generalize hm :
      (m₁.setWord (objAt a b n) slabRedzone).setWord (rearRz a (objAt a b n)) slabRedzone = m₂
    have hbefore : ∀ x, x < objAt a b n ∨ objAt a b n + a.saObjsize ≤ x → m₂ x = m₁ x := by
      intro x hx
      rw [← hm, setWord_of_not_mem (by omega), setWord_of_not_mem (by omega)]
    refine ⟨trivial, fun x hx => ?_, fun k hk => ?_⟩
    · obtain hx | hx | ⟨k, hk, hle, hlt⟩ := hx
      · rw [hbefore x (by omega), hsame x (by omega)]
      · rw [hbefore x (by omega), hsame x (by omega)]
      · obtain hkn | rfl := Nat.lt_or_eq_of_le (Nat.le_of_lt_succ hk)
        · have hapart : objAt a b k + a.saObjsize + 8 ≤ objAt a b n := objAt_lt hkn
          rw [hbefore x (by omega), hsame x (.inr (.inr ⟨k, hkn, hle, hlt⟩))]
        · rw [hbefore x (by omega), hsame x (by omega)]
    · obtain hkn | rfl := Nat.lt_or_eq_of_le (Nat.le_of_lt_succ hk)
      · have hapart : objAt a b k + a.saObjsize + 8 ≤ objAt a b n := objAt_lt hkn
        have hrear' : rearRz a (objAt a b k) = objAt a b k + a.saObjsize - 4 := rfl
        obtain ⟨hfront, hback⟩ := hdone k hkn
        exact ⟨by rw [word_congr fun x hle hlt => hbefore x (by omega), hfront],
          by rw [word_congr fun x hle hlt => hbefore x (by omega), hback]⟩
      · rw [← hm]
        refine ⟨?_, word_setWord (by decide)⟩
        rw [word_setWord_of_disjoint (by omega), word_setWord (by decide)]

/-- Objects `k`, `k + 1`, .. up to the last one, each linked to the next. -/
theorem linked_objs {m : Mem} (count : Nat) {k : Nat} (hb : b ≠ 0)
    (hlink : ∀ j, k ≤ j → j < k + count →
      m.word (objBufctl a (objAt a b j)) = if j + 1 < k + count then objAt a b (j + 1) else 0) :
    Linked m a.saObjsize (if count = 0 then 0 else objAt a b k)
    ((List.range' k count).map (objAt a b)) := by
  induction count generalizing k with
  | zero => exact .nil 0
  | succ count ih =>
    have hpos : objAt a b k ≠ 0 := by
      have hle : b ≤ objAt a b k := le_objAt
      omega
    rw [if_neg (Nat.succ_ne_zero _), range'_succ, map_cons]
    refine .cons hpos ?_
    have hrest := ih (k := k + 1) fun j hle hlt => by
      rw [hlink j (by omega) (by omega), show k + 1 + count = k + (count + 1) by omega]
    rw [show m.word (objAt a b k + a.saObjsize) = _ from hlink k le_rfl (by omega)]
    cases count with
    | zero =>
      rw [if_neg (by omega)]
      exact .nil 0
    | succ count => rwa [if_pos (by omega)]

end

/-- **A new slab**: its objects are all free, and it is first on the cache's list. -/
theorem slabAllocatorGrow_spec {s : SlabSys} {c b : Nat} (hfit : Fits (s.allocator c)) (hb : b ≠ 0)
    (hbound : b + (s.allocator c).bytes ≤ 2 ^ 32) (hhead : (s.allocator c).saSlabs < 2 ^ 32) :
    ∃ m, slabAllocatorGrow s c b = { s with
        mem := m
        allocator := update s.allocator c { s.allocator c
          with saSlabs := slabOf (s.allocator c) b } } ∧
      (∀ x, x < b ∨ b + (s.allocator c).bytes ≤ x → m x = s.mem x) ∧
      m.word (slabOf (s.allocator c) b) = (s.allocator c).saSlabs ∧
      SlabAt m (s.allocator c) b (range (s.allocator c).saSlabNobjs) := by
  unfold slabAllocatorGrow
  dsimp only
  generalize s.allocator c = a at *
  have hroom := slabOf_le (b := b) hfit
  have hobjsize := hfit.objsize
  obtain ⟨n, hn⟩ : ∃ n, a.saSlabNobjs = n + 1 := ⟨a.saSlabNobjs - 1, by have := hfit.nobjs; omega⟩
  have hslab : slabOf a b = objAt a b (n + 1) := by rw [slabOf, hn]
  have hlast : objAt a b n + a.saObjsize + 8 = slabOf a b := by
    rw [hslab]
    exact nextObj_objAt
  rw [hn, Nat.add_sub_cancel]
  obtain ⟨hobj, hsame₁, hdone₁⟩ := threadObjs_spec (a := a) (b := b) (n := n) s.mem (by omega)
  rw [hobj, nextObj_objAt, ← hslab]
  generalize (threadObjs a b n s.mem).1 = m₁ at *
  have hb' : b ≤ objAt a b n := le_objAt
  have hctl : ∀ k, objBufctl a (objAt a b k) = objAt a b k + a.saObjsize := fun _ => rfl
  have hbyte : ∀ k, sbFree a (objAt a b k) = objAt a b k + a.saObjsize + 4 := fun _ => rfl
  -- the control words: the free list is threaded, up to the last object
  generalize hm₂ :
    (m₁.write (sbFree a (objAt a b n)) [1]).setWord (objBufctl a (objAt a b n)) 0 = m₂
  obtain ⟨hsame₂, hdone₂⟩ :=
    control_spec (f := fun k => if k < n then objAt a b (k + 1) else 0) hm₂ (by decide)
    (if_neg (lt_irrefl n)) fun k hk => by
      rw [if_pos hk]
      exact hdone₁ k hk
  -- the descriptor
  generalize hm₃ :
    ((m₂.setWord (slabOf a b + 8) b).setWord (slabOf a b + 12) b).setWord (slabOf a b + 4) 0 = m₃
  have hsame₃ : ∀ x, x < slabOf a b ∨ slabOf a b + 16 ≤ x → m₃ x = m₂ x := by
    intro x hx
    rw [← hm₃, setWord_of_not_mem (by omega), setWord_of_not_mem (by omega),
      setWord_of_not_mem (by omega)]
  have hinuse : m₃.word (slabOf a b + 4) = 0 := by rw [← hm₃, word_setWord (by decide)]
  have hfree : m₃.word (slabOf a b + 8) = b := by
    rw [← hm₃, word_setWord_of_disjoint (by omega), word_setWord_of_disjoint (by omega),
      word_setWord (by omega)]
  have haddr : m₃.word (slabOf a b + 12) = b := by
    rw [← hm₃, word_setWord_of_disjoint (by omega), word_setWord (by omega)]
  -- the red zones, and the link to the next slab
  obtain ⟨-, hsame₄, hzones⟩ := initObjs_spec (a := a) (b := b) (n := n + 1) m₃ hobjsize
  rw [← hslab] at hsame₄
  generalize (initObjs a b (n + 1) m₃).1 = m₄ at *
  have hend : ∀ k < n + 1, objAt a b k + a.saObjsize + 8 ≤ slabOf a b := fun k hk => by
    rw [hslab]
    exact objAt_lt hk
  have hdesc : ∀ x, 4 ≤ x → x ≤ 12 →
      (m₄.setWord (slabOf a b) a.saSlabs).word (slabOf a b + x) = m₃.word (slabOf a b + x) := by
    intro x hle hlt
    rw [word_setWord_of_disjoint (by omega), word_congr fun y hy _ => hsame₄ y (by omega)]
  have hobjs : ∀ k < n + 1, ∀ x, objAt a b k + a.saObjsize ≤ x → x < objAt a b k + a.saObjsize + 8 →
      m₄.setWord (slabOf a b) a.saSlabs x = m₂ x := by
    intro k hk x hle hlt
    have hend := hend k hk
    rw [setWord_of_not_mem (by omega), hsame₄ x (.inr (.inr ⟨k, hk, hle, hlt⟩)),
      hsame₃ x (by omega)]
  refine ⟨m₄.setWord (slabOf a b) a.saSlabs, rfl, fun x hx => ?_, word_setWord hhead, ?_⟩
  · rw [setWord_of_not_mem (by omega), hsame₄ x (by omega), hsame₃ x (by omega),
      hsame₂ x (by omega), hsame₁ x (by omega)]
  refine ⟨?_, ?_, ?_, nodup_range, ?_, ?_, ?_, ?_, ?_⟩
  · rw [hdesc 4 (by decide) (by decide), hinuse, length_range, hn, Nat.zero_add]
  · rw [hdesc 8 (by decide) (by decide), hfree, range_eq_range']
    have hlinked := linked_objs (a := a) (n + 1) (k := 0)
        (m := m₄.setWord (slabOf a b) a.saSlabs) hb fun k _ hk => by
        have hk' : k < n + 1 := by omega
        have hctlk := hctl k
        rw [word_congr fun x hle hlt => hobjs k hk' x (by omega) (by omega), (hdone₂ k hk').2]
        simp only [Nat.zero_add, Nat.add_lt_add_iff_right]
    rwa [if_neg (Nat.succ_ne_zero n), objAt_zero] at hlinked
  · rw [hdesc 12 (by decide) (by decide), haddr]
  · exact fun k hk => hn ▸ mem_range.mp hk
  · intro k hk
    have hend := hend k (hn ▸ hk)
    rw [word_setWord_of_disjoint (by omega), (hzones k (hn ▸ hk)).1]
  · intro k hk
    have hend := hend k (hn ▸ hk)
    have hrear : rearRz a (objAt a b k) = objAt a b k + a.saObjsize - 4 := rfl
    rw [word_setWord_of_disjoint (by omega), (hzones k (hn ▸ hk)).2]
  · intro k hk
    have hbytek := hbyte k
    rw [hobjs k (hn ▸ hk) _ (by omega) (by omega), (hdone₂ k (hn ▸ hk)).1,
      if_pos (mem_range.mpr (hn ▸ hk))]
  · exact fun k hk hmem => absurd (mem_range.mpr (hn ▸ hk)) hmem

end Weenix.Slab
