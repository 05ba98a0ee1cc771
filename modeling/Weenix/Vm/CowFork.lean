/-
# Copy-on-write isolation: fork

For every private area `do_fork` puts two new shadow objects over the object of the parent, one
for each side, and takes the pages of the area out of the page directory of the parent.  Shared
areas keep their object on both sides.  `Forked` says so for the whole loop, area by area, and
`doFork_spec` concludes that a fork keeps the invariant of `Weenix.Vm.Cow`: the child is expected
to read what the parent was.
-/
import Weenix.Vm.Cow

namespace Weenix.Vm

open List Option Vmarea

/-! ## 1. The loop of `do_fork` -/

theorem unmaps_of_mem {vlow vhigh v : Nat} (hlow : vlow ≤ v) (hhigh : v < vhigh) :
    unmaps vlow vhigh v = true := by
  have hn : ptEntryCount = 1024 := rfl
  simp only [unmaps, hn, Bool.or_eq_true, Bool.and_eq_true, bne_iff_ne, ne_eq, beq_iff_eq,
    decide_eq_true_eq]
  omega

/-- What the loop makes of the areas `as` of the parent.  `maps true` are the areas of the parent
after it and `maps false` those of the child. -/
structure Forked (m : Memory) (pd : Nat → Option Nat) (as : List Vmarea)
    (m' : Memory) (pd' : Nat → Option Nat) (maps : Bool → List Vmarea) : Prop where
  hash : m'.pframeHash = m.pframeHash
  data : m'.pfAddr = m.pfAddr
  npframe : m'.npframe = m.npframe
  proc : m'.proc = m.proc
  nproc : m'.nproc = m.nproc
  nobj : m.nobj ≤ m'.nobj
  old : ∀ o < m.nobj, m'.mmobj o = m.mmobj o
  new : ∀ o, m.nobj ≤ o → o < m'.nobj → ∃ a ∈ as, a.vmaFlags = mapPrivate ∧
    m'.mmobj o = ⟨.shadow, some a.vmaObj⟩
  shape : ∀ b, (maps b).map Vmarea.shape = as.map Vmarea.shape
  kept : ∀ {b : Bool} {i : Nat} {a x : Vmarea}, as[i]? = some a → (maps b)[i]? = some x →
    a.vmaFlags ≠ mapPrivate → x.vmaObj = a.vmaObj
  fresh : ∀ {b : Bool} {i : Nat} {a x : Vmarea}, as[i]? = some a → (maps b)[i]? = some x →
    a.vmaFlags = mapPrivate →
      m.nobj ≤ x.vmaObj ∧ x.vmaObj < m'.nobj ∧ m'.mmobj x.vmaObj = ⟨.shadow, some a.vmaObj⟩
  apart : ∀ {b b' : Bool} {i i' : Nat} {x x' : Vmarea}, (maps b)[i]? = some x →
    (maps b')[i']? = some x' → x.vmaFlags = mapPrivate → x'.vmaFlags = mapPrivate →
      x.vmaObj = x'.vmaObj → i = i' ∧ b = b'
  pagedir : ∀ {v f : Nat}, pd' v = some f → pd v = some f ∧ ∀ a ∈ as, a.vmaFlags = mapPrivate →
    a.covers v = false

section
variable {m m' : Memory} {pd pd' : Nat → Option Nat} {as : List Vmarea}
  {maps : Bool → List Vmarea} {a : Vmarea}

theorem Forked.nil (m : Memory) (pd : Nat → Option Nat) : Forked m pd [] m pd fun _ => [] where
  hash := rfl
  data := rfl
  npframe := rfl
  proc := rfl
  nproc := rfl
  nobj := le_rfl
  old _ _ := rfl
  new o h1 h2 := by omega
  shape _ := rfl
  kept h := by simp at h
  fresh h := by simp at h
  apart h := by simp at h
  pagedir h := ⟨h, fun a ha => by simp at ha⟩

section
variable (h : Forked m pd as m' pd' maps) {b : Bool} {i : Nat} {x : Vmarea}
  (hx : (maps b)[i]? = some x)
include h hx

/-- Every area after the loop comes from one of the parent in the same place. -/
theorem Forked.source : ∃ a, as[i]? = some a ∧ x.shape = a.shape := by
  have h1 : (as.map Vmarea.shape)[i]? = some x.shape := by
    rw [← h.shape b, getElem?_map, hx]
    rfl
  rw [getElem?_map] at h1
  obtain ⟨a, ha, hs⟩ := map_eq_some_iff.mp h1
  exact ⟨a, ha, hs.symm⟩

/-- An area with new flags of the private kind has a new object. -/
theorem Forked.fresh_le (hp : x.vmaFlags = mapPrivate) : m.nobj ≤ x.vmaObj := by
  obtain ⟨a, ha, hs⟩ := h.source hx
  have hf : a.vmaFlags = mapPrivate := by
    rw [← hp]
    exact (flags_of_shape hs).symm
  exact (h.fresh ha hx hf).1

end

theorem Forked.consKept (h : Forked m pd as m' pd' maps) (ha : a.vmaFlags ≠ mapPrivate) :
    Forked m pd (a :: as) m' pd' fun b => a :: maps b where
  __ := h
  new o h1 h2 := by
    obtain ⟨a', ha', hr⟩ := h.new o h1 h2
    exact ⟨a', .tail _ ha', hr⟩
  shape b := by rw [map_cons, map_cons, h.shape b]
  kept {b i a' x} h1 h2 hp := by
    cases i with
    | zero =>
      cases h1
      cases h2
      rfl
    | succ i => exact h.kept h1 h2 hp
  fresh {b i a' x} h1 h2 hp := by
    cases i with
    | zero =>
      cases h1
      exact absurd hp ha
    | succ i => exact h.fresh h1 h2 hp
  apart {b b' i i' x x'} h1 h2 hp hp' he := by
    cases i with
    | zero =>
      cases h1
      exact absurd hp ha
    | succ i =>
      cases i' with
      | zero =>
        cases h2
        exact absurd hp' ha
      | succ i' =>
        obtain ⟨rfl, rfl⟩ := h.apart h1 h2 hp hp' he
        exact ⟨rfl, rfl⟩
  pagedir {v f} hv := by
    obtain ⟨h1, h2⟩ := h.pagedir hv
    refine ⟨h1, fun a' ha' hp => ?_⟩
    obtain rfl | ha' := mem_cons.mp ha'
    · exact absurd hp ha
    · exact h2 a' ha' hp

/-- The memory after the two new objects of a private area. -/
def twoShadows (m : Memory) (o : Nat) : Memory := (shadowCreate (shadowCreate m o).1 o).1

@[simp] theorem twoShadows_nobj (m : Memory) (o : Nat) : (twoShadows m o).nobj = m.nobj + 2 := rfl

theorem twoShadows_old (m : Memory) (o : Nat) {x : Nat} (hx : x < m.nobj) :
    (twoShadows m o).mmobj x = m.mmobj x := by
  have h1 : x ≠ m.nobj := by omega
  have h2 : x ≠ m.nobj + 1 := by omega
  simp [twoShadows, shadowCreate, h1, h2]

theorem twoShadows_new (m : Memory) (o : Nat) {x : Nat} (h1 : m.nobj ≤ x) (h2 : x < m.nobj + 2) :
    (twoShadows m o).mmobj x = ⟨.shadow, some o⟩ := by
  obtain rfl | h := Nat.eq_or_lt_of_le h1
  · simp [twoShadows, shadowCreate]
  · obtain rfl : x = m.nobj + 1 := by omega
    simp [twoShadows, shadowCreate]

/-- A private area gets two new objects, and its pages are unmapped in the parent. -/
theorem Forked.consPrivate (ha : a.vmaFlags = mapPrivate) {pd₁ : Nat → Option Nat}
    (hpd : ∀ {v f : Nat}, pd₁ v = some f → pd v = some f ∧ a.covers v = false)
    (h : Forked (twoShadows m a.vmaObj) pd₁ as m' pd' maps) :
    Forked m pd (a :: as) m' pd' fun b =>
      { a with vmaObj := if b then m.nobj + 1 else m.nobj } :: maps b where
  __ := h
  nobj := by
    have := h.nobj
    simp only [twoShadows_nobj] at this
    omega
  old o ho := by
    rw [h.old o (by simp only [twoShadows_nobj]; omega), twoShadows_old m _ ho]
  new o h1 h2 := by
    by_cases ho : o < m.nobj + 2
    · exact ⟨a, .head _, ha, by rw [h.old o ho, twoShadows_new m _ h1 ho]⟩
    · obtain ⟨a', ha', hr⟩ := h.new o (Nat.not_lt.mp ho) h2
      exact ⟨a', .tail _ ha', hr⟩
  shape b := by
    rw [map_cons, map_cons, h.shape b]
    rfl
  kept {b i a' x} h1 h2 hp := by
    cases i with
    | zero =>
      cases h1
      exact absurd ha hp
    | succ i => exact h.kept h1 h2 hp
  fresh {b i a' x} h1 h2 hp := by
    have hn := h.nobj
    cases i with
    | zero =>
      cases h1
      cases h2
      have hlo : m.nobj ≤ (if b then m.nobj + 1 else m.nobj) := by split <;> omega
      have hhi : (if b then m.nobj + 1 else m.nobj) < m.nobj + 2 := by split <;> omega
      exact ⟨hlo, hhi.trans_le hn, by rw [h.old _ hhi, twoShadows_new m _ hlo hhi]⟩
    | succ i =>
      obtain ⟨h3, h4⟩ := h.fresh h1 h2 hp
      simp only [twoShadows_nobj] at h3
      exact ⟨by omega, h4⟩
  apart {b b' i i' x x'} h1 h2 hp hp' he := by
    cases i with
    | zero =>
      cases h1
      cases i' with
      | zero =>
        cases h2
        cases b <;> cases b' <;> simp_all
      | succ i' =>
        have := h.fresh_le h2 hp'
        simp only [twoShadows_nobj] at this
        cases b <;> simp at he <;> omega
    | succ i =>
      cases i' with
      | zero =>
        cases h2
        have := h.fresh_le h1 hp
        simp only [twoShadows_nobj] at this
        cases b' <;> simp at he <;> omega
      | succ i' =>
        obtain ⟨rfl, rfl⟩ := h.apart h1 h2 hp hp' he
        exact ⟨rfl, rfl⟩
  pagedir {v f} hv := by
    obtain ⟨h1, h2⟩ := h.pagedir hv
    obtain ⟨h3, h4⟩ := hpd h1
    refine ⟨h3, fun a' ha' hp => ?_⟩
    obtain rfl | ha' := mem_cons.mp ha'
    · exact h4
    · exact h2 a' ha' hp

theorem vmmapClone_cons (stale : Vmarea → Nat) (a : Vmarea) (as : List Vmarea) :
    vmmapClone stale (a :: as) = { a with vmaObj := stale a } :: vmmapClone stale as := rfl

/-- **The loop returns**, whatever was left in the objects of the child. -/
theorem forkLoop_spec (stale : Vmarea → Nat) :
    ∀ (as : List Vmarea) (m : Memory) (pd : Nat → Option Nat),
    (∀ a ∈ as, a.vmaStart < a.vmaEnd ∧ userMemLow ≤ a.vmaStart ∧ a.vmaEnd ≤ userMemHigh) →
    (∀ a ∈ as, a.vmaFlags = mapPrivate ∨ a.vmaFlags = mapShared) →
    ∃ m' pd' maps, forkLoop m pd as (vmmapClone stale as) = .ok (m', pd', maps true, maps false) ∧
      Forked m pd as m' pd' maps
  | [], m, pd, _, _ => ⟨m, pd, fun _ => [], rfl, .nil m pd⟩
  | a :: as, m, pd, hr, hf => by
    obtain ⟨hlt, hlow, hhigh⟩ := hr a (.head _)
    have hr' := fun x hx => hr x (.tail _ hx)
    have hf' := fun x hx => hf x (.tail _ hx)
    by_cases hp : a.vmaFlags = mapPrivate
    · have hk1 : decide (a.vmaStart < a.vmaEnd) = true := decide_eq_true hlt
      have hk2 : (decide (userMemLow ≤ a.vmaStart) && decide (a.vmaEnd ≤ userMemHigh)) = true := by
        simp only [hlow, hhigh, decide_true, Bool.and_self]
      obtain ⟨m', pd', maps, heq, h⟩ := forkLoop_spec stale as (twoShadows m a.vmaObj)
        (fun vfn => if unmaps a.vmaStart a.vmaEnd vfn then none else pd vfn) hr' hf'
      refine ⟨m', pd', _, ?_, h.consPrivate hp ?_⟩
      · rw [vmmapClone_cons, forkLoop, if_pos hp]
        simp only [ptUnmapRange, kassert_of hk1, kassert_of hk2, ok_bind, pure_eq_ok]
        change (forkLoop (twoShadows m a.vmaObj) _ as (vmmapClone stale as) >>= _) = _
        rw [heq]
        rfl
      · intro v f hv
        split at hv
        · cases hv
        · rename_i hn
          refine ⟨hv, Bool.eq_false_iff.mpr fun hc => hn ?_⟩
          rw [covers_iff] at hc
          exact unmaps_of_mem hc.2 hc.1
    · have hs : a.vmaFlags = mapShared := (hf a (.head _)).resolve_left hp
      obtain ⟨m', pd', maps, heq, h⟩ := forkLoop_spec stale as m pd hr' hf'
      refine ⟨m', pd', _, ?_, h.consKept hp⟩
      rw [vmmapClone_cons, forkLoop, if_neg hp, if_pos hs, heq]
      rfl

end

/-! ## 2. A fork keeps the invariant -/

def afterFork (m m' : Memory) (p : Nat) (pd' : Nat → Option Nat) (maps : Bool → List Vmarea) :
    Memory :=
  { m' with
    proc := update (update m'.proc p ⟨maps true, pd'⟩) m.nproc
      ⟨maps false, fun _ => none⟩
    nproc := m.nproc + 1 }

/-- Who a process had its memory from. -/
def origin (p child q : Nat) : Nat := if q = child then p else q

section
variable {shapes : List Vmarea} {m m' : Memory} {hist : List MemEvent} {p q i : Nat}
  {pd' : Nat → Option Nat} {maps : Bool → List Vmarea}

theorem expect_forked (hist : List MemEvent) (flags p child q v : Nat) :
    expect (.forked p child :: hist) flags q v = expect hist flags (origin p child q) v := by
  funext off
  unfold expect origin
  by_cases hf : flags = mapPrivate
  · rw [if_pos hf, if_pos hf, privVal]
    split <;> rfl
  · rw [if_neg hf, if_neg hf, sharedVal]

theorem origin_lt (hp : p < m.nproc) (hq : q < m.nproc + 1) : origin p m.nproc q < m.nproc := by
  unfold origin
  split <;> omega

theorem afterFork_parent (hp : p < m.nproc) :
    ((afterFork m m' p pd' maps).proc p).pVmmap = maps true := by
  simp [afterFork, hp.ne]

theorem afterFork_child : ((afterFork m m' p pd' maps).proc m.nproc).pVmmap = maps false := by
  simp [afterFork]

/-- The areas of the forking process and of the child are those of the loop. -/
theorem afterFork_maps (hp : p < m.nproc) (b : Bool) :
    ((afterFork m m' p pd' maps).proc (if b then p else m.nproc)).pVmmap = maps b := by
  cases b with
  | true => exact afterFork_parent hp
  | false => exact afterFork_child

theorem afterFork_other (h : Forked m (m.proc p).pPagedir (m.proc p).pVmmap m' pd' maps)
    (hqp : q ≠ p) (hqc : q ≠ m.nproc) : (afterFork m m' p pd' maps).proc q = m.proc q := by
  simp [afterFork, hqp, hqc, h.proc]

/-- An area after the fork: where it comes from, and whether its object is new. -/
structure FromArea (m m' : Memory) (p q i : Nat) (maps : Bool → List Vmarea) (x a : Vmarea) :
    Prop where
  idx : (m.proc (origin p m.nproc q)).pVmmap[i]? = some a
  shape : x.shape = a.shape
  obj : (x.vmaObj = a.vmaObj ∧ (a.vmaFlags = mapPrivate → q ≠ p ∧ q ≠ m.nproc)) ∨
    (a.vmaFlags = mapPrivate ∧ m.nobj ≤ x.vmaObj ∧ x.vmaObj < m'.nobj ∧
      m'.mmobj x.vmaObj = ⟨.shadow, some a.vmaObj⟩ ∧
      ∃ b : Bool, q = (if b then p else m.nproc) ∧ (maps b)[i]? = some x)

theorem FromArea.flags {x a : Vmarea} (h : FromArea m m' p q i maps x a) :
    x.vmaFlags = a.vmaFlags := flags_of_shape h.shape

section
variable (h : Forked m (m.proc p).pPagedir (m.proc p).pVmmap m' pd' maps)
include h

theorem Forked.fromArea (hp : p < m.nproc) {x : Vmarea}
    (hx : ((afterFork m m' p pd' maps).proc q).pVmmap[i]? = some x) :
    ∃ a, FromArea m m' p q i maps x a := by
  -- the forking process and the child are the two sides of the loop
  have hside : ∀ b : Bool, q = (if b then p else m.nproc) → ∃ a, FromArea m m' p q i maps x a := by
    rintro b rfl
    rw [afterFork_maps hp] at hx
    obtain ⟨a, ha, hs⟩ := h.source hx
    have ho : origin p m.nproc (if b then p else m.nproc) = p := by
      unfold origin
      cases b <;> simp
    refine ⟨a, by rw [ho]; exact ha, hs, ?_⟩
    by_cases hpr : a.vmaFlags = mapPrivate
    · obtain ⟨h1, h2, h3⟩ := h.fresh ha hx hpr
      exact .inr ⟨hpr, h1, h2, h3, b, rfl, hx⟩
    · exact .inl ⟨h.kept ha hx hpr, fun hc => absurd hc hpr⟩
  by_cases hqp : q = p
  · exact hside true hqp
  by_cases hqc : q = m.nproc
  · exact hside false hqc
  rw [afterFork_other h hqp hqc] at hx
  have ho : origin p m.nproc q = q := if_neg hqc
  exact ⟨x, by rw [ho]; exact hx, rfl, .inl ⟨rfl, fun _ => ⟨hqp, hqc⟩⟩⟩

variable (hinv : CowInv shapes m)
include hinv

theorem Forked.sees {k o : Nat} {d : Nat → UInt8} (ho : o < m.nobj) (hd : Sees m k o d) :
    Sees (afterFork m m' p pd' maps) k o d :=
  hd.congr hinv.chains ho (fun o' ho' => h.old o' (by omega)) (fun o' _ => congrFun₂ h.hash o' k)
    fun _ _ f _ => congrFun h.data f

variable (hp : p < m.nproc)
include hp

/-- The objects of a memory after the loop still form chains. -/
theorem Forked.chains : Chains m' := by
  refine hinv.chains.grow h.hash h.npframe h.nobj h.old fun o hge hlt => .inr ?_
  obtain ⟨a, ha, -, hm⟩ := h.new o hge hlt
  obtain ⟨i, hi⟩ := getElem?_of_mem ha
  exact ⟨a.vmaObj, (hinv.objLt p hp hi).trans_le hge, hm⟩

/-- The object of an area of another process, or of a shared one, is never shadowed. -/
theorem Forked.top (hq : q < m.nproc + 1) {x a : Vmarea} (hx : FromArea m m' p q i maps x a)
    {o : Nat} (ho : o < m'.nobj) : (m'.mmobj o).mmoShadowed ≠ some x.vmaObj := by
  intro hsh
  have hq0 := origin_lt hp hq
  by_cases hold : o < m.nobj
  · rw [h.old o hold] at hsh
    have hlt := hinv.chains.lt hold hsh
    obtain ⟨hobj, -⟩ | ⟨-, hnew, -⟩ := hx.obj
    · exact hinv.top _ hq0 hx.idx o hold (hobj ▸ hsh)
    · omega
  · obtain ⟨a', ha', hpr', hm⟩ := h.new o (Nat.not_lt.mp hold) ho
    rw [hm] at hsh
    have hobj' : a'.vmaObj = x.vmaObj := some.inj hsh
    obtain ⟨j, hj⟩ := getElem?_of_mem ha'
    have halt' := hinv.objLt p hp hj
    obtain ⟨hobj, hoth⟩ | ⟨-, hnew, -⟩ := hx.obj
    · -- `a'` is an area of the forking process, and so is `a`, which is then not kept
      obtain ⟨rfl, hsame⟩ := hinv.excl p hp _ hq0 hj hx.idx (hobj'.trans hobj)
      have hfl : a.vmaFlags = mapPrivate := by
        rw [← hpr']
        exact flags_of_shape (hinv.shape_eq hq0 hp hx.idx hj)
      obtain hpq | hs := hsame
      · obtain ⟨hqp, hqc⟩ := hoth hfl
        rw [origin, if_neg hqc] at hpq
        exact hqp hpq.symm
      · rw [hpr'] at hs
        cases hs
    · omega

theorem Forked.excl (hu : AnonAreas shapes) {q' : Nat} (hq : q < m.nproc + 1)
    (hq' : q' < m.nproc + 1)
    {i' : Nat} {x x' a a' : Vmarea} (hx : FromArea m m' p q i maps x a)
    (hx' : FromArea m m' p q' i' maps x' a') (hobj : x.vmaObj = x'.vmaObj) :
    i = i' ∧ (q = q' ∨ x.vmaFlags = mapShared) := by
  have hq0 := origin_lt hp hq
  have hq0' := origin_lt hp hq'
  have halt := hinv.objLt _ hq0 hx.idx
  have halt' := hinv.objLt _ hq0' hx'.idx
  obtain ⟨ho, hoth⟩ | ⟨hpr, hnew, -, -, b, hqb, hb⟩ := hx.obj
  · obtain ⟨ho', hoth'⟩ | ⟨-, hnew', -⟩ := hx'.obj
    · obtain ⟨rfl, hsame⟩ := hinv.excl _ hq0 _ hq0' hx.idx hx'.idx (ho.symm.trans (hobj.trans ho'))
      refine ⟨rfl, ?_⟩
      rw [hx.flags]
      have hfl : a.vmaFlags = a'.vmaFlags :=
        flags_of_shape (hinv.shape_eq hq0 hq0' hx.idx hx'.idx)
      obtain hpr | hs := hu.flags _ (mem_of_getElem? (hinv.shape_mem hq0 hx.idx))
      · obtain ⟨-, hqc⟩ := hoth hpr
        obtain ⟨-, hqc'⟩ := hoth' (hfl.symm.trans hpr)
        rw [origin, if_neg hqc, origin, if_neg hqc'] at hsame
        exact hsame
      · exact .inr hs
    · omega
  · obtain ⟨ho', -⟩ | ⟨hpr', -, -, -, b', hqb', hb'⟩ := hx'.obj
    · omega
    · obtain ⟨hi, rfl⟩ := h.apart hb hb' (hx.flags.trans hpr) (hx'.flags.trans hpr') hobj
      exact ⟨hi, .inl (hqb.trans hqb'.symm)⟩

/-- What is left in the page directory of the forking process belongs to shared areas. -/
theorem Forked.pages {v f : Nat} (hv : pd' v = some f) :
    ∃ a, vmmapLookup (maps true) v = some a ∧ m'.pframeHash a.vmaObj (a.pagenum v) = some f := by
  obtain ⟨hold, hcov⟩ := h.pagedir hv
  obtain ⟨a, hl, hf⟩ := hinv.pages p hp hold
  obtain ⟨i, hi, hia⟩ := hinv.idx hp hl
  obtain ⟨hmem, hc⟩ := of_lookup_eq_some hl
  have hnp : a.vmaFlags ≠ mapPrivate := fun hpr => by
    rw [hcov a hmem hpr] at hc
    cases hc
  have hsh : ((maps true).map Vmarea.shape)[i]? = some a.shape := by
    rw [h.shape, getElem?_map, hia]
    rfl
  rw [getElem?_map] at hsh
  obtain ⟨x, hx, hs⟩ := map_eq_some_iff.mp hsh
  obtain rfl : x = a := eq_of_shape hs (h.kept hia hx hnp)
  refine ⟨x, (lookup_iff_idx ((h.shape true).trans (hinv.shape p hp))).mpr ⟨i, hi, hx⟩, ?_⟩
  rw [h.hash]
  exact hf

/-- **A fork keeps the invariant.** -/
theorem Forked.cowInv (hu : AnonAreas shapes) : CowInv shapes (afterFork m m' p pd' maps) := by
  have hch := h.chains hinv hp
  refine ⟨{ hch with }, ?_, ?_, ?_, ?_, ?_, ?_⟩
  · intro q hq
    by_cases hqp : q = p
    · subst hqp
      rw [afterFork_parent hp, h.shape]
      exact hinv.shape q hp
    by_cases hqc : q = m.nproc
    · subst hqc
      rw [afterFork_child, h.shape]
      exact hinv.shape p hp
    rw [afterFork_other h hqp hqc]
    exact hinv.shape q (by change q < m.nproc + 1 at hq; omega)
  · intro q hq i x hx
    obtain ⟨a, ha⟩ := h.fromArea hp hx
    obtain ⟨hobj, -⟩ | ⟨-, -, hlt, -⟩ := ha.obj
    · rw [hobj]
      exact (hinv.objLt _ (origin_lt hp hq) ha.idx).trans_le h.nobj
    · exact hlt
  · intro q hq i x hx o ho
    obtain ⟨a, ha⟩ := h.fromArea hp hx
    exact h.top hinv hp hq ha ho
  · intro q hq q' hq' i i' x x' hx hx' hobj
    obtain ⟨a, ha⟩ := h.fromArea hp hx
    obtain ⟨a', ha'⟩ := h.fromArea hp hx'
    exact h.excl hinv hp hu hq hq' ha ha' hobj
  · intro q hq q' hq' i x x' hx hx' hs
    obtain ⟨a, ha⟩ := h.fromArea hp hx
    obtain ⟨a', ha'⟩ := h.fromArea hp hx'
    have hq0 := origin_lt hp hq
    have hq0' := origin_lt hp hq'
    have has : a.vmaFlags = mapShared := ha.flags.symm.trans hs
    have hold := hinv.shared _ hq0 _ hq0' ha.idx ha'.idx has
    have has' : a'.vmaFlags = mapShared := by
      rw [← has]
      exact flags_of_shape (hinv.shape_eq hq0' hq0 ha'.idx ha.idx)
    obtain ⟨ho, -⟩ | ⟨hpr, -⟩ := ha.obj
    · obtain ⟨ho', -⟩ | ⟨hpr', -⟩ := ha'.obj
      · exact ho.trans (hold.trans ho'.symm)
      · rw [has'] at hpr'
        cases hpr'
    · rw [has] at hpr
      cases hpr
  · intro q hq v f hv
    by_cases hqc : q = m.nproc
    · subst hqc
      simp [afterFork] at hv
    by_cases hqp : q = p
    · subst hqp
      have hv' : pd' v = some f := by simpa [afterFork, hqc] using hv
      rw [afterFork_parent hp]
      exact h.pages hinv hp hv'
    rw [afterFork_other h hqp hqc] at hv ⊢
    obtain ⟨a, hl, hf⟩ := hinv.pages q (by change q < m.nproc + 1 at hq; omega) hv
    exact ⟨a, hl, by change m'.pframeHash _ _ = _; rw [h.hash]; exact hf⟩

/-- **A fork is not seen**: both sides go on with what the parent had. -/
theorem Forked.holds (hu : AnonAreas shapes) (hh : Holds hist m) :
    Holds (.forked p m.nproc :: hist) (afterFork m m' p pd' maps) := by
  intro q hq v x hl
  obtain ⟨i, hi, hix⟩ := (h.cowInv hinv hp hu).idx hq hl
  obtain ⟨a, ha⟩ := h.fromArea hp hix
  have hq0 := origin_lt hp hq
  have hla := (lookup_iff_idx (hinv.shape _ hq0)).mpr ⟨i, hi, ha.idx⟩
  have hpn : x.pagenum v = a.pagenum v := pagenum_of_shape ha.shape v
  have halt := hinv.objLt _ hq0 ha.idx
  have hsees := h.sees hinv halt (hh _ hq0 hla)
  rw [expect_forked, ha.flags, hpn]
  obtain ⟨hobj, -⟩ | ⟨-, hnew, -, hm, -⟩ := ha.obj
  · rw [hobj]
    exact hsees
  · refine .under ?_ (congrArg Mmobj.mmoShadowed hm) hsees
    cases hf : (afterFork m m' p pd' maps).pframeHash x.vmaObj (a.pagenum v) with
    | none => rfl
    | some f =>
      change m'.pframeHash _ _ = _ at hf
      rw [h.hash] at hf
      have := (hinv.chains.hash hf).1
      omega

end

/-- **A fork returns and keeps everything.** -/
theorem doFork_spec (hu : AnonAreas shapes) (hinv : CowInv shapes m) (hh : Holds hist m)
    (hp : p < m.nproc) (stale : Vmarea → Nat) :
    ∃ m', doFork m p stale = .ok m' ∧ CowInv shapes m' ∧ Holds (.forked p m.nproc :: hist) m' ∧
      m'.nproc = m.nproc + 1 := by
  have hmem : ∀ a ∈ (m.proc p).pVmmap, a.shape ∈ shapes := by
    intro a ha
    rw [← hinv.shape p hp]
    exact mem_map_of_mem ha
  obtain ⟨m', pd', maps, heq, h⟩ := forkLoop_spec stale (m.proc p).pVmmap m (m.proc p).pPagedir
    (fun a ha => ⟨hu.wellFormed.nonempty a.shape (hmem a ha), hu.user a.shape (hmem a ha)⟩)
    fun a ha => hu.flags a.shape (hmem a ha)
  refine ⟨afterFork m m' p pd' maps, ?_, h.cowInv hinv hp hu, h.holds hinv hp hu hh, rfl⟩
  simp only [doFork, heq, ok_bind, pure_eq_ok]
  simp only [afterFork, Memory.setProc, h.nproc]

end

end Weenix.Vm
