/-
# Walking a list of slabs

The two loops over the slabs of a cache.  `slab_obj_alloc` looks for the first slab that is not full
(`findSlab_spec`).  `slab_allocators_reclaim` takes out slabs without objects in use as it goes:
`kept` are the slabs behind it and `rest` those before it, and what one round does to them is
`Swept.keep` or `Swept.remove`.
-/
import Weenix.Mm.SlabInv

namespace Weenix.Slab

open Bytes Bytes.Mem Weenix.Page List

variable {gone : List Nat} {npages x : Nat} {r r' : Reclaim}

def DescsApart (slabs : List Nat) : Prop := slabs.Pairwise fun x y => x + 16 ≤ y ∨ y + 16 ≤ x

theorem DescsApart.of_mem {l l' : List Nat} (h : DescsApart (l ++ l')) {y : Nat} (hx : x ∈ l)
    (hy : y ∈ l') : x + 16 ≤ y ∨ y + 16 ≤ x := (pairwise_append.mp h).2.2 x hx y hy

theorem filter_notMem_nil {α : Type} [BEq α] [LawfulBEq α] (l : List α) : l.filter (· ∉ []) = l :=
  filter_eq_self.mpr fun _ _ => decide_eq_true not_mem_nil

section
variable {m : Mem} {nobjs fuel s : Nat} {slabs kept rest : List Nat}

/-- `slab_obj_alloc` finds the first slab that is not full, or that there is none. -/
theorem findSlab_spec (nobjs : Nat) (h : Linked m 0 s slabs) (hfuel : slabs.length < fuel) :
    (findSlab m nobjs fuel s = .ok 0 ∧ ∀ x ∈ slabs, m.word (x + 4) = nobjs) ∨
      ∃ x ∈ slabs, findSlab m nobjs fuel s = .ok x ∧ m.word (x + 4) ≠ nobjs := by
  induction slabs generalizing s fuel with
  | nil =>
    obtain ⟨rfl, -⟩ | ⟨-, _, hnil, -⟩ := h.inv
    · obtain ⟨fuel, rfl⟩ : ∃ n, fuel = n + 1 := ⟨fuel - 1, by omega⟩
      exact .inl ⟨if_pos rfl, nofun⟩
    · cases hnil
  | cons x slabs ih =>
    obtain ⟨rfl, hpos, hrest⟩ := h.cons_inv
    obtain ⟨fuel, rfl⟩ : ∃ n, fuel = n + 1 := ⟨fuel - 1, by omega⟩
    rw [findSlab, if_neg hpos]
    by_cases hfull : m.word (s + 4) = nobjs
    · rw [if_pos hfull]
      obtain ⟨hnone, hall⟩ | ⟨x, hx, hfind, hx'⟩ := ih hrest (Nat.lt_of_succ_lt_succ hfuel)
      · exact .inl ⟨hnone, forall_mem_cons.mpr ⟨hfull, hall⟩⟩
      · exact .inr ⟨x, .tail _ hx, hfind, hx'⟩
    · rw [if_neg hfull]
      exact .inr ⟨s, .head _, rfl, hfull⟩

/-- The list then leads past the slab after `kept`. -/
theorem unlink_spec (hseg : Seg r.mem 0 r.saSlabs kept x)
    (hapart : DescsApart (kept ++ x :: rest)) {next : Nat} (hnext : next < 2 ^ 32) :
    Seg (unlink r kept.getLast? next).mem 0 (unlink r kept.getLast? next).saSlabs kept next ∧
      (∀ y, (∀ z ∈ kept, y < z ∨ z + 4 ≤ y) → (unlink r kept.getLast? next).mem y = r.mem y) ∧
      (unlink r kept.getLast? next).npagesFreed = r.npagesFreed ∧
      (unlink r kept.getLast? next).released = r.released := by
  obtain rfl | ⟨kept, last, rfl⟩ := kept.eq_nil_or_concat
  · exact ⟨.nil next, fun _ _ => rfl, rfl, rfl⟩
  · rw [concat_eq_append] at *
    rw [getLast?_concat]
    refine ⟨?_, fun y hy => ?_, rfl, rfl⟩
    · have hinner := (pairwise_append.mp hapart).1
      refine hseg.retarget hnext fun z hz => ?_
      have hz := (pairwise_append.mp hinner).2.2 z hz last (mem_singleton_self _)
      omega
    · exact setWord_of_not_mem (hy last (mem_append_right _ (mem_singleton_self _)))

/-- From `r` to `r'` the slabs `gone`, none with an object in use, were taken out of `rest`; the
others are linked in order, after those of `kept`. -/
structure Swept (npages : Nat) (kept rest : List Nat) (r r' : Reclaim) (gone : List Nat) :
    Prop where
  sub : gone.Sublist rest
  empty : ∀ x ∈ gone, r.mem.word (x + 4) = 0
  released : r'.released = r.released ++ gone.map fun x => (r.mem.word (x + 12), npages)
  freed : r'.npagesFreed = r.npagesFreed + gone.length * npages
  linked : Linked r'.mem 0 r'.saSlabs (kept ++ rest.filter (· ∉ gone))
  same : ∀ y, (∀ x ∈ kept ++ rest, y < x ∨ x + 4 ≤ y) → r'.mem y = r.mem y

theorem Swept.stop (hseg : Seg r.mem 0 r.saSlabs kept s)
    (hlist : Linked r.mem 0 s rest) : Swept npages kept rest r r [] where
  sub := nil_sublist _
  empty := nofun
  released := by rw [map_nil, append_nil]
  freed := by rw [length_nil, Nat.zero_mul, Nat.add_zero]
  linked := by
    rw [filter_notMem_nil]
    exact hseg.append hlist
  same _ _ := rfl

theorem Swept.keep (hself : s ∉ rest)
    (h : Swept npages (kept ++ [s]) rest r r' gone) : Swept npages kept (s :: rest) r r' gone where
  __ := h
  sub := h.sub.cons s
  linked := by
    have hs : s ∉ gone := fun hmem => hself (h.sub.subset hmem)
    have hlinked := h.linked
    rw [append_assoc, singleton_append] at hlinked
    rwa [filter_cons_of_pos (by simpa using hs)]
  same y hy := h.same y (by rwa [append_assoc, singleton_append])

theorem Swept.remove {u : Reclaim} (hself : s ∉ rest)
    (hapart : DescsApart (kept ++ s :: rest)) (hempty : r.mem.word (s + 4) = 0)
    (hsame : ∀ y, (∀ z ∈ kept, y < z ∨ z + 4 ≤ y) → u.mem y = r.mem y)
    (hfreed : u.npagesFreed = r.npagesFreed + npages)
    (hreleased : u.released = r.released ++ [(r.mem.word (s + 12), npages)])
    (h : Swept npages kept rest u r' gone) : Swept npages kept (s :: rest) r r' (s :: gone) := by
  have hword : ∀ x ∈ gone, ∀ k, 4 ≤ k → k ≤ 12 → u.mem.word (x + k) = r.mem.word (x + k) := by
    intro x hx k hle hlt
    refine word_congr fun y hy hy' => hsame y fun z hz => ?_
    have hpair := hapart.of_mem hz (.tail _ (h.sub.subset hx))
    omega
  refine ⟨h.sub.cons_cons s, ?_, ?_, ?_, ?_, ?_⟩
  · refine forall_mem_cons.mpr ⟨hempty, fun x hx => ?_⟩
    rw [← hword x hx 4 (by decide) (by decide), h.empty x hx]
  · rw [h.released, hreleased, append_assoc, singleton_append, map_cons]
    congr 2
    refine map_congr_left fun x hx => ?_
    rw [hword x hx 12 (by decide) (by decide)]
  · rw [h.freed, hfreed, length_cons, Nat.succ_mul]
    omega
  · have hfilter : (s :: rest).filter (· ∉ s :: gone) = rest.filter (· ∉ gone) := by
      rw [filter_cons_of_neg (by simp)]
      refine filter_congr fun x hx => ?_
      have hne : x ≠ s := fun heq => hself (heq ▸ hx)
      simp [hne]
    rw [hfilter]
    exact h.linked
  · intro y hy
    rw [h.same y fun x hx => hy x ?_, hsame y fun z hz => hy z (mem_append_left _ hz)]
    obtain hx | hx := mem_append.mp hx
    · exact mem_append_left _ hx
    · exact mem_append_right _ (.tail _ hx)

/-- **The loop over the slabs of a cache.** -/
theorem reclaimSlabs_spec (target : Int) (npages : Nat)
    (hseg : Seg r.mem 0 r.saSlabs kept s) (hlist : Linked r.mem 0 s rest)
    (hapart : DescsApart (kept ++ rest))
    (hfuel : rest.length < fuel) :
    ∃ r' met gone, reclaimSlabs target npages fuel kept.getLast? s r = .ok (r', met) ∧
      Swept npages kept rest r r' gone := by
  induction fuel generalizing kept rest s r with
  | zero => exact absurd hfuel (Nat.not_lt_zero _)
  | succ fuel ih =>
    obtain ⟨rfl, rfl⟩ | ⟨hs, rest, rfl, hrest⟩ := hlist.inv
    · exact ⟨r, false, [], by rw [reclaimSlabs, if_pos rfl], .stop hseg hlist⟩
    rw [Nat.add_zero] at hrest
    have hfuel' : rest.length < fuel := Nat.lt_of_succ_lt_succ hfuel
    have htail := pairwise_cons.mp (pairwise_append.mp hapart).2.1
    have hself : s ∉ rest := fun hmem => by
      have hpair := htail.1 s hmem
      omega
    rw [reclaimSlabs, if_neg hs]
    by_cases hempty : r.mem.word (s + 4) = 0
    · obtain ⟨hseg', hsame, hfreed, hreleased⟩ := unlink_spec hseg hapart (word_lt r.mem s)
      have haddr : (unlink r kept.getLast? (r.mem.word s)).mem.word (s + 12) =
          r.mem.word (s + 12) := by
        refine word_congr fun y hy _ => hsame y fun z hz => ?_
        have hpair := hapart.of_mem hz (.head _)
        omega
      have hrest' : Linked (unlink r kept.getLast? (r.mem.word s)).mem 0 (r.mem.word s) rest := by
        refine Seg.congr hrest fun x hx => word_congr fun y hy hy' => hsame y fun z hz => ?_
        have hpair := hapart.of_mem hz (.tail _ hx)
        omega
      simp only [if_pos hempty, haddr]
      generalize unlink r kept.getLast? (r.mem.word s) = u at *
      have hremove : ∀ {r' gone}, Swept npages kept rest _ r' gone →
        Swept npages kept (s :: rest) r r' (s :: gone) :=
        Swept.remove (u := { u with
          npagesFreed := u.npagesFreed + npages
          released := u.released ++ [(r.mem.word (s + 12), npages)] })
          hself hapart hempty hsame (by rw [hfreed]) (by rw [hreleased])
      split
      · exact ⟨_, true, _, rfl, hremove (.stop hseg' hrest')⟩
      · have hapart' : DescsApart (kept ++ rest) := hapart.sublist
          (List.Sublist.append_left (sublist_cons_self s rest) kept)
        obtain ⟨r', met, gone, hloop, hswept⟩ := ih (r := { u with
          npagesFreed := u.npagesFreed + npages
          released := u.released ++ [(r.mem.word (s + 12), npages)] }) hseg' hrest' hapart' hfuel'
        exact ⟨r', met, _, hloop, hremove hswept⟩
    · simp only [if_neg hempty]
      have hseg' := hseg.snoc hs
      rw [Nat.add_zero] at hseg'
      split
      · exact ⟨r, true, [], rfl, .keep hself (.stop hseg' hrest)⟩
      · have hapart' : DescsApart ((kept ++ [s]) ++ rest) := by
          rwa [append_assoc, singleton_append]
        obtain ⟨r', met, gone, hloop, hswept⟩ := ih hseg' hrest hapart' hfuel'
        rw [getLast?_concat] at hloop
        exact ⟨r', met, gone, hloop, hswept.keep hself⟩

end

end Weenix.Slab
