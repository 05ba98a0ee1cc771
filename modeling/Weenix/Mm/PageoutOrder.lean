/-
# In which order pages are paged out (`pageoutd_run` in `mm/pframe.c`)

`pageoutd_run` takes the head of `alloc_list`.  A frame comes to the end of that list when it is
allocated, when `pframe_get_resident` finds it and when its last pin is taken away, so that the head
is the frame for which this was longest ago.  To say so, a history of calls keeps the time at which
each frame was last used (`History`); `alloc_list` is sorted by it after every history (`SortedBy`).

A pass of the inner loop with nothing else running is `pageoutPass`: `page_free_count()` then grows
by one with every `pframe_free`.  The rounds are those of `pageoutdLoop`.  A frame that is dirty
takes two rounds, and the first of them leaves the list as it is.
-/
import Weenix.Mm.PframeInv

namespace Weenix.PageCache

open Filing List

/-! ## 1. Histories -/

/-- The page cache, the number of calls so far, and in which of them a frame was last allocated,
requested or unpinned. -/
structure History where
  sys : PframeSys
  clock : Nat
  last : Nat → Nat

def History.start : History := ⟨pframeInit, 0, fun _ => 0⟩

def historyLegal (h : History) (c : PframeCall) : Prop := pframeLegal h.sys c
deriving Decidable

/-- The times after a call at `clock`. -/
def stamp (last : Nat → Nat) (clock : Nat) : Option Nat → Nat → Nat
  | some pf => update last pf clock
  | none => last

def historyStep (h : History) (c : PframeCall) : Except Halt History := do
  let t ← pframeStep h.sys c
  return ⟨t, h.clock + 1, stamp h.last h.clock (usedBy h.sys c)⟩

/-- The frames of `l` were last used in this order, all before `clock`. -/
structure SortedBy (last : Nat → Nat) (clock : Nat) (l : List Nat) : Prop where
  sorted : l.Pairwise fun x y => last x < last y
  before : ∀ x ∈ l, last x < clock

/-- A call puts at the end what it uses, and so keeps the order. -/
theorem SortedBy.requeued {last : Nat → Nat} {clock : Nat} {used : Option Nat} {l l' : List Nat}
    (h : SortedBy last clock l) (hmoved : Requeued used l l') :
    SortedBy (stamp last clock used) (clock + 1) l' := by
  obtain ⟨k, hsub, hnot, hl'⟩ := hmoved
  have hk : SortedBy last clock k :=
    ⟨h.sorted.sublist hsub, fun x hx => h.before x (hsub.subset hx)⟩
  cases used with
  | none =>
    obtain rfl | ⟨pf, hpf, -⟩ := hl'
    · exact ⟨hk.sorted, fun x hx => Nat.lt_succ_of_lt (hk.before x hx)⟩
    · cases hpf
  | some pf =>
    have hself : stamp last clock (some pf) pf = clock := update_self ..
    have hsame : ∀ x ∈ k, stamp last clock (some pf) x = last x := by
      intro x hx
      have hne : x ≠ pf := fun heq => hnot pf rfl (heq ▸ hx)
      exact update_of_ne hne ..
    have hsorted : k.Pairwise fun x y =>
      stamp last clock (some pf) x < stamp last clock (some pf) y :=
      hk.sorted.imp_of_mem fun {x y} hx hy hlt => by rwa [hsame x hx, hsame y hy]
    have hbefore : ∀ x ∈ k, stamp last clock (some pf) x < clock := fun x hx =>
      (hsame x hx).symm ▸ hk.before x hx
    obtain rfl | ⟨_, ⟨⟩, rfl⟩ := hl'
    · exact ⟨hsorted, fun x hx => Nat.lt_succ_of_lt (hbefore x hx)⟩
    · refine ⟨pairwise_append.mpr ⟨hsorted, pairwise_singleton .., fun x hx y hy => ?_⟩,
        fun x hx => ?_⟩
      · rw [mem_singleton.mp hy, hself]
        exact hbefore x hx
      · obtain hx | hx := mem_append.mp hx
        · exact Nat.lt_succ_of_lt (hbefore x hx)
        · rw [mem_singleton.mp hx, hself]
          exact Nat.lt_succ_self clock

theorem historyRun_inv {h : History} (hrun : Lts.Run historyLegal historyStep .start h) :
    PframeInv h.sys ∧ SortedBy h.last h.clock (h.sys.lists .alloc) := by
  refine Lts.Run.invariant (I := fun h : History => PframeInv h.sys ∧
    SortedBy h.last h.clock (h.sys.lists .alloc))
    ⟨pframeInv_init, .nil, fun _ hx => absurd hx not_mem_nil⟩ ?_ hrun
  rintro h c u ⟨hinv, hsorted⟩ hl hstep
  obtain ⟨t, ht, hu⟩ := bind_eq_ok hstep
  cases hu
  obtain ⟨t', ht', hinv', hmoved⟩ := pframeStep_spec hinv hl (pframeStep_asserts hinv hl ht)
  cases ht.symm.trans ht'
  exact ⟨hinv', hsorted.requeued hmoved⟩

/-! ## 2. A pass of the daemon -/

/-- What a round does with the frame at the head of the list. -/
inductive Act where
  | clean (pf : Nat)
  | free (pf : Nat)
deriving DecidableEq

section
variable (ret : Nat → Int) (target : Nat)

/-- The inner loop of `pageoutd_run` when nothing else runs, with at most `fuel` rounds; `free` is
`page_free_count()` and `ret` is what `cleanpage` returns.  A busy frame would be waited for. -/
def pageoutPass : Nat → PframeSys → Nat → Except Halt (PframeSys × Nat × List Act)
  | 0, _, _ => .error .hang
  | fuel + 1, s, free =>
    if target ≤ free then .ok (s, free, [])
    else match s.lists .alloc with
      | [] => .ok (s, free, [])
      | pf :: _ =>
        if (s.pframe pf).busy then .error .hang
        else if (s.pframe pf).dirty then do
          let s ← pframeClean s pf (ret pf)
          let (t, n, acts) ← pageoutPass fuel s free
          return (t, n, .clean pf :: acts)
        else do
          let s ← pframeFree s pf
          let (t, n, acts) ← pageoutPass fuel s (free + 1)
          return (t, n, .free pf :: acts)

/-- What the rounds of `pageoutdLoop` see in a pass that does this. -/
def Act.round : Act → Round
  | .clean pf => ⟨false, ret pf⟩
  | .free _ => ⟨false, 0⟩

/-- How a frame is given back: when it is dirty, it is cleaned first. -/
def reclaim (s : PframeSys) (pf : Nat) : List Act :=
  if (s.pframe pf).dirty then [.clean pf, .free pf] else [.free pf]

/-- The frames `out` are given back one after the other, and then `rest` is on `alloc_list`. -/
structure Reclaims (s : PframeSys) (free : Nat) (fuel : Nat) (out rest : List Nat) (t : PframeSys) :
    Prop where
  pass : pageoutPass ret target fuel s free = .ok (t, free + out.length, out.flatMap (reclaim s))
  loop : pageoutdLoop s ((out.flatMap (reclaim s)).map (Act.round ret)) = .ok t
  alloc : t.lists .alloc = rest
  pinned : t.lists .pinned = s.lists .pinned
  gone : ∀ pf ∈ out, (t.pframe pf).pfObj = none
  kept : ∀ pf ∉ out, t.pframe pf = s.pframe pf

variable {ret target}

theorem Reclaims.nil {s : PframeSys} {free fuel : Nat} {alloc : List Nat}
    (halloc : s.lists .alloc = alloc)
    (hstop : target ≤ free ∨ alloc = []) : Reclaims ret target s free (fuel + 1) [] alloc s := by
  refine ⟨?_, rfl, halloc, rfl, nofun, fun _ _ => rfl⟩
  rw [pageoutPass]
  obtain htarget | rfl := hstop
  · exact if_pos htarget
  · rw [halloc]
    exact ite_self _

section
variable {s t t₁ : PframeSys} {free fuel pf : Nat} {out rest rest' : List Nat}

/-- The other frames are given back as they would have been before a round for `pf`. -/
theorem flatMap_reclaim (hkept : ∀ x ≠ pf, t.pframe x = s.pframe x) (hnot : pf ∉ out) :
    out.flatMap (reclaim t) = out.flatMap (reclaim s) := by
  refine flatMap_congr fun x hx => ?_
  rw [reclaim, reclaim, hkept x fun heq => hnot (heq ▸ hx)]

section
variable (h : PframeInv s) (halloc : s.lists .alloc = pf :: rest) (hlt : ¬ target ≤ free)
  (hnot : pf ∉ out)
include h halloc hlt hnot

theorem Reclaims.after_free (hclean : (s.pframe pf).dirty = false)
    (hfree : pframeFree s pf = .ok t₁)
    (hlists : t₁.lists = unfile s.lists pf)
    (hframe : t₁.pframe = update s.pframe pf { s.pframe pf with pfObj := none })
    (hrest : Reclaims ret target t₁ (free + 1) fuel out rest' t) :
    Reclaims ret target s free (fuel + 1) (pf :: out) rest' t := by
  obtain ⟨hres, hpin, hbusy⟩ := h.of_mem_alloc (halloc ▸ mem_cons_self ..)
  have hbusy : ¬ (s.pframe pf).busy := Bool.eq_false_iff.mp hbusy
  have hdirty : ¬ (s.pframe pf).dirty := Bool.eq_false_iff.mp hclean
  have hkept : ∀ x ≠ pf, t₁.pframe x = s.pframe x := fun x hx => by rw [hframe, update_of_ne hx]
  have hacts : (pf :: out).flatMap (reclaim s) = .free pf :: out.flatMap (reclaim t₁) := by
    rw [flatMap_cons, flatMap_reclaim hkept hnot, reclaim, if_neg hdirty]
    rfl
  refine ⟨?_, ?_, hrest.alloc, ?_, ?_, ?_⟩
  · rw [pageoutPass, if_neg hlt, halloc]
    dsimp only
    rw [if_neg hbusy, if_neg hdirty, hfree, ok_bind, hrest.pass, hacts, length_cons, Nat.add_assoc,
      Nat.add_comm 1]
    rfl
  · rw [hacts, map_cons, pageoutdLoop, if_neg (by simp [Act.round]), halloc]
    dsimp only
    rw [if_neg hbusy, if_neg hdirty, hfree, ok_bind, hrest.loop]
  · rw [hrest.pinned, hlists]
    refine erase_of_not_mem fun hmem => ?_
    have hkey := (h.lists.mem .pinned pf).mp hmem
    rw [listKey_of_unpinned hres hpin] at hkey
    cases hkey
  · refine forall_mem_cons.mpr ⟨?_, hrest.gone⟩
    rw [hrest.kept pf hnot, hframe, update_self]
  · intro x hx
    rw [hrest.kept x (not_mem_of_not_mem_cons hx), hkept x (ne_of_not_mem_cons hx)]

theorem Reclaims.after_clean (hdirty : (s.pframe pf).dirty) (hret : 0 ≤ ret pf)
    (ht₁ : t₁ = s.setPframe pf { s.pframe pf with busy := false, dirty := false })
    (hrest : Reclaims ret target t₁ free fuel (pf :: out) rest' t) :
    Reclaims ret target s free (fuel + 1) (pf :: out) rest' t := by
  obtain ⟨-, hpin, hbusy⟩ := h.of_mem_alloc (halloc ▸ mem_cons_self ..)
  have hbusy : ¬ (s.pframe pf).busy := Bool.eq_false_iff.mp hbusy
  have hcall := pframeClean_eq hdirty hpin (ret pf)
  rw [decide_eq_false (Int.not_lt.mpr hret), ← ht₁] at hcall
  have hkept : ∀ x ≠ pf, t₁.pframe x = s.pframe x := fun x hx => ht₁ ▸ update_of_ne hx ..
  have hacts : (pf :: out).flatMap (reclaim s) = .clean pf :: (pf :: out).flatMap (reclaim t₁) := by
    rw [flatMap_cons, flatMap_cons, flatMap_reclaim hkept hnot, reclaim, if_pos hdirty, reclaim,
      ht₁, pframe_setPframe]
    rfl
  refine ⟨?_, ?_, hrest.alloc, hrest.pinned.trans (by rw [ht₁]; rfl), hrest.gone, fun x hx => ?_⟩
  · rw [pageoutPass, if_neg hlt, halloc]
    dsimp only
    rw [if_neg hbusy, if_pos hdirty, hcall, ok_bind, hrest.pass, hacts]
    rfl
  · rw [hacts, map_cons, pageoutdLoop, if_neg (by simp [Act.round]), halloc]
    dsimp only
    rw [if_neg hbusy, if_pos hdirty]
    change (pframeClean s pf (ret pf) >>= _) = _
    rw [hcall, ok_bind, hrest.loop]
  · rw [hrest.kept x hx, hkept x (ne_of_not_mem_cons hx)]

end

end

/-- A pass gives back the first frames of `alloc_list`, as many as are missing. -/
theorem pageoutPass_spec (hret : ∀ pf, 0 ≤ ret pf) (alloc : List Nat) :
    ∀ {s : PframeSys} {free fuel : Nat}, PframeInv s → s.lists .alloc = alloc →
      2 * alloc.length < fuel →
      ∃ t, Reclaims ret target s free fuel (alloc.take (target - free))
      (alloc.drop (target - free)) t := by
  induction alloc with
  | nil =>
    intro s free fuel _ halloc hfuel
    obtain ⟨fuel, rfl⟩ := Nat.exists_eq_succ_of_ne_zero hfuel.ne'
    rw [take_nil, drop_nil]
    exact ⟨s, .nil halloc (.inr rfl)⟩
  | cons pf rest ih =>
    -- the rounds for a frame that is clean; a dirty one has a round before these
    have hfree : ∀ {s : PframeSys} {free fuel : Nat}, PframeInv s → s.lists .alloc = pf :: rest →
        (s.pframe pf).dirty = false → ¬ target ≤ free → 2 * rest.length < fuel →
        ∃ t, Reclaims ret target s free (fuel + 1) (pf :: rest.take (target - (free + 1)))
          (rest.drop (target - (free + 1))) t := by
      intro s free fuel h halloc hclean hlt hfuel
      obtain ⟨hres, hpin, -⟩ := h.of_mem_alloc (halloc ▸ mem_cons_self ..)
      obtain ⟨t₁, ht, hinv, hlists, hframe⟩ := pframeFree_spec h hres hpin
      have hnot : pf ∉ rest := (nodup_cons.mp (halloc ▸ h.lists.nodup .alloc)).1
      have halloc₁ : t₁.lists .alloc = rest := by
        rw [hlists, unfile, halloc, erase_cons_head]
      obtain ⟨t, hrest⟩ := @ih t₁ (free + 1) fuel hinv halloc₁ hfuel
      exact ⟨t, .after_free h halloc hlt (fun hmem =>
        hnot (mem_of_mem_take hmem)) hclean ht hlists hframe hrest⟩
    intro s free fuel h halloc hfuel
    obtain ⟨fuel, rfl⟩ := Nat.exists_eq_succ_of_ne_zero (show fuel ≠ 0 by omega)
    by_cases hlt : target ≤ free
    · rw [Nat.sub_eq_zero_of_le hlt, take_zero, drop_zero]
      exact ⟨s, .nil halloc (.inl hlt)⟩
    rw [length_cons] at hfuel
    rw [show target - free = target - (free + 1) + 1 by omega, take_succ_cons, drop_succ_cons]
    cases hdirty : (s.pframe pf).dirty with
    | false => exact hfree h halloc hdirty hlt (by omega)
    | true =>
      obtain ⟨fuel, rfl⟩ := Nat.exists_eq_succ_of_ne_zero (show fuel ≠ 0 by omega)
      have hnot : pf ∉ rest := (nodup_cons.mp (halloc ▸ h.lists.nodup .alloc)).1
      obtain ⟨t, hrest⟩ :=
        @hfree _ _ fuel (h.setFlags pf false) halloc (by rw [pframe_setPframe]) hlt (by omega)
      exact ⟨t, .after_clean h halloc hlt (fun hmem =>
        hnot (mem_of_mem_take hmem)) hdirty (hret pf) rfl hrest⟩

end

/-- **Page-out order.**  After every history of calls `alloc_list` holds the resident frames that
are not pinned, in the order in which they were last used.  A pass of the daemon ends, after two
rounds for a frame at most: it gives back the first frames of the list, each cleaned before if it is
dirty, until the target is met or the list is empty; the other frames stay as they are. -/
theorem pageout_order {h : History} (hrun : Lts.Run historyLegal historyStep .start h)
    {ret : Nat → Int}
    (hret : ∀ pf, 0 ≤ ret pf) (target free : Nat) :
    (h.sys.lists .alloc).Pairwise (fun x y => h.last x < h.last y) ∧
    (∀ pf, pf ∈ h.sys.lists .alloc ↔
      (h.sys.pframe pf).pfObj.isSome ∧ (h.sys.pframe pf).pfPincount = 0) ∧
    ∀ fuel, 2 * (h.sys.lists .alloc).length < fuel → ∃ t,
      Reclaims ret target h.sys free fuel ((h.sys.lists .alloc).take (target - free))
        ((h.sys.lists .alloc).drop (target - free)) t := by
  obtain ⟨hinv, hsorted⟩ := historyRun_inv hrun
  refine ⟨hsorted.sorted, fun pf =>
    ⟨fun hpf => (hinv.of_mem_alloc hpf).imp_right And.left, fun hpf => ?_⟩,
    fun fuel hfuel => pageoutPass_spec hret _ hinv rfl hfuel⟩
  exact (hinv.lists.mem .alloc pf).mpr (listKey_of_unpinned hpf.1 hpf.2)

/-- Three pages are requested, the first one once more; the second one is dirty. -/
def threeRequests : List PframeCall :=
  [.newObj 100, .get 100 1 ⟨9, [], some 41, some 4096⟩, .get 100 2 ⟨9, [], some 42, some 8192⟩,
    .get 100 3 ⟨9, [], some 43, some 12288⟩, .get 100 1 ⟨9, [], none, none⟩, .dirty 42 0]

/-- With two pages missing, the second page is cleaned and freed and then the third one; the
first stays. -/
theorem pageout_order_three : ∃ h t, Lts.Run historyLegal historyStep .start h ∧
    pageoutPass (fun _ => 0) 8 7 h.sys 6 = .ok (t, 8, [.clean 42, .free 42, .free 43]) ∧
    t.lists .alloc = [41] := by
  obtain ⟨h, hrun, halloc, hdirty, hclean⟩ : ∃ h, Lts.Run historyLegal historyStep .start h ∧
      h.sys.lists .alloc = [42, 43, 41] ∧ (h.sys.pframe 42).dirty ∧
        (h.sys.pframe 43).dirty = false :=
    Lts.exists_run threeRequests (by decide +kernel)
  obtain ⟨t, ht⟩ := (pageout_order hrun (fun _ => Int.le_refl 0) 8 6).2.2 7 (by rw [halloc]; decide)
  refine ⟨h, t, hrun, ?_, by rw [ht.alloc, halloc]; rfl⟩
  rw [ht.pass, halloc]
  simp [reclaim, hdirty, hclean]

end Weenix.PageCache
