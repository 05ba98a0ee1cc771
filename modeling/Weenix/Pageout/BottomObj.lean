/-
# The bottom object of a shadow object (`mmo_bottom_obj`)

A shadow object stores the object at the end of its chain in `mmo_un.mmo_bottom_obj`, for
`mmobj_bottom_vmas` and with it `pframe_remove_from_pts`.  `vmmap_map` sets the pointer when it
makes a shadow object.  `do_fork` makes two for every private area and sets none.

`BottomKept` says that the chain of every live shadow object ends and that the pointer names its
end. It holds along every run whose calls are not left out by `keepsBottom` (`bottom_object`): no
fork of a process with a private area, no private mapping of a file whose object is itself a shadow
object, and no call that drops the last reference to an object some shadow object still shadows.
The first kind always breaks it.

Two kinds of facts carry the proof.  Chains survive a step that keeps the objects other objects
shadow (`BottomKept.keeps`), and a `put` keeps an object that has references left
(`mmobjPut_keeps`).
-/
import Weenix.Pageout.LastRelease
import Weenix.Pageout.ObjectCounts

namespace Weenix.Pageout

open List Option VmSys

open Weenix.Vm (Vmarea mapPrivate vmmapClone insertArea insertArea_perm insertSplit removeTail)

variable {a : MapArgs} {memobj n o pf q z : Nat} {f : Pframe} {x : Proc} {s : VmSys}

/-! ## 1. The pointer -/

/-- Every shadow object's chain ends, and `mmo_bottom_obj` is its end. -/
def BottomKept (s : VmSys) : Prop :=
  ∀ o x, s.mmobj o = some x → x.mmoOps = .shadow →
    ∃ l b, Path s o (l ++ [b]) ∧ x.mmoUn = .mmoBottomObj (some b)

/-- A live shadow object shadows `z`. -/
def Shadowed (s : VmSys) (z : Nat) : Prop := ∃ o un, s.shadowLink o = some (some z, un)

/-- No shadow object is new or changes, and the objects of `K` are as they were. -/
structure Keeps (K : Nat → Prop) (s t : VmSys) : Prop where
  old : ∀ {o r}, t.shadowLink o = some r → s.shadowLink o = some r
  kept : ∀ {z}, K z → t.shadowLink z = s.shadowLink z ∧ t.solid z = s.solid z

section
variable {K : Nat → Prop} {s t u : VmSys}

theorem Keeps.refl (s : VmSys) : Keeps K s s := ⟨id, fun _ => ⟨rfl, rfl⟩⟩

theorem Keeps.trans (h : Keeps K s t) (h' : Keeps K t u) : Keeps K s u :=
  ⟨fun ho => h.old (h'.old ho), fun hz =>
    ⟨(h'.kept hz).1.trans (h.kept hz).1, (h'.kept hz).2.trans (h.kept hz).2⟩⟩

theorem Keeps.of_same (h : ∀ q, t.shadowLink q = s.shadowLink q ∧ t.solid q = s.solid q) :
    Keeps K s t := ⟨fun {o _} ho => (h o).1 ▸ ho, fun {z} _ => h z⟩

theorem same_of_mmobj (h : t.mmobj q = s.mmobj q) :
    t.shadowLink q = s.shadowLink q ∧ t.solid q = s.solid q := by
  rw [shadowLink, solid, h]
  exact ⟨rfl, rfl⟩

theorem same_of_parts {x y : Mmobj} (hx : s.mmobj q = some x) (hy : t.mmobj q = some y)
    (hops : y.mmoOps = x.mmoOps)
    (hlink : x.mmoOps = .shadow → y.mmoShadowed = x.mmoShadowed ∧ y.mmoUn = x.mmoUn) :
    t.shadowLink q = s.shadowLink q ∧ t.solid q = s.solid q := by
  rw [shadowLink, shadowLink, solid, solid, hx, hy]
  simp only [bind_some, any_some, hops, and_true]
  split
  case isTrue h => rw [(hlink h).1, (hlink h).2]
  case isFalse => rfl

/-- A chain whose objects below the first are kept stays. -/
theorem Path.keeps (h : Keeps K s t) (hK : ∀ z, Shadowed s z → K z) :
    ∀ {o : Nat} {l : List Nat}, Path s o l →
      t.shadowLink o = s.shadowLink o ∧ t.solid o = s.solid o → Path t o l
  | _, [], hp, hsame => hsame.2.trans hp
  | o, z :: _, ⟨⟨un, hlink⟩, hrest⟩, hsame =>
    ⟨⟨un, hsame.1.trans hlink⟩, hrest.keeps h hK (h.kept (hK z ⟨o, un, hlink⟩))⟩

/-- **Chains survive a step that keeps what is shadowed.** -/
theorem BottomKept.keeps (hb : BottomKept s) (h : Keeps K s t) (hK : ∀ z, Shadowed s z → K z) :
    BottomKept t := by
  intro o y hy hops
  have hlink := shadowLink_of hy hops
  have hold := h.old hlink
  obtain ⟨x, hx, hxops, -, hun⟩ := exists_of_shadowLink hold
  obtain ⟨l, b, hpath, hbottom⟩ := hb o x hx hxops
  refine ⟨l, b, hpath.keeps h hK ⟨hlink.trans hold.symm, ?_⟩, hun ▸ hbottom⟩
  rw [Bool.eq_false_iff.mpr (not_solid_of_shadowLink hlink),
    Bool.eq_false_iff.mpr (not_solid_of_shadowLink hold)]

/-- **New objects.**  The old ones are as they were, and a new shadow object is on an old object
that is no shadow object. -/
theorem BottomKept.extend (hb : BottomKept s)
    (hold : ∀ {q x}, s.mmobj q = some x → t.shadowLink q = s.shadowLink q ∧ t.solid q = s.solid q)
    (hnew : ∀ {q r}, s.mmobj q = none → t.shadowLink q = some r →
      ∃ b, r = (some b, .mmoBottomObj (some b)) ∧ s.solid b = true) : BottomKept t := by
  intro o y hy hops
  have hlink := shadowLink_of hy hops
  cases hx : s.mmobj o with
  | none =>
    obtain ⟨b, hr, hsolid⟩ := hnew hx hlink
    obtain ⟨z, hz, -⟩ := solid_iff.mp hsolid
    exact ⟨[], b, ⟨⟨_, hr ▸ hlink⟩, (hold hz).2.trans hsolid⟩, (Prod.mk.inj hr).2⟩
  | some x =>
    have hsame := (hold hx).1
    rw [hlink] at hsame
    obtain ⟨x', hx', hxops, -, hun⟩ := exists_of_shadowLink hsame.symm
    obtain ⟨l, b, hpath, hbottom⟩ := hb o x' hx' hxops
    refine ⟨l, b, hpath.congr fun q hq => ?_, hun ▸ hbottom⟩
    obtain rfl | hq := mem_cons.mp hq
    · exact hold hx
    · obtain ⟨l', hl', -⟩ := hpath.tail_of_mem q hq
      obtain ⟨z, hz⟩ := hl'.exists
      exact hold hz

end

/-! ## 2. The object layer -/

/-- The references to an object that are not those of its pages. -/
def Mmobj.refs (x : Mmobj) : Int := x.mmoRefcount - x.mmoNrespages

section
variable {K : Nat → Prop} {s t : VmSys} {o : Nat}

theorem Upds.same {new : Bool} (h : Upds (fun _ => False) new s t) (q : Nat) :
    t.shadowLink q = s.shadowLink q ∧ t.solid q = s.solid q := by
  induction h with
  | refl => exact ⟨rfl, rfl⟩
  | @tail t u _ hu ih =>
    have hone : u.shadowLink q = t.shadowLink q ∧ u.solid q = t.solid q := by
      cases hu with
      | requeue | wake | fill | flags => exact ⟨rfl, rfl⟩
      | obj hp | dropObj hp | unlink hp => exact hp.elim
      | enter _ _ _ _ hx => exact enterFrame_shadowLink hx q
    exact ⟨hone.1.trans ih.1, hone.2.trans ih.2⟩

/-- `vput` frees the object or takes one reference off its count. -/
theorem mmobjPut_vnode {x : Mmobj} (hx : s.mmobj o = some x) (hops : x.mmoOps = .vnode)
    (fuel : Nat) :
    Yields (mmobjPut fuel s o) fun t => t.mmobj o = none ∧ x.refs = 1 ∨
      ∃ y, t.mmobj o = some y ∧ y.refs = x.refs - 1 := by
  cases fuel with
  | zero => exact .error _
  | succ fuel =>
    rw [mmobjPut]
    refine .bind (theObj_yields s o) fun x' hx' => ?_
    obtain rfl : x = x' := some.inj (hx.symm.trans hx')
    rw [hops]
    -- the loop over the pages is entered for the last reference only, and the assertions after
    -- it say so
    refine .seq fun _ => .seq fun _ => .bind (Q := fun t => t = s ∨
      x.refs = 1 ∧ ∀ y, t.mmobj o = some y → y.mmoRefcount = 1) ?_ fun t ht => ?_
    · refine .ite (fun hlast => .seq fun t => ?_) fun _ => .ok (.inl rfl)
      refine .bind (theObj_yields t o) fun y hy => .seq fun _ =>
        .bind (Q := fun _ => y.mmoRefcount = 1)
          (fun _ h => beq_iff_eq.mp (kassert_eq_ok h)) fun _ hone =>
          .pure (.inr ⟨?_, ?_⟩)
      · unfold Mmobj.refs
        omega
      · exact fun z hz => some.inj (hy.symm.trans hz) ▸ hone
    · refine .bind (theObj_yields t o) fun y hy => .ite (fun hmore => .pure ?_) fun hno =>
        .bind (Q := fun _ => y.mmoRefcount - 1 = 0) (fun _ h => beq_iff_eq.mp (kassert_eq_ok h))
          fun _ hone => .bind (Q := fun _ => y.mmoNrespages = 0)
            (fun _ h => beq_iff_eq.mp (kassert_eq_ok h)) fun _ hzero =>
              (slabFree_yields _ o).imp fun u hu => .inl ⟨hu, ?_⟩
      · obtain rfl | ⟨-, hone⟩ := ht
        · obtain rfl : x = y := some.inj (hx.symm.trans hy)
          refine .inr ⟨_, update_self .., ?_⟩
          change x.mmoRefcount - 1 - x.mmoNrespages = x.mmoRefcount - x.mmoNrespages - 1
          omega
        · have := hone y hy
          omega
      · obtain rfl | ⟨hrefs, -⟩ := ht
        · obtain rfl : x = y := some.inj (hx.symm.trans hy)
          unfold Mmobj.refs
          omega
        · exact hrefs

/-- An object that is put once, and only frees itself. -/
structure PutOnce (s t : VmSys) (o : Nat) : Prop where
  others : ∀ {q}, q ≠ o → t.mmobj q = s.mmobj q
  same : ∀ {y}, t.mmobj o = some y → t.shadowLink o = s.shadowLink o ∧ t.solid o = s.solid o
  refs : ∀ {x}, s.mmobj o = some x → t.mmobj o = none ∧ x.refs = 1 ∨ ∃ y, t.mmobj o = some y ∧
    y.refs = x.refs - 1

theorem mmobjPut_once (hw : Wf s) (o fuel : Nat) :
    Yields (mmobjPut fuel s o) fun t => PutOnce s t o := by
  intro t ht
  have hd := mmobjPut_dropped hw o fuel t ht
  obtain ⟨x, hx⟩ := hd.live
  have hthe : ∀ {x'}, s.mmobj o = some x' → x = x' := fun h => some.inj (hx.symm.trans h)
  refine ⟨fun {q} hq => hd.others q hq, fun {y} hy => ?_, fun {x'} hx' => ?_⟩
  · refine same_of_parts hx hy (hd.vnode hx hy) fun hops => ?_
    obtain hy' | ⟨hnone, -⟩ := hd.self hx (by rw [hops]; nofun)
    · obtain rfl := some.inj (hy'.symm.trans hy)
      exact ⟨rfl, rfl⟩
    · rw [hnone] at hy
      cases hy
  · obtain rfl := hthe hx'
    by_cases hops : x.mmoOps = .vnode
    · exact mmobjPut_vnode hx hops fuel t ht
    · obtain hy | ⟨hnone, hlast, -⟩ := hd.self hx hops
      · refine .inr ⟨_, hy, ?_⟩
        change x.mmoRefcount - 1 - x.mmoNrespages = x.mmoRefcount - x.mmoNrespages - 1
        omega
      · exact .inl ⟨hnone, hlast⟩

/-- **A `put` keeps an object that has other references.** -/
theorem PutOnce.keeps (h : PutOnce s t o) (hK : K o → ∀ x, s.mmobj o = some x → 1 < x.refs) :
    Keeps K s t := by
  constructor
  · intro q r hr
    by_cases hq : q = o
    · subst hq
      obtain ⟨y, hy, -⟩ := exists_of_shadowLink hr
      rw [← (h.same hy).1, hr]
    · rw [← (same_of_mmobj (h.others hq)).1, hr]
  · intro z hz
    by_cases hzo : z = o
    · subst hzo
      cases hy : t.mmobj z with
      | some y => exact h.same hy
      | none =>
        cases hx : s.mmobj z with
        | none => exact same_of_mmobj (hy.trans hx.symm)
        | some x =>
          obtain ⟨-, hone⟩ | ⟨y, hy', -⟩ := h.refs hx
          · have := hK hz x hx
            omega
          · rw [hy] at hy'
            cases hy'
    · exact same_of_mmobj (h.others hzo)

theorem unlinkFrame_same (pf : Nat) {x : Mmobj} (hx : s.mmobj f.pfObj = some x) (q : Nat) :
    (unlinkFrame s pf f x).shadowLink q = s.shadowLink q ∧
      (unlinkFrame s pf f x).solid q = s.solid q := by
  by_cases hq : q = f.pfObj
  · subst hq
    exact same_of_parts hx (unlinkFrame_self s pf f x) rfl fun _ => ⟨rfl, rfl⟩
  · exact same_of_mmobj (update_of_ne hq ..)

section
variable (hw : Wf s) (hf : s.pframe pf = some f)
  (hK : K f.pfObj → ∀ x, s.mmobj f.pfObj = some x → 0 < x.refs)
include hw hf hK

theorem pframeFree_keeps (fuel : Nat) : Yields (pframeFree fuel s pf) (Keeps K s) := by
  cases fuel with
  | zero => exact .error _
  | succ fuel =>
    rw [pframeFree]
    refine .bind (theFrame_yields s pf) fun f' hf' => .seq fun _ => .seq fun _ => ?_
    obtain rfl : f = f' := some.inj (hf.symm.trans hf')
    refine .bind (pframeRemoveFromPts_yields hw pf) ?_
    rintro _ rfl
    refine .bind (theObj_yields _ _) fun x hx => ?_
    refine (mmobjPut_once (hw.unlink hf hx) _ _).imp fun t ht =>
      (Keeps.of_same (unlinkFrame_same pf hx)).trans (ht.keeps fun hz y hy => ?_)
    rw [unlinkFrame_self] at hy
    cases hy
    have := hK hz x hx
    change 0 < x.mmoRefcount - x.mmoNrespages at this
    change 1 < x.mmoRefcount - (x.mmoNrespages - 1)
    omega

theorem pframeClean_keeps (fuel : Nat) : Yields (pframeClean fuel s pf) (Keeps K s) := by
  cases fuel with
  | zero => exact .error _
  | succ fuel =>
    have hof : OfObj s f.pfObj pf := fun i hi => by
      rw [ident_of hf] at hi
      cases hi
      rfl
    by_cases hshadow : ∃ x, s.mmobj f.pfObj = some x ∧ x.mmoOps = .shadow
    · obtain ⟨x, hx, hops⟩ := hshadow
      by_cases hclean : f.pfDirty = true ∧ f.pfPincount = 0
      · obtain ⟨l, heq⟩ := pframeClean_shadow hw hf hclean.2 hx hclean.1 hops fuel
        have hu : Upds (fun _ => False) false s (s.relist l pf f.cleaned) := cleaned_upds hf l
        rw [heq]
        refine .seq fun _ => (pframeFree_keeps (f := f.cleaned) (hu.wf hw) (update_self ..) hK
          fuel).imp fun t ht => (Keeps.of_same (Upds.same hu)).trans ht
      · rw [pframeClean]
        refine .bind (theFrame_yields s pf) fun f' hf' =>
          .bind (Q := fun _ => f'.pfDirty = true) (fun _ h => kassert_eq_ok h) fun _ hdirty =>
          .bind (Q := fun _ => f'.pfPincount = 0) (fun _ h => beq_iff_eq.mp (kassert_eq_ok h))
            fun _ hpin => ?_
        obtain rfl : f = f' := some.inj (hf.symm.trans hf')
        exact absurd ⟨hdirty, hpin⟩ hclean
    · refine (pframeClean_upds (P := fun _ => False) (putSpec fuel) hw hof fun x hx hops => ?_).imp
        fun t ht => Keeps.of_same (Upds.same ht)
      exact hshadow ⟨x, hx, hops⟩

end

/-- **A round of the daemon** keeps what it does not free. -/
theorem pageoutdRun_keeps (hw : Wf s) (hK : ∀ pf f, s.allocList.head? = some pf →
      s.pframe pf = some f → K f.pfObj → ∀ x, s.mmobj f.pfObj = some x → 0 < x.refs) :
    Yields (pageoutdRun s) (Keeps K s) := by
  refine .ite (fun _ => ?_) fun _ => .ok (.of_same fun _ => ⟨rfl, rfl⟩)
  split
  case h_1 => exact .ok (.of_same fun _ => ⟨rfl, rfl⟩)
  case h_2 pf rest hlist =>
    refine .bind (theFrame_yields s pf) fun f hf => ?_
    have hhead : s.allocList.head? = some pf := by rw [hlist, head?_cons]
    refine .ite (fun _ => .pure (.refl s)) fun _ => .ite (fun _ => ?_) fun _ => ?_
    · exact pframeClean_keeps hw hf (hK pf f hhead hf) _
    · exact pframeFree_keeps hw hf (hK pf f hhead hf) _

end

/-! ## 3. `vmmap_remove` -/

section
variable {K : Nat → Prop} {fresh : Option Vmarea} {pagenumAt : Nat → Nat} {lo hi : Nat}

/-- How often the removal of a range puts `z`. -/
def dropCount (pagenumAt : Nat → Nat) (lo hi : Nat) (map : List Vmarea) (z : Nat) : Nat :=
  map.countP fun vma => dropsArea pagenumAt lo hi vma && vma.vmaObj == z

/-- An object with references left after `n` of them were put, unless none is. -/
def Spared (s : VmSys) (z n : Nat) : Prop :=
  n = 0 ∨ ∀ x, s.mmobj z = some x → (n : Int) < x.refs

theorem Spared.mono {m : Nat} (h : Spared s z n) (hle : m ≤ n) : Spared s z m := by
  obtain rfl | h := h
  · exact .inl (Nat.le_zero.mp hle)
  · exact .inr fun x hx => by have := h x hx; omega

theorem Spared.put {t : VmSys} (hp : PutOnce s t o) (hputs : Puts o s t)
    (h : Spared s z (n + if o = z then 1 else 0)) : Spared t z n := by
  by_cases hz : o = z
  · subst hz
    rw [if_pos rfl] at h
    refine .inr fun y hy => ?_
    obtain ⟨x, hx, -⟩ := Upds.ops hputs hy
    have hlt := h.resolve_left n.succ_ne_zero x hx
    obtain ⟨hnone, -⟩ | ⟨y', hy', hrefs⟩ := hp.refs hx
    · rw [hnone] at hy
      cases hy
    · obtain rfl := some.inj (hy'.symm.trans hy)
      omega
  · rw [if_neg hz, Nat.add_zero] at h
    exact h.imp_right fun h x hx => h x (hp.others (Ne.symm hz) ▸ hx)

theorem dropsArea_rest {stale : Vmarea} {e : Nat} (he : hi < e) :
    dropsArea pagenumAt lo hi { stale with vmaStart := hi, vmaEnd := e } = false := by
  have h1 : ¬ (hi < lo ∧ e < hi ∧ lo < e) := by omega
  have h2 : ¬ (lo < hi ∧ e < hi ∧ hi < hi) := by omega
  have h3 : ¬ (lo ≤ hi ∧ e ≤ hi) := by omega
  simp only [dropsArea, removeTail, if_neg h1, if_neg h2, if_neg h3, isNone_some]

/-- The loop visits the new area at most once more. -/
theorem dropCount_insertSplit {newvma : Vmarea} (hnew : dropsArea pagenumAt lo hi newvma = false)
    {before rest before' rest' : List Vmarea}
    (heq : insertSplit newvma before rest = (before', rest')) (z : Nat) :
    dropCount pagenumAt lo hi rest' z = dropCount pagenumAt lo hi rest z := by
  have hins : ∀ l, dropCount pagenumAt lo hi (insertArea newvma l) z =
      dropCount pagenumAt lo hi l z := by
    intro l
    rw [dropCount, (insertArea_perm newvma l).countP_eq, countP_cons_of_neg]
    · rfl
    · rw [hnew, Bool.false_and]
      exact Bool.false_ne_true
  unfold insertSplit at heq
  split at heq
  case h_1 =>
    cases heq
    rfl
  case h_2 =>
    cases heq
    rfl
  case h_3 vma rest _ =>
    split at heq
    · cases heq
      rfl
    · cases heq
      unfold dropCount at hins ⊢
      rw [countP_cons, countP_cons, hins]

/-- **The loop of `vmmap_remove`** keeps the objects that are spared. -/
theorem removeLoop_keeps : ∀ (fuel : Nat) {s : VmSys} (passed : Bool)
    {before rest : List Vmarea}, Wf s →
    (∀ z, K z → Spared s z (dropCount pagenumAt lo hi rest z)) →
    Yields (removeLoop fresh pagenumAt lo hi fuel s passed before rest) fun r => Keeps K s r.1 := by
  intro fuel s passed before rest hw hspare
  have hcount :
    ∀ vma rest z, dropCount pagenumAt lo hi (vma :: rest) z = dropCount pagenumAt lo hi rest z
      + if (dropsArea pagenumAt lo hi vma && vma.vmaObj == z) = true then 1 else 0 :=
    fun vma rest z => countP_cons
  fun_induction removeLoop fresh pagenumAt lo hi fuel s passed before rest with
  | case1 => exact .error _
  | case2 | case3 => exact .ok (.refl _)
  | case4 fuel s passed before vma rest hin stale hstale newvma part ih =>
    subst hstale
    refine .seq fun _ => ?_
    split
    rename_i before' rest' heq
    refine ih _ _ hw fun z hz => ?_
    -- the part before the range is not dropped, and neither is the one behind it
    rw [dropCount_insertSplit (dropsArea_rest hin.2) heq]
    exact (hspare z hz).mono (by rw [hcount]; exact Nat.le_add_right ..)
  | case5 fuel s passed before vma rest hout ih =>
    by_cases hgone : (removeTail pagenumAt lo hi vma passed).1.isNone
    · rw [if_pos hgone]
      have hdrop : dropsArea pagenumAt lo hi vma = true := by rwa [dropsArea, ← removeTail_passed]
      have hspare' : ∀ z, K z →
          Spared s z (dropCount pagenumAt lo hi rest z + if vma.vmaObj = z then 1 else 0) := by
        intro z hz
        have := hspare z hz
        simp only [hcount, hdrop, Bool.true_and, beq_iff_eq] at this
        exact this
      refine .bind (((putSpec _).put hw).and (mmobjPut_once hw _ _)) fun t ht => ?_
      obtain ⟨hputs, hput⟩ := ht
      refine (ih _ (hputs.wf hw) fun z hz => (hspare' z hz).put hput hputs).imp fun r hr =>
        (hput.keeps fun hz x hx => ?_).trans hr
      have hlt := hspare' _ hz
      rw [if_pos rfl] at hlt
      have := hlt.resolve_left (Nat.succ_ne_zero _) x hx
      omega
    · rw [if_neg hgone]
      have hstay : dropsArea pagenumAt lo hi vma = false := by
        rw [dropsArea, ← removeTail_passed pagenumAt lo hi vma passed]
        exact Bool.eq_false_of_not_eq_true hgone
      refine ih _ hw fun z hz => ?_
      have := hspare z hz
      rw [hcount, hstay, Bool.false_and, if_neg Bool.false_ne_true] at this
      exact this

theorem vmmapRemove_keeps (hw : Wf s) {p : Nat} (hx : s.proc p = some x)
    (e : RemoveEnv) (lopage npages : Nat) (hspare : ∀ z, K z → Spared s z
      (dropCount e.pagenumAt lopage ((lopage + npages) % 2 ^ 32) x.pVmmap z)) :
    Yields (vmmapRemove e s p lopage npages) fun r => Keeps K s r.1 := by
  refine theProc_bind hx ?_
  refine .bind (removeLoop_keeps _ _ hw hspare) fun r hr => ?_
  exact .seq fun y => .pure (hr.trans (.of_same fun _ => ⟨rfl, rfl⟩))

end

/-! ## 4. `vmmap_map` and `do_fork` -/

section
variable {s t : VmSys} {p : Nat}

theorem BottomKept.congr (hb : BottomKept s) (h : t.mmobj = s.mmobj) : BottomKept t :=
  hb.keeps (K := fun _ => True) (.of_same fun q => same_of_mmobj (congrFun h q)) fun _ _ => trivial

theorem BottomKept.create (hb : BottomKept s) {x : Mmobj} (hnone : s.mmobj o = none)
    (ht : t.mmobj = update s.mmobj o (some x)) (hops : x.mmoOps ≠ .shadow) : BottomKept t := by
  refine hb.extend (fun {q y} hq => ?_) fun {q r} hq hr => ?_
  · refine same_of_mmobj ?_
    rw [ht, update_of_ne]
    rintro rfl
    rw [hnone] at hq
    cases hq
  · obtain ⟨y, hy, hyops, -⟩ := exists_of_shadowLink hr
    rw [ht] at hy
    obtain ⟨-, hy⟩ | ⟨-, hy⟩ := of_update hy
    · obtain rfl := some.inj hy
      exact absurd hyops hops
    · rw [hq] at hy
      cases hy

theorem privateObj_eq (hw : Wf s) {m : Mmobj} (hm : s.mmobj memobj = some m) :
    Yields (privateObj s memobj) fun r => s.mmobj r.2 = none ∧ r.1.proc = s.proc ∧
      ∃ z : Mmobj, z.mmoOps = .shadow ∧ z.mmoShadowed = some memobj ∧
        z.mmoUn = .mmoBottomObj (some memobj) ∧
        r.1.mmobj = update (update s.mmobj memobj (some { m with mmoShadowed := none })) r.2
          (some z) := by
  unfold privateObj
  split
  case h_1 => exact .error _
  case h_2 t c ht =>
    obtain ⟨hfresh, href⟩ := slabAlloc_ref hw ht
    have hne : memobj ≠ c := by
      rintro rfl
      rw [hfresh] at hm
      cases hm
    refine .bind href fun u ⟨hproc, hsize, hobj⟩ => ?_
    refine .bind (theObj_yields u c) fun x hx => ?_
    refine .bind (theObj_yields _ memobj) fun y hy => ?_
    refine .bind (theObj_yields _ c) fun z hz => .pure ?_
    rw [hobj, update_self] at hx
    rw [setObj_mmobj, update_of_ne hne.symm, setObj_mmobj, update_self] at hz
    obtain rfl := some.inj hx
    refine ⟨hfresh, hproc, { z with mmoUn := .mmoBottomObj (some memobj) }, some.inj hz ▸ rfl,
      some.inj hz ▸ rfl, rfl, ?_⟩
    rw [setObj_mmobj, update_of_ne hne, hobj, update_of_ne hne, hm] at hy
    obtain rfl := some.inj hy
    simp only [setObj_mmobj, hobj]
    rw [update_idem, update_comm hne.symm, update_idem]

theorem insertInto_bottom (hb : BottomKept s) (vma : Vmarea) :
    Yields (insertInto s p vma) BottomKept :=
  .seq fun _ => .pure (hb.congr rfl)

section
variable (hw : Wf s) (hb : BottomKept s)
include hw hb

theorem privateObj_bottom (hsolid : s.solid memobj = true) :
    Yields (privateObj s memobj) fun r => BottomKept r.1 := by
  obtain ⟨m, hm, hmops⟩ := solid_iff.mp hsolid
  refine (privateObj_eq hw hm).imp fun ⟨t, c⟩ ⟨hfresh, hproc, z, hops, hlink, hun, hobj⟩ => ?_
  refine hb.extend (fun {q w} hq => ?_) fun {q r} hq hr => ?_
  · have hqc : q ≠ c := by
      rintro rfl
      rw [hfresh] at hq
      cases hq
    by_cases hqm : q = memobj
    · subst hqm
      refine same_of_parts (y := { m with mmoShadowed := none }) hm ?_ rfl fun h => absurd h hmops
      rw [hobj, update_of_ne hqc, update_self]
    · refine same_of_mmobj ?_
      rw [hobj, update_of_ne hqc, update_of_ne hqm]
  · by_cases hqc : q = c
    · subst hqc
      rw [shadowLink_of (hobj ▸ update_self ..) hops, hlink, hun] at hr
      cases hr
      exact ⟨memobj, rfl, hsolid⟩
    · obtain ⟨w, hw', -⟩ := exists_of_shadowLink hr
      have hqm : q ≠ memobj := by
        rintro rfl
        rw [hm] at hq
        cases hq
      rw [hobj, update_of_ne hqc, update_of_ne hqm, hq] at hw'
      cases hw'

/-- `z` is the object of the file that is mapped privately. -/
def MapsTo (a : MapArgs) (z : Nat) : Prop :=
  a.newvma.isSome ∧ a.file = some (.sets z) ∧ a.flags &&& mapPrivate ≠ 0

theorem finishMap_bottom (hsolid : a.flags &&& mapPrivate ≠ 0 → s.solid memobj = true)
    (lopage : Nat) :
    Yields (finishMap s p a lopage memobj) fun r => BottomKept r.1 := by
  refine .bind (Q := fun r => BottomKept r.1) ?_ fun r hr => ?_
  · exact .ite (fun hp => privateObj_bottom hw hb (hsolid hp)) fun _ => .ok hb
  · exact .bind (insertInto_bottom hr _) fun u hu => .pure hu

theorem mapArea_bottom (hsolid : ∀ z, MapsTo a z → s.solid z = true) (lopage : Nat) :
    Yields (mapArea s p a lopage) fun r => BottomKept r.1 := by
  refine mapArea_yields hb (fun _ _ _ _ => insertInto_bottom hb _) (fun memobj hnew hfile => ?_)
    fun t memobj _ _ ht => ?_
  · exact finishMap_bottom hw hb (fun hp => hsolid memobj ⟨hnew, hfile, hp⟩) lopage
  · obtain ⟨hfresh, href⟩ := slabAlloc_ref hw ht
    have hgrows := anonCreate_grows ht
    refine (href.and (mmobjRef_grows (hgrows.wf hw) memobj)).imp fun u ⟨⟨hproc, hsize, hobj⟩, hu⟩ =>
      ?_
    have hself : u.solid memobj = true :=
      solid_iff.mpr ⟨_, (congrFun hobj memobj).trans (update_self ..), nofun⟩
    exact finishMap_bottom (Grows.wf (hgrows.trans hu) hw) (hb.create hfresh hobj nofun)
      (fun _ => hself) lopage

def mapRemoves (x : Proc) (a : MapArgs) : Bool :=
  a.lopage != 0 && !(vmmapIsRangeEmpty x.pVmmap a.lopage a.npages matches .ok true)

/-- **`vmmap_map` sets the pointer right.** -/
theorem vmmapMap_bottom (hx : s.proc p = some x) (hsolid : ∀ z, MapsTo a z → s.solid z = true)
    (hspare : mapRemoves x a = true → ∀ z, Shadowed s z ∨ MapsTo a z →
      Spared s z (dropCount a.env.pagenumAt a.lopage ((a.lopage + a.npages) % 2 ^ 32) x.pVmmap z))
    : Yields (vmmapMap s p a) fun r => BottomKept r.1 := by
  refine vmmapMap_yields hx (fun _ => hb)
    (fun lopage _ _ => mapArea_bottom hw hb hsolid lopage) fun hpos hfull => ?_
  have hremoves : mapRemoves x a = true := by
    rw [mapRemoves, hfull, bne_iff_ne.mpr hpos]
    rfl
  refine ((vmmapRemove_alters hw hx a.env a.lopage a.npages).and
    (vmmapRemove_keeps hw hx a.env a.lopage a.npages (hspare hremoves))).imp fun r ⟨halt, ht⟩ => ?_
  refine mapArea_bottom (halt.1.wf hw) (hb.keeps ht fun z hz => .inl hz) (fun z hz => ?_) a.lopage
  exact (ht.kept (.inr hz)).2.trans (hsolid z hz)

end

theorem forkLoop_noPrivate (stale : Vmarea → Nat) (pd : Nat → Option Pte) :
    ∀ {parents : List Vmarea},
    (∀ a ∈ parents, a.vmaFlags ≠ mapPrivate) →
    Yields (forkLoop s pd parents (vmmapClone stale parents)) fun r => r.1 = s := by
  intro parents
  induction parents with
  | nil => exact fun _ => .ok rfl
  | cons a parents ih =>
    intro hflags
    rw [vmmapClone, map_cons, forkLoop, if_neg (hflags a (.head _))]
    refine .bind (ih fun b hb => hflags b (.tail _ hb)) fun r hr => .pure hr

theorem doFork_bottom (hb : BottomKept s) (hx : s.proc p = some x)
    (hflags : ∀ a ∈ x.pVmmap, a.vmaFlags ≠ mapPrivate) (child : Nat) (stale : Vmarea → Nat) :
    Yields (doFork s p child stale) BottomKept := by
  refine theProc_bind hx ?_
  refine .bind (forkLoop_noPrivate stale _ hflags) fun r hr => .pure (hb.congr ?_)
  rw [← hr]
  rfl

theorem forkShadow_unset (obj : Nat) : Yields (forkShadow s obj) fun r =>
    ∃ y, r.1.mmobj r.2 = some y ∧ y.mmoOps = .shadow ∧ y.mmoUn = .mmoBottomObj none := by
  unfold forkShadow shadowCreate slabAlloc
  cases s.mmobjSlab with
  | nil => exact .error _
  | cons c rest =>
    refine .bind (theObj_yields _ c) fun x hx => .pure ⟨_, update_self .., ?_⟩
    cases (update_self ..).symm.trans hx
    exact ⟨rfl, rfl⟩

/-- **One private area is enough.** -/
theorem forkLoop_private (stale : Vmarea → Nat) :
    ∀ {parents : List Vmarea} {s : VmSys} (pd : Nat → Option Pte),
    Wf s → (∃ a ∈ parents, a.vmaFlags = mapPrivate) →
    Yields (forkLoop s pd parents (vmmapClone stale parents)) fun r =>
      ∃ q y, r.1.mmobj q = some y ∧ y.mmoOps = .shadow ∧ y.mmoUn = .mmoBottomObj none := by
  intro parents
  induction parents with
  | nil =>
    rintro s pd hw ⟨_, h, -⟩
    cases h
  | cons a parents ih =>
    intro s pd hw hex
    rw [vmmapClone, map_cons, forkLoop]
    refine .ite (fun _ => ?_) fun hshared => ?_
    · refine .bind (forkShadow_grows hw _) fun r hg => ?_
      refine .bind ((forkShadow_unset _).and (forkShadow_grows (Grows.wf hg hw) _)) fun u hu =>
        .seq fun pd => ?_
      obtain ⟨⟨y, hy, hunset⟩, hg'⟩ := hu
      refine .bind (forkLoop_refs stale u.2 parents pd (Grows.wf (hg.trans hg') hw) hy)
        fun v hv => .pure ⟨u.2, y, hv.1, hunset⟩
    · obtain ⟨b, hb, hflags⟩ := hex
      obtain rfl | hb := mem_cons.mp hb
      · exact absurd hflags hshared
      · exact .bind (ih pd hw ⟨b, hb, hflags⟩) fun v hv => .pure hv

theorem doFork_unset (hw : Wf s) (hx : s.proc p = some x) {vma : Vmarea}
    (hvma : vma ∈ x.pVmmap) (hflags : vma.vmaFlags = mapPrivate) (child : Nat)
    (stale : Vmarea → Nat) :
    Yields (doFork s p child stale) fun t => ¬ BottomKept t := by
  refine theProc_bind hx ?_
  refine .bind (forkLoop_private stale _ hw ⟨vma, hvma, hflags⟩) fun r ⟨q, y, hy, hops, hun⟩ =>
    .pure fun hb => ?_
  obtain ⟨l, b, -, hbottom⟩ := hb q y hy hops
  rw [hun] at hbottom
  cases hbottom

end

/-! ## 5. Every call -/

/-- The test for `Shadowed`. -/
def VmSys.shadowed (s : VmSys) (z : Nat) : Bool :=
  (List.range s.nmmobj).any fun o => (s.shadowLink o).any (·.1 == some z)

/-- The test for `Spared`. -/
def VmSys.spares (s : VmSys) (z n : Nat) : Bool :=
  n == 0 || (s.mmobj z).all fun x => (n : Int) < x.refs

/-- `vmmap_remove` leaves a reference to each object that a shadow object shadows. -/
def removeSpares (s : VmSys) (x : Proc) (e : RemoveEnv) (lopage npages : Nat) : Bool :=
  x.pVmmap.all fun vma => !s.shadowed vma.vmaObj || s.spares vma.vmaObj
    (dropCount e.pagenumAt lopage ((lopage + npages) % 2 ^ 32) x.pVmmap vma.vmaObj)

/-- A file that is mapped privately has an object of its own, which the call does not
remove before. -/
def mapsSolid (s : VmSys) (x : Proc) (a : MapArgs) : Bool :=
  match a.newvma, a.file with
  | some _, some (.sets memobj) => a.flags &&& mapPrivate == 0 || s.solid memobj &&
    (!mapRemoves x a || s.spares memobj
      (dropCount a.env.pagenumAt a.lopage ((a.lopage + a.npages) % 2 ^ 32) x.pVmmap memobj))
  | _, _ => true

/-- What has to be left out: forks of processes with private areas, private mappings of an object
that is itself a shadow object, and calls that drop the last reference to an object that is
shadowed. -/
def keepsBottom (s : VmSys) : VmCall → Bool
  | .map p a => (s.proc p).all fun x =>
      mapsSolid s x a && (!mapRemoves x a || removeSpares s x a.env a.lopage a.npages)
  | .unmap p lopage npages e => (s.proc p).all fun x => removeSpares s x e lopage npages
  | .fork p _ _ => (s.proc p).all fun x => x.pVmmap.all fun vma => vma.vmaFlags != mapPrivate
  | .pageoutd => s.allocList.head?.all fun pf => (s.pframe pf).all fun f =>
      !s.shadowed f.pfObj || (s.mmobj f.pfObj).all fun x => 0 < x.refs
  | .vput o => !s.shadowed o || s.spares o 1
  | _ => true

section
variable {s t : VmSys}

theorem shadowed_of (hw : Wf s) (h : Shadowed s z) : s.shadowed z = true := by
  obtain ⟨o, un, hlink⟩ := h
  obtain ⟨x, hx, -⟩ := exists_of_shadowLink hlink
  refine any_eq_true.mpr ⟨o, mem_range.mpr (hw.objLt hx), ?_⟩
  rw [hlink, any_some]
  exact beq_self_eq_true _

theorem spared_of (h : s.spares z n = true) : Spared s z n := by
  rw [spares, Bool.or_eq_true, beq_iff_eq] at h
  refine h.imp_right fun h x hx => ?_
  rw [hx, all_some, decide_eq_true_eq] at h
  exact h

theorem dropCount_eq_zero {pagenumAt : Nat → Nat} {lo hi : Nat} {map : List Vmarea}
    (h : ∀ vma ∈ map, vma.vmaObj ≠ z) : dropCount pagenumAt lo hi map z = 0 :=
  countP_eq_zero.mpr fun vma hvma hd =>
    h vma hvma (beq_iff_eq.mp (Bool.and_eq_true _ _ ▸ hd).2)

theorem removeSpares_spared (hw : Wf s) {e : RemoveEnv} {lopage npages : Nat}
    (h : removeSpares s x e lopage npages = true) (hz : Shadowed s z) :
    Spared s z (dropCount e.pagenumAt lopage ((lopage + npages) % 2 ^ 32) x.pVmmap z) := by
  by_cases hex : ∃ vma ∈ x.pVmmap, vma.vmaObj = z
  · obtain ⟨vma, hvma, rfl⟩ := hex
    have hor := all_eq_true.mp h vma hvma
    rw [shadowed_of hw hz] at hor
    exact spared_of hor
  · exact .inl (dropCount_eq_zero fun vma hvma heq => hex ⟨vma, hvma, heq⟩)

theorem mapsSolid_spared (h : mapsSolid s x a = true)
    (hz : MapsTo a z) : s.solid z = true ∧ (mapRemoves x a = true → Spared s z
      (dropCount a.env.pagenumAt a.lopage ((a.lopage + a.npages) % 2 ^ 32) x.pVmmap z)) := by
  obtain ⟨hnew, hfile, hprivate⟩ := hz
  obtain ⟨stale, hstale⟩ := isSome_iff_exists.mp hnew
  rw [mapsSolid, hstale, hfile] at h
  rw [Bool.or_eq_true, beq_iff_eq, Bool.and_eq_true] at h
  obtain ⟨hsolid, hspare⟩ := h.resolve_left hprivate
  refine ⟨hsolid, fun hr => ?_⟩
  rw [hr] at hspare
  exact spared_of hspare

/-- **One call** that is not left out keeps the pointers right. -/
theorem bottom_step (hw : Wf s) (hb : BottomKept s) {c : VmCall} (hl : VmLegal s c)
    (hk : keepsBottom s c = true) (h : vmStep s c = .ok t) : BottomKept t := by
  have hputs : ∀ {u}, Keeps (Shadowed s) s u → BottomKept u := fun hu => hb.keeps hu fun _ hz => hz
  have hupds : ∀ {new u}, Upds (fun _ => False) new s u → BottomKept u := fun hu =>
    hputs (.of_same (Upds.same hu))
  cases c with
  | load | store | link | takePage | givePage | scribble | slabs | spawn | reap =>
    cases h
    exact hb.congr rfl
  | exit p status =>
    obtain ⟨x, hx⟩ := exists_of_runs hl
    rw [exitProc_yields hx status t h]
    exact hb.congr rfl
  | fault p vfn cause disk ptPage =>
    obtain ⟨x, hx⟩ := exists_of_runs hl
    refine fst_yields h ((handlePagefault_faulted hw hx disk ptPage vfn cause).imp fun r hr => ?_)
    cases hr with
    | killed => exact hb.congr rfl
    | stuck _ _ hg | mapped _ _ hg => exact (hupds hg.upds).congr rfl
    | nomem _ _ hg => exact hupds hg.upds
  | map p a =>
    obtain ⟨x, hx⟩ := exists_of_runs hl
    rw [keepsBottom, hx, all_some, Bool.and_eq_true] at hk
    refine fst_yields h (vmmapMap_bottom hw hb hx (fun z hz =>
      (mapsSolid_spared hk.1 hz).1) fun hr z hz => ?_)
    have hremove := hk.2
    rw [hr] at hremove
    obtain hz | hz := hz
    · exact removeSpares_spared hw hremove hz
    · exact (mapsSolid_spared hk.1 hz).2 hr
  | unmap p lopage npages e =>
    obtain ⟨x, hx⟩ := exists_of_runs hl
    rw [keepsBottom, hx, all_some] at hk
    exact fst_yields h ((vmmapRemove_keeps hw hx e lopage npages fun z hz =>
      removeSpares_spared hw hk hz).imp fun r hr => hputs hr)
  | fork p child stale =>
    obtain ⟨x, hx⟩ := exists_of_runs hl.1
    rw [keepsBottom, hx, Option.all_some, List.all_eq_true] at hk
    exact doFork_bottom hb hx (fun a ha => bne_iff_ne.mp (hk a ha)) child stale t h
  | pageoutd =>
    refine hputs (pageoutdRun_keeps hw (fun pf f hhead hf hz x hx => ?_) t h)
    rw [keepsBottom, hhead, all_some, hf, all_some, shadowed_of hw hz, hx] at hk
    exact of_decide_eq_true hk
  | vget =>
    cases h
    unfold slabAlloc
    split
    case h_1 => exact hb
    case h_2 c rest hslab =>
      exact hb.create (hw.objSlab c (hslab ▸ .head _)).2 rfl nofun
  | vput o =>
    refine hputs ((mmobjPut_once hw o _ t h).keeps fun hz x hx => ?_)
    rw [keepsBottom, shadowed_of hw hz] at hk
    have hspare : Spared s o 1 := spared_of hk
    exact hspare.resolve_left Nat.one_ne_zero x hx
  | filePage o k disk =>
    exact fst_yields h ((pframeGet_got disk 3 o k hw).imp fun _ hr => hupds hr.upds)
  | fileDirty o k =>
    have hu : Upds (fun _ => False) false s t := fileDirty_upds o k t h
    exact hupds hu

end

/-! ## 6. Runs -/

/-- **The bottom object along runs.**  In every state of a run whose calls are not left out, the
chain of each shadow object ends at the object its `mmo_bottom_obj` names.  After a fork of a
process with a private area it does not. -/
theorem bottom_object (nmmobj npframe npages nfreepagesTarget : Nat) :
    (∀ s, Lts.Run (fun u c => VmLegal u c ∧ keepsBottom u c = true) vmStep
      (bootVm nmmobj npframe npages nfreepagesTarget) s → BottomKept s) ∧
    ∀ s p x child stale vma t, Wf s → s.proc p = some x → vma ∈ x.pVmmap →
      vma.vmaFlags = mapPrivate →
      doFork s p child stale = .ok t → ¬ BottomKept t := by
  constructor
  · intro s hrun
    have hinv : Wf s ∧ BottomKept s := by
      refine hrun.invariant (I := fun u => Wf u ∧ BottomKept u) ⟨bootVm_wf .., nofun⟩ ?_
      rintro u c v ⟨hw, hb⟩ ⟨hl, hk⟩ hs
      exact ⟨(vmStep_spec hw c hl hs).1, bottom_step hw hb hl hk hs⟩
    exact hinv.2
  · intro s p x child stale vma t hw hx hvma hflags h
    exact doFork_unset hw hx hvma hflags child stale t h

/-- A process maps a page privately and writes to it: the shadow object's bottom object is the
anonymous one. -/
theorem bottom_object_private : ∃ s x l b,
    Lts.Run (fun u c => VmLegal u c ∧ keepsBottom u c = true) vmStep (bootVm 8 8 4 2) s ∧
    s.mmobj 1 = some x ∧ x.mmoOps = .shadow ∧ Path s 1 (l ++ [b]) ∧
    x.mmoUn = .mmoBottomObj (some b) := by
  obtain ⟨s, hrun, x, hx, hops⟩ :
    ∃ s, Lts.Run (fun u c => VmLegal u c ∧ keepsBottom u c = true) vmStep
      (bootVm 8 8 4 2) s ∧ ∃ x ∈ s.mmobj 1, x.mmoOps = .shadow :=
    Lts.exists_run [.spawn 1, .map 1 (.onePage 0x400 3 mapPrivate),
      .fault 1 0x400 6 (fun _ => 0) true]
      (by decide +kernel)
  obtain ⟨l, b, hpath, hun⟩ := (bottom_object 8 8 4 2).1 s hrun 1 x hx hops
  exact ⟨s, x, l, b, hrun, hx, hops, hpath, hun⟩

/-- After a fork the child's shadow object has no bottom object. -/
theorem forked_without_bottom : ∃ s x, Lts.Run VmLegal vmStep (bootVm 8 8 4 2) s ∧
    s.mmobj 2 = some x ∧ x.mmoOps = .shadow ∧ x.mmoShadowed = some 1 ∧
    x.mmoUn = .mmoBottomObj none ∧ ¬ BottomKept s := by
  obtain ⟨s, hrun, x, hx, hops, hsh, hun⟩ : ∃ s, Lts.Run VmLegal vmStep (bootVm 8 8 4 2) s ∧
      ∃ x ∈ s.mmobj 2, x.mmoOps = .shadow ∧ x.mmoShadowed = some 1 ∧ x.mmoUn = .mmoBottomObj none :=
    Lts.exists_run [.spawn 1, .map 1 (.onePage 0x400 3 mapPrivate), .fork 1 2 (fun _ => 0)]
      (by decide +kernel)
  refine ⟨s, x, hrun, hx, hops, hsh, hun, fun hb => ?_⟩
  obtain ⟨l, b, -, hbottom⟩ := hb 2 x hx hops
  rw [hun] at hbottom
  cases hbottom

end Weenix.Pageout
