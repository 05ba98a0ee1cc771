/-
# What a call on a path does, as operations on the file system

Each call of `Vfs.lean` is a sequence of operations of `Ramfs.lean`: it takes and puts references
while it resolves its paths, and makes or removes at most one entry for each of them.  `Does legal s
t δ` says so about two states: a run of operations that all satisfy `legal` leads from `s` to `t`,
and `δ` is what was gained and lost in references.

There is one lemma for each function.  The results about references read `δ`; those about the
directories need the run only, and choose `legal`.
-/
import Mathlib.Algebra.Ring.Int.Defs
import Weenix.Fs.RamfsOps
import Weenix.Fs.Vfs
import Weenix.Lib.Run

namespace Weenix.Vfs

open Fs (enotdir einval oCreat)

variable {room : Bool} {e n r : Int} {dir i ino x : Nat} {v : Ramfs}
  {legal : Ramfs → RamfsOp → Prop} {call : VfsCall} {vn : Vnode}

variable {s t u : Ramfs} {x y d cwd : Nat} {name : Name} {path : Path}

/-! ## 1. References

What each operation adds to `refs`: a lookup the vnode it returns, most operations nothing. -/

/-- The references to a vnode other than those of its resident pages; none if it is not
in memory. -/
def refs (s : Ramfs) (x : Nat) : Int :=
  match s.vnode x with
  | some vn => vn.vnRefcount - vn.vnNrespages
  | none => 0

/-- One reference to `x`. -/
def one (x : Nat) : Nat → Int := fun y => if y = x then 1 else 0

/-- The reference that comes with a vnode that is returned. -/
def gain : Except Int Nat → Nat → Int
  | .ok x => one x
  | .error _ => 0

@[simp] theorem gain_ok (x : Nat) : gain (.ok x) = one x := rfl

@[simp] theorem gain_error (e : Int) : gain (.error e) = 0 := rfl

theorem refs_congr (h : t.vnode = s.vnode) (y : Nat) : refs t y = refs s y := by
  unfold refs
  rw [h]

theorem refs_setVnode (vn : Option Vnode) (y : Nat) : refs (s.setVnode x vn) y =
      if y = x then (vn.map fun vn => vn.vnRefcount - vn.vnNrespages).getD 0 else refs s y := by
  unfold refs Ramfs.setVnode
  obtain rfl | hy := eq_or_ne y x
  · simp only [update_self, if_true]
    cases vn <;> rfl
  · simp only [update_of_ne hy, if_neg hy]

theorem refs_of_vnode (h : s.vnode x = some vn) : refs s x = vn.vnRefcount - vn.vnNrespages := by
  unfold refs
  rw [h]

theorem refs_setVnode_some (h : vn.vnRefcount - vn.vnNrespages = refs s x + n)
    (y : Nat) : refs (s.setVnode x (some vn)) y = refs s y + n * one x y := by
  rw [refs_setVnode]
  unfold one
  split
  · subst_vars
    simp [h]
  · simp

theorem vref_refs (s : Ramfs) (x : Nat) :
    Yields (vref s x) fun t => ∀ y, refs t y = refs s y + one x y := by
  refine .bind (fun vn h => h) fun vn hvn => .seq fun _ => .pure fun y => ?_
  have hr := refs_of_vnode (getVnode_eq_ok hvn)
  rw [refs_setVnode_some (n := 1) (by dsimp only; omega), Int.one_mul]

theorem vget_refs (s : Ramfs) (x : Nat) :
    Yields (vget s x) fun t => ∀ y, refs t y = refs s y + one x y := by
  unfold vget
  split
  · exact vref_refs s x
  · rename_i hnone
    split
    · refine .ok fun y => ?_
      have hr : refs s x = 0 := by
        unfold refs
        rw [hnone]
      rw [refs_setVnode_some (n := 1), Int.one_mul]
      · rfl
      · change (1 : Int) - 0 = refs s x + 1
        omega
    · exact .error _

theorem refs_ramfsDeleteVnode {inode : Inode} (h : refs s x = 1) (y : Nat) :
    refs (ramfsDeleteVnode s x inode) y = refs s y - one x y := by
  have hv : (ramfsDeleteVnode s x inode).vnode = (s.setVnode x none).vnode :=
    vnode_ramfsDeleteVnode s x inode
  rw [refs_congr hv, refs_setVnode]
  unfold one
  split
  · subst_vars
    simp [h]
  · simp

theorem vput_refs (s : Ramfs) (x : Nat) :
    Yields (vput s x) fun t => ∀ y, refs t y = refs s y - one x y := by
  intro t h y
  obtain ⟨vn, inode, hvn, -, -, ⟨-, -, rfl⟩ | ⟨hlast, rfl⟩⟩ := vput_cases h
  · have hr := refs_of_vnode hvn
    rw [refs_setVnode_some (n := -1) (by dsimp only; omega)]
    omega
  · have hr := refs_of_vnode hvn
    exact refs_ramfsDeleteVnode (by omega) y

theorem refs_setEntry (y : Nat) : refs (setEntry s d i ino name) y = refs s y :=
  refs_congr vnode_editDir y

theorem refs_clearEntry (y : Nat) : refs (clearEntry s d name) y = refs s y :=
  refs_congr vnode_editDir y

theorem refs_addLink (y : Nat) : refs (s.addLink x n) y = refs s y :=
  refs_congr vnode_addLink y

section
variable (s d name)

theorem ramfsLookup_refs : Yields (ramfsLookup s d name) fun r => ∀ y,
    refs r.2 y = refs s y + gain r.1 y := by
  refine .seq fun entries => ?_
  split
  · exact .bind (vget_refs _ _) fun t ht => .pure ht
  · refine .pure fun y => ?_
    simp

theorem ramfsCreate_refs (room : Bool) :
    Yields (ramfsCreate s d name room) fun r => ∀ y, refs r.2 y = refs s y + gain r.1 y := by
  refine .seq fun slot => ?_
  have halloc : ∀ y, refs (ramfsAllocInode s zeroPage room).2 y = refs s y :=
    refs_congr vnode_ramfsAllocInode
  obtain _ | i := slot
  · exact .pure fun y => by simp
  · dsimp only
    split
    · rename_i e t ht
      rw [ht] at halloc
      exact .pure fun y => by simp [halloc]
    · rename_i ino t ht
      rw [ht] at halloc
      refine .bind (vget_refs _ _) fun u hu => .pure fun y => ?_
      change refs (setEntry u d i ino name) y = refs s y + one ino y
      rw [refs_setEntry, hu y, halloc y]

theorem ramfsMknod_refs (mode devid : Nat) (room : Bool) :
    Yields (ramfsMknod s d name mode devid room) fun r => ∀ y, refs r.2 y = refs s y := by
  refine .seq fun slot => ?_
  obtain _ | i := slot
  · exact .pure fun y => rfl
  · refine .ite (fun _ => ?_) fun _ => .error _
    have halloc :
      ∀ y, refs (ramfsAllocInode s (if sIschr mode then .chr devid else .blk devid) room).2 y
      = refs s y := refs_congr vnode_ramfsAllocInode
    split
    · rename_i e t ht
      rw [ht] at halloc
      exact .pure halloc
    · rename_i ino t ht
      rw [ht] at halloc
      exact .pure fun y => (refs_setEntry y).trans (halloc y)

theorem ramfsLink_refs (s : Ramfs) (old d : Nat) (name : Name) :
    Yields (ramfsLink s old d name) fun r => ∀ y, refs r.2 y = refs s y := by
  refine .seq fun slot => ?_
  obtain _ | i := slot
  · exact .pure fun y => rfl
  · exact .seq fun _ => .pure fun y => (refs_addLink y).trans (refs_setEntry y)

theorem ramfsMkdir_refs (room : Bool) :
    Yields (ramfsMkdir s d name room) fun r => ∀ y, refs r.2 y = refs s y := by
  refine .seq fun slot => ?_
  have halloc : ∀ y, refs (ramfsAllocInode s (.dir blankDir) room).2 y = refs s y :=
    refs_congr vnode_ramfsAllocInode
  obtain _ | i := slot
  · exact .pure fun y => rfl
  · dsimp only
    split
    · rename_i e t ht
      rw [ht] at halloc
      exact .pure halloc
    · rename_i ino t ht
      rw [ht] at halloc
      exact .pure fun y => (refs_setEntry y).trans (halloc y)

theorem removeEntry_refs (x : Nat) :
    Yields (removeEntry s d name x) fun t => ∀ y, refs t y = refs s y - one x y :=
  (vput_refs _ _).imp fun t ht y => by rw [ht y, refs_addLink, refs_clearEntry]

theorem ramfsUnlink_refs : Yields (ramfsUnlink s d name) fun r => ∀ y, refs r.2 y = refs s y := by
  refine .bind (ramfsLookup_refs s d name) ?_
  rintro ⟨e | x, t⟩ ht
  · exact .error _
  · refine .seq fun _ => .seq fun _ => .bind (removeEntry_refs _ _ _ _) fun u hu =>
      .pure fun y => ?_
    have := ht y
    simp only [gain_ok] at this
    rw [hu y]
    omega

theorem ramfsRmdir_refs : Yields (ramfsRmdir s d name) fun r => ∀ y, refs r.2 y = refs s y := by
  refine .seq fun _ => .bind (ramfsLookup_refs s d name) ?_
  rintro ⟨e | x, t⟩ ht
  · exact .pure fun y => by simpa using ht y
  · -- the reference of the lookup is put on every way out
    have hput : ∀ {u : Ramfs}, (∀ y, refs u y = refs t y - one x y) → ∀ y, refs u y = refs s y := by
      intro u hu y
      have := ht y
      simp only [gain_ok] at this
      rw [hu y]
      omega
    refine .seq fun _ => .ite (fun _ => .seq fun _ => .ite (fun _ => ?_) fun _ => ?_) fun _ => ?_
    · exact .bind (vput_refs _ _) fun u hu => .pure (hput hu)
    · exact .bind (removeEntry_refs _ _ _ _) fun u hu => .pure (hput hu)
    · exact .bind (vput_refs _ _) fun u hu => .pure (hput hu)

end

/-! ## 2. Runs of operations that move references

`Does` composes: the runs are appended, and the differences are added. -/

/-- The operations of a path lookup. -/
def RamfsOp.Walks : RamfsOp → Prop
  | .vref _ | .vget _ | .vput _ | .lookup _ _ => True
  | _ => False

/-- The operations of a path lookup satisfy the condition. -/
def AllowsWalks (legal : Ramfs → RamfsOp → Prop) : Prop := ∀ s op, op.Walks → legal s op

/-- A lookup uses four operations. -/
theorem AllowsWalks.of_ops (hvref : ∀ s x, legal s (.vref x)) (hvget : ∀ s x, legal s (.vget x))
    (hvput : ∀ s x, legal s (.vput x)) (hlookup : ∀ s d name, legal s (.lookup d name)) :
    AllowsWalks legal := by
  intro s op hop
  cases op with
  | vref x => exact hvref s x
  | vget x => exact hvget s x
  | vput x => exact hvput s x
  | lookup d name => exact hlookup s d name
  | _ => cases hop

/-- `t` is reached from `s` by operations that satisfy `legal`; `δ` counts the references gained. -/
structure Does (legal : Ramfs → RamfsOp → Prop) (s t : Ramfs) (δ : Nat → Int) : Prop where
  run : Lts.Run legal ramfsStep s t
  refs : ∀ y, refs t y = Vfs.refs s y + δ y

/-- A path lookup. -/
abbrev Walked : Ramfs → Ramfs → (Nat → Int) → Prop := Does fun _ op => op.Walks

abbrev WalkRun : Ramfs → Ramfs → Prop := Lts.Run (fun _ op => op.Walks) ramfsStep

variable {legal : Ramfs → RamfsOp → Prop} {δ δ' δ'' : Nat → Int} {op : RamfsOp}

namespace Does

theorem refl : Does legal s s 0 := ⟨.refl, fun y => by simp⟩

theorem trans (h : Does legal s t δ) (h' : Does legal t u δ') (hδ : ∀ y, δ y + δ' y = δ'' y) :
    Does legal s u δ'' := by
  refine ⟨h.run.trans h'.run, fun y => ?_⟩
  rw [h'.refs y, h.refs y, ← hδ y]
  omega

theorem congr (h : Does legal s t δ) (hδ : ∀ y, δ y = δ' y) : Does legal s t δ' :=
  ⟨h.run, fun y => by rw [h.refs y, hδ y]⟩

theorem mono (h : Walked s t δ) (hok : AllowsWalks legal) : Does legal s t δ :=
  ⟨h.run.mono fun s op hop => hok s op hop, h.refs⟩

theorem step (op : RamfsOp) (hop : legal s op) (h : ramfsStep s op = .ok t)
    (hδ : ∀ y, Vfs.refs t y = Vfs.refs s y + δ y) :
    Does legal s t δ := ⟨.tail .refl hop h, hδ⟩

end Does

/-- Inodes may leave the table; no entry is made, and the directories that stay are as before. -/
structure Shrinks (s t : Ramfs) : Prop where
  entered : t.entered = s.entered
  kept : ∀ x, t.linkcount x ≠ none → s.linkcount x ≠ none ∧ t.dirOf x = s.dirOf x

namespace Shrinks

theorem refl (s : Ramfs) : Shrinks s s := ⟨rfl, fun _ hx => ⟨hx, rfl⟩⟩

theorem trans (h : Shrinks s t) (h' : Shrinks t u) : Shrinks s u := by
  refine ⟨h'.entered.trans h.entered, fun x hx => ?_⟩
  obtain ⟨ht, hd'⟩ := h'.kept x hx
  obtain ⟨hs, hd⟩ := h.kept x ht
  exact ⟨hs, hd'.trans hd⟩

theorem dirOf_eq_none (h : Shrinks s t) (hx : s.dirOf x = none) : t.dirOf x = none := by
  cases hn : t.linkcount x with
  | none => exact dirOf_of_linkcount_none hn
  | some n =>
    rw [(h.kept x (by rw [hn]; exact nofun)).2]
    exact hx

theorem recounted (h : Recounted s t) : Shrinks s t := by
  obtain ⟨hd, hn, -, he⟩ := h.views
  exact ⟨he, fun x hx => ⟨hn ▸ hx, congrFun hd x⟩⟩

theorem vget (h : vget s x = .ok t) : Shrinks s t := by
  obtain ⟨-, hre⟩ | hl := vget_eq_ok h
  · exact .recounted hre
  · refine ⟨hl.entered, fun y hy => ⟨?_, congrFun hl.dirOf y⟩⟩
    obtain ⟨n, hn, hn'⟩ := hl.count
    obtain rfl | hne := eq_or_ne y x
    · rw [hn]
      exact nofun
    · rwa [hn', update_of_ne hne] at hy

theorem vput (h : vput s x = .ok t) : Shrinks s t := by
  obtain ⟨hre, -⟩ | hun := vput_eq_ok h
  · exact .recounted hre
  · obtain ⟨n, hn, hn', hd⟩ := hun.count
    refine ⟨hun.entered, fun y hy => ?_⟩
    rw [hn'] at hy
    obtain rfl | hne := eq_or_ne y x
    · rw [update_self] at hy
      rw [hd, hn]
      split at hy
      · exact absurd rfl hy
      · rename_i hone
        rw [if_neg hone]
        exact ⟨nofun, rfl⟩
    · rw [update_of_ne hne] at hy
      refine ⟨hy, ?_⟩
      rw [hd]
      split
      · exact update_of_ne hne _ _
      · rfl

end Shrinks

/-! ## 3. Path lookup

Each round of `dir_namev` trades the reference to a directory for one to the next. -/

theorem vref_walked (s : Ramfs) (x : Nat) : Yields (vref s x) fun t => Walked s t (one x) :=
  fun t ht => .step (.vref x) trivial ht (vref_refs s x t ht)

theorem vput_walked (s : Ramfs) (x : Nat) : Yields (vput s x) fun t => Walked s t (-one x) :=
  fun t ht => .step (.vput x) trivial ht fun y => by
    rw [vput_refs s x t ht y]
    rfl

theorem Does.vput (h : Does legal s t δ) (hok : AllowsWalks legal)
    (hδ : ∀ y, δ y - one x y = δ'' y) :
    Yields (vput t x) fun u => Does legal s u δ'' ∧ u.entered = t.entered := by
  intro u hu
  refine ⟨h.trans (Does.mono (vput_walked t x u hu) hok) fun y => by rw [← hδ y]; rfl, ?_⟩
  exact (Shrinks.vput hu).entered

theorem allowsWalks_self : AllowsWalks fun _ op => op.Walks := fun _ _ h => h

/-- An error code, with nothing changed. -/
def Unfound (s : Ramfs) (r : Except Int Nat × Ramfs) : Prop := ∀ e, r.1 = .error e → e < 0 ∧ r.2 = s

theorem lookup_walked (s : Ramfs) (d : Nat) (name : Name) :
    Yields (lookup s d name) fun r => Walked s r.2 (gain r.1) ∧ Unfound s r := by
  refine .seq fun isdir => .ite (fun _ => .ite (fun _ => ?_) fun _ => ?_) fun _ => ?_
  · exact .pure ⟨Does.refl, by rintro e ⟨⟩; exact ⟨by decide, rfl⟩⟩
  · intro r hr
    refine ⟨.step (.lookup d name) trivial ?_ (ramfsLookup_refs s d name r hr), ?_⟩
    · simp only [ramfsStep, hr]
      rfl
    · rintro e he
      revert r hr
      change Yields (ramfsLookup s d name) fun r => r.1 = .error e → e < 0 ∧ r.2 = s
      refine .seq fun entries => ?_
      split
      · exact .seq fun _ => .pure (by rintro ⟨⟩)
      · exact .pure (by rintro ⟨⟩; exact ⟨by decide, rfl⟩)
  · exact .pure ⟨Does.refl, by rintro e ⟨⟩; exact ⟨by decide, rfl⟩⟩

theorem lookup_len (h : lookup s d name = .ok (.error (-enoent), t)) : name.len ≤ strMax := by
  obtain ⟨b, -, h⟩ := bind_eq_ok h
  split at h
  · split at h
    · cases h
    · omega
  · cases h

theorem name_final (path : Path) : path.name.Final := by
  unfold Path.name
  split
  · rfl
  · rfl

/-- Only error codes are returned as errors. -/
def Negative (r : Except Int Nat) : Prop := ∀ e, r = .error e → e < 0

theorem Negative.found (x : Nat) : Negative (.ok x) := by
  rintro e ⟨⟩

theorem Negative.failed (h : e < 0) : Negative (.error e) := by
  rintro e ⟨⟩
  exact h

/-- **The loop of `dir_namev`.**  It gives up the reference to the directory it starts from, and
returns with one to the directory it ends in. -/
theorem walk_walked (s : Ramfs) (cur : Nat) (cs : List (List Char)) :
    Yields (walk s cur cs) fun r => Walked s r.2 (gain r.1 - one cur) ∧ Negative r.1 := by
  induction cs generalizing s cur with
  | nil =>
    refine .seq fun isdir => .ite (fun _ => .pure ?_) fun _ => ?_
    · exact ⟨⟨.refl, fun y => by simp⟩, .found cur⟩
    · refine .bind (vput_walked s cur) fun t ht => .pure ⟨?_, .failed (by decide)⟩
      exact ht.congr fun y => (zero_sub (one cur y)).symm
  | cons c cs ih =>
    refine .seq fun isdir => .ite (fun _ => ?_) fun _ => ?_
    · refine .bind (lookup_walked s cur _) ?_
      rintro ⟨e | next, t⟩ ⟨ht, hneg⟩
      · refine .bind (ht.vput allowsWalks_self fun y => rfl) fun u hu => .pure ⟨hu.1, ?_⟩
        exact .failed (hneg e rfl).1
      · refine .bind (ht.vput allowsWalks_self fun y => rfl) fun u hu => (ih u next).imp ?_
        rintro r ⟨hr, hn⟩
        exact ⟨hu.1.trans hr fun y => by simp only [gain_ok, Pi.sub_apply]; omega, hn⟩
    · refine .bind (vput_walked s cur) fun t ht => .pure ⟨?_, .failed (by decide)⟩
      exact ht.congr fun y => (zero_sub (one cur y)).symm

theorem dirNamev_walked (s : Ramfs) (cwd : Nat) (path : Path) :
    Yields (dirNamev s cwd path) fun r => Walked s r.2 (gain r.1) ∧ Negative r.1 := by
  refine .ite (fun _ => .pure ⟨.refl, .failed (by decide)⟩) fun _ => ?_
  refine .ite (fun _ => .pure ⟨.refl, .failed (by decide)⟩) fun _ => ?_
  refine .bind (vref_walked s cwd) fun t ht => .ite (fun _ => ?_) fun _ => ?_
  · refine .bind (ht.vput allowsWalks_self fun y => sub_self _) fun u hu => ?_
    refine .bind (vref_walked u rootIno) fun v hv => ?_
    have hv := hu.1.trans hv fun y => zero_add _
    refine .ite (fun _ => .pure ⟨hv, .found _⟩) fun _ => ?_
    refine .ite (fun _ => .error _) fun _ => (walk_walked v rootIno _).imp ?_
    rintro r ⟨hr, hn⟩
    exact ⟨hv.trans hr fun y => by simp only [Pi.sub_apply]; omega, hn⟩
  · refine (walk_walked t cwd _).imp ?_
    rintro r ⟨hr, hn⟩
    exact ⟨ht.trans hr fun y => by simp only [Pi.sub_apply]; omega, hn⟩

/-! ## 4. Making an entry

A lookup makes none, so that what a call enters is what its one operation enters. -/

/-- The operations of a path lookup make nothing. -/
theorem step_of_walks {op : RamfsOp} (hop : op.Walks) (h : ramfsStep s op = .ok t) :
    Shrinks s t := by
  cases ramfsStep_effect h with
  | same => exact .refl _
  | ref hr => exact .recounted (vref_eq_ok hr).2
  | get hg => exact .vget hg
  | put hp => exact .vput hp
  | _ => cases hop

theorem shrinks_of_walks (h : WalkRun s t) : Shrinks s t :=
  h.invariant (I := Shrinks s) (.refl s) fun _ _ _ ht hop hu => ht.trans (step_of_walks hop hu)

theorem entered_of_walks (h : WalkRun s t) : t.entered = s.entered :=
  (shrinks_of_walks h).entered

/-- After a path lookup from `s`, an entry for the name was made in a directory that was in memory,
and it is the last change in `t`. -/
def Made (s : Ramfs) (name : Name) (t : Ramfs) : Prop :=
  ∃ u d ino, Lts.Run (fun _ op => op.Walks) ramfsStep s u ∧ u.inCore d = true ∧
    t.entered = some (d, name, ino)

/-- A call fails and makes no entry, or succeeds and makes one. -/
def MakesOne (s : Ramfs) (name : Name) (r : Int) (t : Ramfs) : Prop :=
  r ≠ 0 ∧ t.entered = s.entered ∨ r = 0 ∧ Made s name t

theorem MakesOne.failed (hr : r < 0) (h : t.entered = s.entered) : MakesOne s name r t :=
  .inl ⟨Int.ne_of_lt hr, h⟩

theorem entered_setEntry {es : List Dirent} (h : s.dirOf d = some es) :
    (setEntry s d i ino name).entered = some (d, name, ino) := (setEntry_views h).2.2.2

/-- What one of the operations that make an entry gives its caller. -/
structure Enters (s : Ramfs) (d : Nat) (name : Name) (failed : Prop) (t : Ramfs) : Prop where
  fails : failed → t = s
  enters : ¬ failed → s.inCore d = true ∧ ∃ ino, t.entered = some (d, name, ino)

section
variable (s d name)

theorem ramfsCreate_enters (room : Bool) : Yields (ramfsCreate s d name room) fun r =>
      Enters s d name (∃ e, r.1 = .error e) r.2 ∧ Negative r.1 := by
  rintro ⟨r, t⟩ h
  obtain ⟨⟨e, he, rfl⟩, rfl⟩ | ⟨es, i, ino, u, hnew, hu, rfl, rfl⟩ := ramfsCreate_eq_ok h
  · exact ⟨⟨fun _ => rfl, fun hn => absurd ⟨e, rfl⟩ hn⟩, .failed he⟩
  · have hd := (congrFun (vget_dirOf hu) d).trans (hnew.dir_install _)
    exact ⟨⟨by rintro ⟨e, ⟨⟩⟩, fun _ => ⟨hnew.room.core, ino, entered_setEntry hd⟩⟩, .found ino⟩

theorem ramfsMknod_enters (mode devid : Nat) (room : Bool) :
    Yields (ramfsMknod s d name mode devid room) fun r => Enters s d name (r.1 ≠ 0) r.2 := by
  rintro ⟨r, t⟩ h
  obtain ⟨hr, rfl⟩ | ⟨es, i, ino, mem, hnew, -, rfl, rfl⟩ := ramfsMknod_eq_ok h
  · exact ⟨fun _ => rfl, fun hn => absurd (Int.ne_of_lt hr) hn⟩
  · exact ⟨fun h => absurd rfl h, fun _ =>
      ⟨hnew.room.core, ino, entered_setEntry (hnew.dir_install _)⟩⟩

theorem ramfsLink_enters (s : Ramfs) (old d : Nat) (name : Name) :
    Yields (ramfsLink s old d name) fun r => Enters s d name (r.1 ≠ 0) r.2 := by
  rintro ⟨r, t⟩ h
  obtain ⟨hr, rfl⟩ | ⟨es, i, hroom, -, rfl, rfl⟩ := ramfsLink_eq_ok h
  · exact ⟨fun _ => rfl, fun hn => absurd (Int.ne_of_lt hr) hn⟩
  · refine ⟨fun h => absurd rfl h, fun _ => ⟨hroom.core, old, ?_⟩⟩
    have hent : (setEntry s d i old name).entered = some (d, name, old) :=
      entered_setEntry hroom.dir
    rw [← hent]
    dsimp only [Ramfs.addLink]
    split <;> rfl

theorem ramfsMkdir_enters (room : Bool) :
    Yields (ramfsMkdir s d name room) fun r => Enters s d name (r.1 ≠ 0) r.2 := by
  rintro ⟨r, t⟩ h
  obtain ⟨hr, rfl⟩ | ⟨es, i, ino, hnew, rfl, rfl⟩ := ramfsMkdir_eq_ok h
  · exact ⟨fun _ => rfl, fun hn => absurd (Int.ne_of_lt hr) hn⟩
  · exact ⟨fun h => absurd rfl h, fun _ =>
      ⟨hnew.room.core, ino, entered_setEntry (hnew.dir_install _)⟩⟩

end

/-- The operation is followed by putting references only. -/
theorem Enters.makesOne (h : Enters t d name (r ≠ 0) u)
    (hwalk : WalkRun s t) (hv : v.entered = u.entered) : MakesOne s name r v := by
  obtain hr | hr := eq_or_ne r 0
  · obtain ⟨hcore, ino, he⟩ := h.enters (not_not_intro hr)
    exact .inr ⟨hr, t, d, ino, hwalk, hcore, hv.trans he⟩
  · obtain rfl := h.fails hr
    exact .inl ⟨hr, hv.trans (entered_of_walks hwalk)⟩

/-! ## 5. The calls

Every way out of a call puts what the lookups have taken; `hop` is `legal` for the operation between
them. -/

def PathExists (s : Ramfs) (cwd : Nat) (path : Path) : Prop :=
  ∃ x u, openNamev s cwd path 0 false = .ok (.ok x, u)

theorem lookup_isdir (h : lookup s d name = .ok (.ok x, t)) : s.sIsdir d = .ok true := by
  obtain ⟨b, hb, h⟩ := bind_eq_ok h
  split at h
  · rename_i hdir
    rw [hb, hdir]
  · cases h

theorem openNamev_found (hd : dirNamev s cwd path = .ok (.ok dir, t))
    (hl : lookup t dir path.name = .ok (.ok x, u)) (hv : vput u dir = .ok v) :
    openNamev s cwd path 0 false = .ok (.ok x, v) := by
  simp only [openNamev, hd, hl, hv, lookup_isdir hl, ok_bind, if_true, pure_eq_ok]

theorem not_pathExists_of_dirNamev (hd : dirNamev s cwd path = .ok (.error e, t)) :
    ¬ PathExists s cwd path := by
  rintro ⟨x, u, h⟩
  simp only [openNamev, hd, ok_bind, pure_eq_ok] at h
  cases h

theorem not_pathExists_of_lookup (hd : dirNamev s cwd path = .ok (.ok dir, t))
    (hl : lookup t dir path.name = .ok (.error e, u)) : ¬ PathExists s cwd path := by
  rintro ⟨x, v, h⟩
  simp only [openNamev, hd, hl, ok_bind] at h
  obtain ⟨b, -, h⟩ := bind_eq_ok h
  split at h
  · split at h
    · rename_i hc
      exact absurd hc.2 (by decide)
    · obtain ⟨w, -, h⟩ := bind_eq_ok h
      cases h
  · obtain ⟨w, -, h⟩ := bind_eq_ok h
    cases h

theorem dirNamev_tooLong (h : maxpathlen < path.text.length) :
    dirNamev s cwd path = .ok (.error (-enametoolong), s) := by
  have hne : path.text ≠ [] := by
    rintro he
    rw [he] at h
    cases h
  simp only [dirNamev, if_neg hne, if_pos h, pure_eq_ok]

section
variable (hok : AllowsWalks legal)
include hok

theorem Walked.put (ht : Walked s t (one dir)) :
    Yields (vput t dir) fun w => Does legal s w 0 ∧ w.entered = s.entered :=
  ((ht.mono hok).vput hok fun _ => sub_self _).imp fun _ h =>
    ⟨h.1, h.2.trans (entered_of_walks ht.run)⟩

/-- It is put after an operation that leaves the references as they are. -/
theorem Walked.stepPut (ht : Walked s u (one dir)) (hstep : Does legal u v 0) :
    Yields (vput v dir) fun w => Does legal s w 0 ∧ w.entered = v.entered :=
  have hall : Does legal s v (one dir) := (ht.mono hok).trans hstep fun _ => add_zero _
  hall.vput hok fun _ => sub_self _

/-- `open_namev` returns with a reference to the vnode it found or made. -/
theorem openNamev_does {flag : BitVec 32}
    (hcreate : flag &&& oCreat ≠ 0 → path.name.len ≤ strMax → ∀ t d, WalkRun s t →
    legal t (.create d path.name room)) :
    Yields (openNamev s cwd path flag room) fun r => Does legal s r.2 (gain r.1) ∧ Negative r.1 ∧
      (r.2.entered = s.entered ∨ (∃ x, r.1 = .ok x) ∧ Made s path.name r.2) := by
  refine .bind (dirNamev_walked s cwd path) ?_
  rintro ⟨e | dir, t⟩ ⟨ht, hneg⟩
  · exact .pure ⟨ht.mono hok, hneg, .inl (entered_of_walks ht.run)⟩
  · refine .seq fun isdir => .ite (fun _ => ?_) fun _ => ?_
    · refine .bind ((Yields.self _).and (lookup_walked t dir path.name)) ?_
      rintro ⟨e | x, u⟩ ⟨hl, hu, hun⟩
      · obtain ⟨he, rfl⟩ := hun e rfl
        refine .ite (fun hc => ?_) fun _ => ?_
        · refine .bind (((Yields.self _).and (ramfsCreate_refs u dir path.name room)).and
            (ramfsCreate_enters u dir path.name room)) ?_
          rintro ⟨r, v⟩ ⟨⟨hv, hr⟩, henters, hrn⟩
          -- `O_CREAT`: the entry is made before the directory is put
          have hstep : Does legal u v (gain r) := by
            refine .step _ (hcreate hc.2 (lookup_len (hc.1 ▸ hl)) u dir ht.run) ?_ hr
            simp only [ramfsStep, hv]
            rfl
          have hall : Does legal s v (gain r + one dir) := (ht.mono hok).trans hstep fun y => by
            simp only [gain_ok, Pi.add_apply]
            omega
          have hput : Yields (vput v dir) fun w => Does legal s w (gain r) ∧
            w.entered = v.entered :=
            hall.vput hok fun y => by simp
          refine .bind hput fun w hw => .pure ⟨hw.1, hrn, ?_⟩
          obtain e | x := r
          · obtain rfl := henters.fails ⟨e, rfl⟩
            exact .inl (hw.2.trans (entered_of_walks ht.run))
          · obtain ⟨hcore, ino, hent⟩ := henters.enters (by rintro ⟨e, ⟨⟩⟩)
            exact .inr ⟨⟨x, rfl⟩, u, dir, ino, ht.run, hcore, hw.2.trans hent⟩
        · exact .bind (ht.put hok) fun w hw => .pure ⟨hw.1, .failed he, .inl hw.2⟩
      · have hall : Walked s u (one x + one dir) := ht.trans hu fun y => by
          simp only [gain_ok, Pi.add_apply]
          omega
        have hput : Yields (vput u dir) fun w => Does legal s w (one x) ∧ w.entered = u.entered :=
          (hall.mono hok).vput hok fun y => by simp
        exact .bind hput fun w hw =>
          .pure ⟨hw.1, .found x, .inl (hw.2.trans (entered_of_walks hall.run))⟩
    · exact .bind (ht.put hok) fun w hw => .pure ⟨hw.1, .failed (by decide), .inl hw.2⟩

omit hok in
/-- Without `O_CREAT` nothing is made. -/
theorem openNamev_walked (s : Ramfs) (cwd : Nat) (path : Path) (room : Bool) :
    Yields (openNamev s cwd path 0 room) fun r => Walked s r.2 (gain r.1) ∧ Negative r.1 :=
  (openNamev_does allowsWalks_self fun hc => absurd hc (by decide)).imp fun _ h => ⟨h.1, h.2.1⟩

/-- **`do_mknod`.**  A path that leads to something already is reported with the reference to it not
put; on every other way the references are as before. -/
theorem doMknod_does {mode devid : Nat} (hop : path.name.len ≤ strMax → ∀ t d, WalkRun s t →
      legal t (.mknod d path.name mode devid room)) :
    Yields (doMknod s cwd path mode devid room) fun r =>
      ((sIschr mode || sIsblk mode) = true ∧ r.1 = -eexist ∧ r.2.entered = s.entered ∧
        ∃ x, openNamev s cwd path 0 false = .ok (.ok x, r.2)) ∨
      (¬ ((sIschr mode || sIsblk mode) = true ∧ PathExists s cwd path) ∧ Does legal s r.2 0 ∧
        MakesOne s path.name r.1 r.2) := by
  unfold doMknod
  refine .ite (fun hm =>
    .pure (.inr ⟨?_, .refl, .failed (show -einval < 0 by decide) rfl⟩)) fun _ => ?_
  · rintro ⟨hm', -⟩
    rw [hm'] at hm
    cases hm
  refine .ite (fun hlong =>
    .pure (.inr ⟨?_, .refl, .failed (show -enametoolong < 0 by decide) rfl⟩)) fun _ => ?_
  · exact fun h => not_pathExists_of_dirNamev (dirNamev_tooLong hlong) h.2
  refine .bind ((Yields.self _).and (dirNamev_walked s cwd path)) ?_
  rintro ⟨e | dir, t⟩ ⟨hd, ht, hneg⟩
  · refine .pure (.inr ⟨fun h => not_pathExists_of_dirNamev hd h.2, ht.mono hok, .inl ?_⟩)
    exact ⟨Int.ne_of_lt (hneg e rfl), entered_of_walks ht.run⟩
  · refine .bind ((Yields.self _).and (lookup_walked t dir path.name)) ?_
    rintro ⟨e | x, u⟩ ⟨hl, hu, hun⟩
    · obtain ⟨he, rfl⟩ := hun e rfl
      have hnot := not_pathExists_of_lookup hd hl
      refine .seq fun isdir => .seq fun _ => .ite (fun hno => ?_) fun _ => ?_
      · refine .bind (((Yields.self _).and (ramfsMknod_refs u dir path.name mode devid room)).and
          (ramfsMknod_enters u dir path.name mode devid room)) ?_
        rintro ⟨r, v⟩ ⟨⟨hv, hr⟩, henters⟩
        have hstep : Does legal u v 0 := .step _ (hop (lookup_len (hno ▸ hl)) u dir ht.run)
          (by simp only [ramfsStep, hv]; rfl) fun y => by simp [hr y]
        refine .bind (ht.stepPut hok hstep) fun w hw => .pure (.inr ?_)
        exact ⟨fun h => hnot h.2, hw.1, henters.makesOne ht.run hw.2⟩
      · refine .bind (ht.put hok) fun w hw => .pure (.inr ?_)
        exact ⟨fun h => hnot h.2, hw.1, .inl ⟨Int.ne_of_lt he, hw.2⟩⟩
    · rename_i hmode _
      intro r hr
      obtain ⟨w, hw, hr⟩ := bind_eq_ok hr
      cases hr
      have hopen := openNamev_found hd hl hw
      refine .inl ⟨by simpa [Bool.or_eq_true, or_iff_not_imp_left] using hmode, rfl, ?_, x, hopen⟩
      exact entered_of_walks (openNamev_walked s cwd path false _ hopen).1.run

theorem doMkdir_does (hop : ∀ t d, dirNamev s cwd path = .ok (.ok d, t) →
    legal t (.mkdir d path.name room)) :
    Yields (doMkdir s cwd path room) fun r =>
      Does legal s r.2 0 ∧ MakesOne s path.name r.1 r.2 := by
  unfold doMkdir
  refine .ite (fun _ => .pure ⟨.refl, .failed (show -enametoolong < 0 by decide) rfl⟩) fun _ => ?_
  refine .bind ((Yields.self _).and (dirNamev_walked s cwd path)) ?_
  rintro ⟨e | dir, t⟩ ⟨hd, ht, hneg⟩
  · exact .pure ⟨ht.mono hok, .inl ⟨Int.ne_of_lt (hneg e rfl), entered_of_walks ht.run⟩⟩
  · refine .ite (fun _ => ?_) fun _ => ?_
    · refine .bind (ht.put hok) fun w hw => .pure ?_
      exact ⟨hw.1, .failed (show -enametoolong < 0 by decide) hw.2⟩
    · refine .bind (lookup_walked t dir path.name) ?_
      rintro ⟨e | x, u⟩ ⟨hu, hun⟩
      · obtain ⟨he, rfl⟩ := hun e rfl
        refine .seq fun isdir => .seq fun _ => ?_
        refine .bind (((Yields.self _).and (ramfsMkdir_refs u dir path.name room)).and
          (ramfsMkdir_enters u dir path.name room)) ?_
        rintro ⟨r, v⟩ ⟨⟨hv, hr⟩, henters⟩
        have hstep : Does legal u v 0 := .step _ (hop u dir hd) (by simp only [ramfsStep, hv]; rfl)
          fun y => by simp [hr y]
        refine .bind (ht.stepPut hok hstep) fun w hw => .pure ?_
        exact ⟨hw.1, henters.makesOne ht.run hw.2⟩
      · have hall := ht.trans hu fun y => rfl
        refine .bind ((hall.mono hok).vput hok fun y => add_sub_cancel_right _ _) fun v hv => ?_
        refine .bind (hv.1.vput hok fun y => sub_self _) fun w hw => .pure ?_
        refine ⟨hw.1, .failed (show -eexist < 0 by decide) ?_⟩
        exact (hw.2.trans hv.2).trans (entered_of_walks hall.run)

theorem doRmdir_does {null : Bool}
    (hop : ∀ t d, dirNamev s cwd path = .ok (.ok d, t) → legal t (.rmdir d path.name)) :
    Yields (doRmdir s cwd path null) fun r => Does legal s r.2 0 := by
  refine .ite (fun _ => .pure .refl) fun _ => ?_
  refine .bind ((Yields.self _).and (dirNamev_walked s cwd path)) ?_
  rintro ⟨e | dir, t⟩ ⟨hd, ht, -⟩
  · exact .pure (ht.mono hok)
  · have hput := ht.put hok
    refine .ite (fun _ => .ite (fun _ => ?_) fun _ => ?_) fun _ => ?_
    · exact .bind hput fun w hw => .pure hw.1
    · exact .bind hput fun w hw => .pure hw.1
    · refine .seq fun isdir => .ite (fun _ => ?_) fun _ => ?_
      · refine .bind ((Yields.self _).and (ramfsRmdir_refs t dir path.name)) ?_
        rintro ⟨r, v⟩ ⟨hv, hr⟩
        have hstep : Does legal t v 0 := .step _ (hop t dir hd) (by simp only [ramfsStep, hv]; rfl)
          fun y => by simp [hr y]
        exact .bind (ht.stepPut hok hstep) fun w hw => .pure hw.1
      · exact .bind hput fun w hw => .pure hw.1

theorem doUnlink_does (hop : ∀ t d, legal t (.unlink d path.name)) :
    Yields (doUnlink s cwd path) fun r => Does legal s r.2 0 := by
  refine .ite (fun _ => .pure .refl) fun _ => ?_
  refine .bind (dirNamev_walked s cwd path) ?_
  rintro ⟨e | dir, t⟩ ⟨ht, -⟩
  · exact .pure (ht.mono hok)
  · refine .ite (fun _ => ?_) fun _ => ?_
    · exact .bind (ht.put hok) fun w hw => .pure hw.1
    · refine .bind (lookup_walked t dir path.name) ?_
      rintro ⟨e | x, u⟩ ⟨hu, hun⟩
      · obtain ⟨-, rfl⟩ := hun e rfl
        exact .bind (ht.put hok) fun w hw => .pure hw.1
      · have hall := (ht.trans hu fun y => rfl).mono hok
        -- both references are put after the operation, or without it
        have hputs : ∀ {v : Ramfs} {r : Int},
          Does legal s v (fun y => gain (.ok dir) y + gain (.ok x) y) →
            Yields (do pure (r, ← vput (← vput v dir) x)) fun r => Does legal s r.2 0 := fun hv =>
          .bind (hv.vput hok fun y => add_sub_cancel_left _ _) fun v hv =>
            .bind (hv.1.vput hok fun y => sub_self _) fun w hw => .pure hw.1
        refine .seq fun isdir => .ite (fun _ => hputs hall) fun _ => ?_
        refine .seq fun _ => .seq fun _ => ?_
        refine .bind ((Yields.self _).and (ramfsUnlink_refs u dir path.name)) ?_
        rintro ⟨r, v⟩ ⟨hv, hr⟩
        have hstep : Does legal u v 0 :=
          .step _ (hop u dir) (by simp only [ramfsStep, hv]; rfl) fun y => by simp [hr y]
        exact hputs (hall.trans hstep fun y => add_zero _)

theorem doLink_does {source target : Path}
    (hop : ∀ old u t d, openNamev s cwd source 0 false = .ok (.ok old, u) →
      WalkRun u t → legal t (.link old d target.name)) :
    Yields (doLink s cwd source target) fun r =>
      Does legal s r.2 0 ∧ MakesOne s target.name r.1 r.2 := by
  refine .ite (fun _ => .pure ⟨.refl, .failed (show -enametoolong < 0 by decide) rfl⟩) fun _ => ?_
  refine .ite (fun _ => .pure ⟨.refl, .failed (show -einval < 0 by decide) rfl⟩) fun _ => ?_
  refine .bind ((Yields.self _).and (openNamev_walked s cwd source false)) ?_
  rintro ⟨e | old, t⟩ ⟨hopen, ht, hneg⟩
  · exact .pure ⟨ht.mono hok, .inl ⟨Int.ne_of_lt (hneg e rfl), entered_of_walks ht.run⟩⟩
  · refine .bind (dirNamev_walked t cwd target) ?_
    rintro ⟨e | dir, u⟩ ⟨hu, hneg⟩
    · have hall := ht.trans hu fun y => add_zero _
      refine .bind (Walked.put hok hall) fun w hw => .pure ?_
      exact ⟨hw.1, .inl ⟨Int.ne_of_lt (hneg e rfl), hw.2⟩⟩
    · have hall := ht.trans hu fun y => rfl
      have hent := entered_of_walks hall.run
      have hputs : ∀ {v : Ramfs} {r : Int},
        Does legal s v (fun y => gain (.ok old) y + gain (.ok dir) y) →
          (∀ w : Ramfs, w.entered = v.entered → MakesOne s target.name r w) →
          Yields (do pure (r, ← vput (← vput v old) dir)) fun r =>
            Does legal s r.2 0 ∧ MakesOne s target.name r.1 r.2 := fun hv hm =>
        .bind (hv.vput hok fun y => add_sub_cancel_left _ _) fun v hv =>
          .bind (hv.1.vput hok fun y => sub_self _) fun w hw =>
            .pure ⟨hw.1, hm w (hw.2.trans hv.2)⟩
      have hfail : ∀ r : Int, r ≠ 0 → ∀ w :
        Ramfs, w.entered = u.entered → MakesOne s target.name r w :=
        fun r hr w hw => .inl ⟨hr, hw.trans hent⟩
      refine .ite (fun _ => hputs (hall.mono hok) (hfail _ (by decide))) fun _ => ?_
      refine .bind (lookup_walked u dir target.name) ?_
      rintro ⟨e | x, v⟩ ⟨hv, hun⟩
      · obtain ⟨-, rfl⟩ := hun e rfl
        refine .seq fun isdir => .ite (fun _ => ?_) fun _ => ?_
        · refine .bind (((Yields.self _).and (ramfsLink_refs v old dir target.name)).and
            (ramfsLink_enters v old dir target.name)) ?_
          rintro ⟨r, w⟩ ⟨⟨hw, hr⟩, henters⟩
          have hstep : Does legal v w 0 :=
            .step _ (hop old t v dir hopen hu.run) (by simp only [ramfsStep, hw]; rfl) fun y => by
              simp [hr y]
          refine hputs ((hall.mono hok).trans hstep fun y => add_zero _) fun w' hw' => ?_
          exact henters.makesOne hall.run hw'
        · exact hputs (hall.mono hok) (hfail _ (by decide))
      · have hall' : Walked s v (fun y => one dir y + one x y + one old y) :=
          hall.trans hv fun y => by
          change one old y + one dir y + one x y = one dir y + one x y + one old y
          omega
        refine .bind ((hall'.mono hok).vput hok fun y => add_sub_cancel_right _ _) fun w hw => ?_
        refine .bind (hw.1.vput hok fun y => add_sub_cancel_left _ _) fun w1 hw1 => ?_
        refine .bind (hw1.1.vput hok fun y => sub_self _) fun w2 hw2 => .pure ?_
        refine ⟨hw2.1, .failed (show -eexist < 0 by decide) ?_⟩
        exact ((hw2.2.trans hw1.2).trans hw.2).trans (entered_of_walks hall'.run)

theorem doRename_does {oldname newname : Path}
    (hlink : ∀ old u t d, openNamev s cwd oldname 0 false = .ok (.ok old, u) →
      WalkRun u t → legal t (.link old d newname.name))
    (hunlink : ∀ t d, legal t (.unlink d oldname.after.name)) :
    Yields (doRename s cwd oldname newname) fun r => Does legal s r.2 0 := by
  refine .bind (doLink_does hok hlink) ?_
  rintro ⟨r, t⟩ ⟨ht, -⟩
  refine .ite (fun _ => .pure ht) fun _ => (doUnlink_does hok hunlink).imp fun r hr => ?_
  exact ht.trans hr fun y => add_zero _

omit hok in
theorem doStat_walked (s : Ramfs) (cwd : Nat) (path : Path) :
    Yields (doStat s cwd path) fun r => Walked s r.2 0 := by
  refine .ite (fun _ => .pure .refl) fun _ => .ite (fun _ => .pure .refl) fun _ => ?_
  refine .bind (dirNamev_walked s cwd path) ?_
  rintro ⟨e | dir, t⟩ ⟨ht, -⟩
  · exact .pure ht
  · have hput : Yields (vput t dir) fun w => Walked s w 0 ∧ w.entered = t.entered :=
      ht.vput allowsWalks_self fun y => sub_self _
    refine .seq fun isdir => .ite (fun _ => ?_) fun _ => ?_
    · refine .bind (lookup_walked t dir path.name) ?_
      rintro ⟨e | x, u⟩ ⟨hu, hun⟩
      · obtain ⟨-, rfl⟩ := hun e rfl
        exact .bind hput fun w hw => .pure hw.1
      · have hall := ht.trans hu fun y => rfl
        refine .bind (hall.vput allowsWalks_self fun y => add_sub_cancel_left _ _) fun v hv => ?_
        refine .seq fun buf => ?_
        exact .bind (hv.1.vput allowsWalks_self fun y => sub_self _) fun w hw => .pure hw.1
    · exact .bind hput fun w hw => .pure hw.1

omit hok in
/-- `do_chdir` moves a reference from the old working directory to the new one, or
changes nothing. -/
theorem doChdir_walked (s : Ramfs) (cwd : Nat) (path : Path) : Yields (doChdir s cwd path) fun r =>
      (r.1.1 < 0 ∧ r.1.2 = none ∧ Walked s r.2 0) ∨ ∃ x, r.1 = (0, some x) ∧
        Walked s r.2 (one x - one cwd) := by
  refine .ite (fun _ => .pure (.inl ⟨show -enametoolong < 0 by decide, rfl, .refl⟩)) fun _ => ?_
  refine .bind (openNamev_walked s cwd path false) ?_
  rintro ⟨e | x, t⟩ ⟨ht, hneg⟩
  · exact .pure (.inl ⟨hneg e rfl, rfl, ht⟩)
  · refine .seq fun isdir => .ite (fun _ => ?_) fun _ => ?_
    · exact .bind (ht.vput allowsWalks_self fun y => rfl) fun w hw => .pure (.inr ⟨x, rfl, hw.1⟩)
    · exact .bind (ht.vput allowsWalks_self fun y => sub_self _) fun w hw =>
        .pure (.inl ⟨show -enotdir < 0 by decide, rfl, hw.1⟩)

/-- What `do_open` leaves behind: the vnode with the `file_t`, or nothing. -/
def Opens (legal : Ramfs → RamfsOp → Prop) (s : Ramfs) (env : OpenEnv)
    (r : Int × Option (Nat × Nat))
    (t : Ramfs) : Prop :=
  (r.1 < 0 ∧ r.2 = none ∧ Does legal s t 0) ∨
    ∃ f x, 0 ≤ r.1 ∧ env.file = some f ∧ r.2 = some (f, x) ∧ Does legal s t (one x)

theorem doOpen_does {oflags : BitVec 32} {env : OpenEnv}
    (hcreate : oflags &&& oCreat ≠ 0 → path.name.len ≤ strMax → ∀ t d,
      WalkRun s t → legal t (.create d path.name env.room)) :
    Yields (doOpen s cwd path oflags env) fun r => Opens legal s env r.1 r.2 ∧
      (r.2.entered = s.entered ∨ Made s path.name r.2) := by
  have hnone : ∀ {r : Int}, r < 0 → Yields (.ok ((r, none), s) : Except Halt _) fun r =>
      Opens legal s env r.1 r.2 ∧ (r.2.entered = s.entered ∨ Made s path.name r.2) := fun hr =>
    .ok ⟨.inl ⟨hr, rfl, .refl⟩, .inl rfl⟩
  refine .ite (fun _ => hnone (by decide)) fun _ => ?_
  split
  · exact hnone (by decide)
  · exact hnone (by decide)
  · rename_i fd f _ hf
    refine .bind (openNamev_does hok hcreate) ?_
    rintro ⟨e | x, t⟩ ⟨ht, hneg, hmade⟩
    · refine .pure ⟨.inl ⟨hneg e rfl, rfl, ht⟩, hmade.imp id fun h => h.2⟩
    · have hmade : t.entered = s.entered ∨ Made s path.name t := hmade.imp id fun h => h.2
      have hput : ∀ {r : Int}, r < 0 → Yields (do pure ((r, none), ← vput t x)) fun r =>
          Opens legal s env r.1 r.2 ∧ (r.2.entered = s.entered ∨ Made s path.name r.2) := fun hr =>
        .bind (ht.vput hok fun y => sub_self _) fun w hw =>
          .pure ⟨.inl ⟨hr, rfl, hw.1⟩, by rw [Made, hw.2]; exact hmade⟩
      have hdone : Yields (.ok (((fd : Int), some (f, x)), t) : Except Halt _) fun r =>
          Opens legal s env r.1 r.2 ∧ (r.2.entered = s.entered ∨ Made s path.name r.2) :=
        .ok ⟨.inr ⟨f, x, Int.natCast_nonneg fd, hf, rfl, ht⟩, hmade⟩
      refine .seq fun isdir => .ite (fun _ => hput (by decide)) fun _ => ?_
      split
      · exact .ite (fun _ => hdone) fun _ => hput (by decide)
      · exact .ite (fun _ => hdone) fun _ => hput (by decide)
      · exact hdone

end

/-! ## 6. A step of the system

The lemmas above, for the process's working directory. -/

section
variable {s t : VfsSys} {p x : Nat} {r : Int}

theorem cwd_eq_ok (h : s.cwd p = .ok x) : s.pCwd p = some x := by
  unfold VfsSys.cwd at h
  split at h
  · rename_i y hy
    cases h
    exact hy
  · cases h

theorem onRam_eq_ok {call : Ramfs → Nat → Except Halt (Int × Ramfs)}
    (h : s.onRam p call = .ok (r, t)) :
    ∃ cwd ram, s.pCwd p = some cwd ∧ call s.found cwd = .ok (r, ram) ∧
      t = { s with ram := ram } := by
  obtain ⟨cwd, hcwd, h⟩ := bind_eq_ok h
  obtain ⟨⟨r', ram⟩, hcall, h⟩ := bind_eq_ok h
  cases h
  exact ⟨cwd, ram, cwd_eq_ok hcwd, hcall, rfl⟩

/-- The operations of a call other than those of its path lookups satisfy `legal` when they are
performed. -/
def CallOk (legal : Ramfs → RamfsOp → Prop) (s : VfsSys) : VfsCall → Prop
  | .open _ path oflags env =>
    oflags &&& oCreat ≠ 0 → path.name.len ≤ strMax → ∀ t d, legal t (.create d path.name env.room)
  | .mknod _ path mode devid room =>
    path.name.len ≤ strMax → ∀ t d, legal t (.mknod d path.name mode devid room)
  | .mkdir p path room => ∀ cwd ∈ s.pCwd p, ∀ t d, dirNamev s.found cwd path = .ok (.ok d, t) →
    legal t (.mkdir d path.name room)
  | .rmdir p path _ => ∀ cwd ∈ s.pCwd p, ∀ t d, dirNamev s.found cwd path = .ok (.ok d, t) →
    legal t (.rmdir d path.name)
  | .unlink _ path => ∀ t d, legal t (.unlink d path.name)
  | .link p source target => ∀ cwd ∈ s.pCwd p, ∀ old u t d,
    openNamev s.found cwd source 0 false = .ok (.ok old, u) →
    Lts.Run (fun _ op => op.Walks) ramfsStep u t → legal t (.link old d target.name)
  | .rename p oldname newname => (∀ cwd ∈ s.pCwd p, ∀ old u t d,
    openNamev s.found cwd oldname 0 false = .ok (.ok old, u) →
    Lts.Run (fun _ op => op.Walks) ramfsStep u t → legal t (.link old d newname.name)) ∧
    ∀ t d, legal t (.unlink d oldname.after.name)
  | _ => True

/-- A page of a vnode comes or goes. -/
def VfsCall.Paged : VfsCall → Prop
  | .cachePage _ | .freePage _ => True
  | _ => False

/-- The calls that are to leave the references alone whatever they return. -/
def VfsCall.Neutral : VfsCall → Prop
  | .mknod .. | .mkdir .. | .rmdir .. | .unlink .. | .link .. | .rename .. | .stat .. => True
  | _ => False

/-- `do_mknod` for a device, on a path that leads to something. -/
def Leaks (s : VfsSys) : VfsCall → Prop
  | .mknod p path mode _ _ =>
    (sIschr mode || sIsblk mode) = true ∧ ∃ cwd ∈ s.pCwd p, PathExists s.found cwd path
  | _ => False

section
variable (hok : AllowsWalks legal) (hc : CallOk legal s call)
include hok hc

/-- A neutral call moves no reference, or it leaks the one that its lookup took. -/
theorem neutral_does (hn : call.Neutral) (h : vfsCall s call = .ok (r, t)) :
    ∃ ram, t = { s with ram := ram } ∧
      ((Leaks s call ∧ ∃ cwd path x, openNamev s.found cwd path 0 false = .ok (.ok x, ram)) ∨
        ¬ Leaks s call ∧ Does legal s.found ram 0) := by
  unfold vfsCall at h
  cases call with
  | mknod p path mode devid room =>
    obtain ⟨cwd, ram, hcwd, hcall, rfl⟩ := onRam_eq_ok h
    rcases doMknod_does hok (fun h1 t d _ => hc h1 t d) _ hcall with ⟨hmode, -, -, x,
      hopen⟩ | ⟨hnot, hdoes, -⟩
    · exact ⟨ram, rfl, .inl ⟨⟨hmode, cwd, hcwd, x, ram, hopen⟩, cwd, path, x, hopen⟩⟩
    · refine ⟨ram, rfl, .inr ⟨?_, hdoes⟩⟩
      rintro ⟨hmode, cwd', hcwd', hex⟩
      obtain rfl : cwd = cwd' := Option.some.inj (hcwd.symm.trans hcwd')
      exact hnot ⟨hmode, hex⟩
  | mkdir p path room =>
    obtain ⟨cwd, ram, hcwd, hcall, rfl⟩ := onRam_eq_ok h
    exact ⟨ram, rfl, .inr ⟨id, (doMkdir_does hok (hc cwd hcwd) _ hcall).1⟩⟩
  | rmdir p path null =>
    obtain ⟨cwd, ram, hcwd, hcall, rfl⟩ := onRam_eq_ok h
    exact ⟨ram, rfl, .inr ⟨id, doRmdir_does hok (hc cwd hcwd) _ hcall⟩⟩
  | unlink p path =>
    obtain ⟨cwd, ram, -, hcall, rfl⟩ := onRam_eq_ok h
    exact ⟨ram, rfl, .inr ⟨id, doUnlink_does hok hc _ hcall⟩⟩
  | link p source target =>
    obtain ⟨cwd, ram, hcwd, hcall, rfl⟩ := onRam_eq_ok h
    exact ⟨ram, rfl, .inr ⟨id, (doLink_does hok (hc cwd hcwd) _ hcall).1⟩⟩
  | rename p oldname newname =>
    obtain ⟨cwd, ram, hcwd, hcall, rfl⟩ := onRam_eq_ok h
    exact ⟨ram, rfl, .inr ⟨id, doRename_does hok (hc.1 cwd hcwd) hc.2 _ hcall⟩⟩
  | stat p path =>
    obtain ⟨cwd, ram, -, hcall, rfl⟩ := onRam_eq_ok h
    obtain ⟨⟨⟨r', buf⟩, ram'⟩, hstat, hr⟩ := map_eq_ok hcall
    cases hr
    exact ⟨_, rfl, .inr ⟨id, (doStat_walked s.found cwd path _ hstat).mono hok⟩⟩
  | _ => cases hn

/-- **A call of the system is a run of operations on the file system.** -/
theorem vfsCall_ram (hpage : ¬ call.Paged) (h : vfsCall s call = .ok (r, t)) :
    Lts.Run legal ramfsStep s.found t.ram := by
  have hone : ∀ (op : RamfsOp) {u : Ramfs}, op.Walks → ramfsStep s.found op = .ok u →
      Lts.Run legal ramfsStep s.found u := fun _ _ hw hs => .tail .refl (hok _ _ hw) hs
  by_cases hn : call.Neutral
  · obtain ⟨ram, rfl, ⟨-, cwd, path, x, hopen⟩ | ⟨-, hdoes⟩⟩ := neutral_does hok hc hn h
    · exact ((openNamev_walked s.found cwd path false _ hopen).1.mono hok).run
    · exact hdoes.run
  unfold vfsCall at h
  cases call with
  | start p =>
    obtain ⟨ram, hram, h⟩ := bind_eq_ok h
    cases h
    exact hone (.vref rootIno) trivial hram
  | fork p child =>
    obtain ⟨x, -, h⟩ := bind_eq_ok h
    obtain ⟨ram, hram, h⟩ := bind_eq_ok h
    cases h
    exact hone (.vref x) trivial hram
  | exit p =>
    obtain ⟨x, -, h⟩ := bind_eq_ok h
    obtain ⟨ram, hram, h⟩ := bind_eq_ok h
    cases h
    exact hone (.vput x) trivial hram
  | «open» p path oflags env =>
    obtain ⟨cwd, -, h⟩ := bind_eq_ok h
    obtain ⟨⟨⟨r', opened⟩, ram⟩, hcall, h⟩ := bind_eq_ok h
    have hopens := (doOpen_does hok (fun h1 h2 t d _ => hc h1 h2 t d) _ hcall).1
    have hram : Lts.Run legal ramfsStep s.found ram := by
      obtain ⟨-, -, hd⟩ | ⟨f, y, -, -, -, hd⟩ := hopens
      · exact hd.run
      · exact hd.run
    obtain _ | ⟨f, vn⟩ := opened
    · cases h
      exact hram
    · cases h
      exact hram
  | close f =>
    dsimp only at h
    split at h
    · rename_i x _
      obtain ⟨ram, hram, h⟩ := bind_eq_ok h
      cases h
      exact hone (.vput x) trivial hram
    · cases h
  | chdir p path =>
    obtain ⟨cwd, -, h⟩ := bind_eq_ok h
    obtain ⟨⟨⟨r', new⟩, ram⟩, hcall, h⟩ := bind_eq_ok h
    have hram : Lts.Run legal ramfsStep s.found ram := by
      obtain ⟨-, -, hd⟩ | ⟨y, -, hd⟩ := doChdir_walked s.found cwd path _ hcall
      · exact (hd.mono hok).run
      · exact (hd.mono hok).run
    obtain _ | y := new
    · cases h
      exact hram
    · cases h
      exact hram
  | cachePage x => exact absurd trivial hpage
  | freePage x => exact absurd trivial hpage
  | _ => exact absurd trivial hn

/-- When a page comes or goes, the counts of one vnode change besides. -/
theorem vfsCall_run (h : vfsCall s call = .ok (r, t)) :
    ∃ u v, Recounted s.found u ∧ Lts.Run legal ramfsStep u v ∧ Recounted v t.ram := by
  have hone : ∀ (op : RamfsOp) {u v : Ramfs}, op.Walks → ramfsStep u op = .ok v →
      Lts.Run legal ramfsStep u v := fun _ _ _ hw hs => .tail .refl (hok _ _ hw) hs
  cases call with
  | cachePage x =>
    obtain ⟨ram, hram, h⟩ := bind_eq_ok h
    obtain ⟨vn, hvn, h⟩ := bind_eq_ok h
    cases h
    exact ⟨_, ram, .refl _, hone (.vref x) trivial hram, .setVnode (getVnode_eq_ok hvn)⟩
  | freePage x =>
    obtain ⟨vn, hvn, h⟩ := bind_eq_ok h
    obtain ⟨ram, hram, h⟩ := bind_eq_ok h
    cases h
    exact ⟨_, ram, .setVnode (getVnode_eq_ok hvn), hone (.vput x) trivial hram, .refl _⟩
  | _ => exact ⟨_, _, .refl _, vfsCall_ram hok hc id h, .refl _⟩

end

end

end Weenix.Vfs
