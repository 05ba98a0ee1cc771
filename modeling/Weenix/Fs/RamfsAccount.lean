/-
# The operations keep the account of the links

Each operation of the memory file system keeps the account of `RamfsLinks.lean`, and so does every
run of them.  The condition `LinkSafe` on the operations is what a strict account needs.
-/
import Weenix.Fs.RamfsLinks

namespace Weenix.Vfs

open Slots List Option Ramfs

variable {ino i : Nat} {u : Ramfs}

variable {s t : Ramfs} {x y d : Nat} {name : Name} {es : List Dirent} {e : Dirent}
variable {strict : Prop} {debt : Nat → Int}

/-! ## 1. The operations -/

namespace Books

theorem get (h : Books strict s debt) (hg : vget s x = .ok t) : Books strict t debt := by
  obtain ⟨-, hr⟩ | hl := vget_eq_ok hg
  · exact h.recounted hr
  · exact h.loaded hl

theorem put (h : Books strict s debt) (hp : vput s x = .ok t) : BooksAfter strict debt t := by
  obtain ⟨hr, -⟩ | hu := vput_eq_ok hp
  · exact ⟨debt, h.recounted hr, fun _ => rfl⟩
  · exact h.unloaded hu

/-- The entry and its link go. -/
theorem removing (h : Books strict s debt) (hes : s.dirOf d = some es)
    (hfind : es.find? (fun e => nameMatch e.rdName name) = some e) (hn : e.named = true)
    (hcore : s.inCore e.rdIno = true)
    (hempty : strict → ∀ es', s.dirOf e.rdIno = some es' → ∀ e' ∈ es', e'.named = false) :
    Books strict ((clearEntry s d name).addLink e.rdIno (-1)) debt := by
  have hclear := h.clear hes hfind hn hempty
  obtain ⟨-, hcount, hcore', -⟩ : _ ∧ _ ∧ _ ∧ (clearEntry s d name).entered = _ :=
    clearEntry_views hes
  obtain ⟨n, hn'⟩ := ne_none_iff_exists'.mp (h.inCore _ hcore)
  rw [← hcount] at hn'
  have hn2 := hclear.count _ n hn'
  have := h.nonneg e.rdIno
  have := one_nonneg rootIno e.rdIno
  have hcx : core (clearEntry s d name) e.rdIno = 1 := by rw [core, hcore', hcore, if_pos rfl]
  rw [Pi.add_apply, one_self, hcx] at hn2
  have hadd := hclear.addLink (m := -1) hn' (by omega) (by rw [Pi.add_apply, one_self]; omega)
  have hsame : (debt + one e.rdIno + fun y => -1 * one e.rdIno y) = debt := by
    funext y
    simp
  rwa [hsame] at hadd

end Books

/-- How the operations must be used: an entry gets a name and is made in a directory that can be
reached, and `ramfs_unlink` is not given '..'.  The first two matter to a strict account only. -/
def LinkSafe (strict : Prop) (s : Ramfs) : RamfsOp → Prop
  | .create d name _ | .mknod d name _ _ _ | .link _ d name | .mkdir d name _ =>
    strict → Linked s d ∧ name.str ≠ []
  | .unlink _ name => name.str ≠ ['.', '.']
  | _ => True

instance (strict : Prop) [Decidable strict] (s : Ramfs) : ∀ op, Decidable (LinkSafe strict s op)
  | .create d name _ | .mknod d name _ _ _ | .link _ d name | .mkdir d name _ =>
    inferInstanceAs (Decidable (strict → Linked s d ∧ name.str ≠ []))
  | .unlink _ name => inferInstanceAs (Decidable (name.str ≠ ['.', '.']))
  | .vref _ | .vget _ | .vput _ | .lookup .. | .rmdir .. | .read .. | .write .. =>
    inferInstanceAs (Decidable True)

theorem stored_ne_nil (hf : name.Final) (h : name.str ≠ []) : name.stored ≠ [] := by
  rw [Name.Final, if_neg h] at hf
  have hpos := length_pos_iff.mpr h
  rw [Name.stored, hf, ← length_pos_iff, length_take]
  simp only [nameLen]
  omega

theorem named_dottedDir {up : Nat} (he : e ∈ dottedDir ino up) : e.named = false := by
  obtain rfl | he := mem_cons.mp he
  · rfl
  · obtain rfl | he := mem_cons.mp he
    · rfl
    · rw [(mem_replicate.mp he).2]
      rfl

theorem liveSlots_dottedDir (ino up : Nat) : liveSlots (dottedDir ino up) = 2 := by
  simp [liveSlots, dottedDir, countP_replicate]

theorem Found.named (h : Found s d name es e u) (hf : name.Final)
    (hdot : nameMatch ['.'] name = false) (hdots : nameMatch ['.', '.'] name = false) :
    e.named = true := by
  have hne : ∀ fname, nameMatch fname name = false → e.rdName ≠ fname := by
    rintro fname hfalse rfl
    rw [h.matches] at hfalse
    cases hfalse
  exact named_iff.mpr ⟨(rdName_of_nameMatch hf h.matches).2, hne _ hdot, hne _ hdots⟩

namespace Books

/-- A lookup that succeeds, as seen by the account. -/
theorem found (h : Books strict s debt) (hf : Found s d name es e u) :
    Books strict u debt ∧ u.dirOf d = some es ∧ u.inCore e.rdIno = true := by
  refine ⟨h.get hf.got, (congrFun (vget_dirOf hf.got) d).trans hf.dir, ?_⟩
  obtain ⟨hc, hr⟩ | hl := vget_eq_ok hf.got
  · rw [hr.views.2.2.1]
    exact hc
  · rw [hl.inCore, update_self]

/-- A new inode, in the table and possibly in memory, gets its entry. -/
theorem enterNew {v : Ramfs} {i : Nat} (inode : Inode) (h : Books strict v (debt + one ino))
    (hnonneg : 0 ≤ debt ino) (hf : name.Final) (hnew : NewEntry s d name es i ino)
    (hsafe : strict → Linked s d ∧ name.str ≠ []) (hdir : v.dirOf = (Vfs.install s ino inode).dirOf)
    (hpresent : v.linkcount ino ≠ none) : BooksAfter strict debt (setEntry v d i ino name) := by
  rw [(install_views s ino inode).1] at hdir
  have hes : v.dirOf d = some es := by
    rw [hdir, update_of_ne hnew.ne]
    exact hnew.room.dir
  have hlinked : strict → Linked v d := fun hs => (hsafe hs).1.imp id fun hpos => by
    have := links_update hnew.lt hdir d
    rw [dirOf_of_linkcount_none hnew.new, count_none] at this
    omega
  have hne : strict → name.stored ≠ [] := fun hs => stored_ne_nil hf (hsafe hs).2
  have henter := h.enter hf hes hnew.room.absent hnew.room.free hpresent
    (by rw [Pi.add_apply, one_self]; omega) fun hs => ⟨hlinked hs, hne hs⟩
  refine ⟨_, henter, fun hs => ?_⟩
  rw [paid, if_neg (hne hs)]
  exact add_sub_cancel_right _ _

section
variable (h : Books strict s debt) (hf : name.Final) (hsafe : strict → Linked s d ∧ name.str ≠ [])
include h hf hsafe

theorem create (hnew : NewEntry s d name es i ino)
    (hv : vget (Vfs.install s ino ⟨0, zeroPage, 1⟩) ino = .ok t) :
    BooksAfter strict debt (setEntry t d i ino name) := by
  have hi : Books strict (Vfs.install s ino ⟨0, zeroPage, 1⟩) (debt + one ino) :=
    h.install hnew.lt hnew.new rfl (by rintro es ⟨⟩) (by rintro es ⟨⟩)
  have hcount : (Vfs.install s ino ⟨0, zeroPage, 1⟩).linkcount ino = some 1 := by
    rw [(install_views s ino _).2.1, update_self]
  refine enterNew ⟨0, zeroPage, 1⟩ (hi.get hv) (h.nonneg ino) hf hnew hsafe (vget_dirOf hv) ?_
  obtain ⟨-, hre⟩ | hl := vget_eq_ok hv
  · rw [hre.views.2.1, hcount]
    simp
  · obtain ⟨n, -, hn⟩ := hl.count
    rw [hn, update_self]
    simp

theorem mknod (hnew : NewEntry s d name es i ino) {mem : RfMem} (hmem : mem.entries = none) :
    BooksAfter strict debt (setEntry (Vfs.install s ino ⟨0, mem, 1⟩) d i ino name) := by
  have hnodir : ∀ es, mem.entries = some es → False := fun es hes => by
    rw [hmem] at hes
    cases hes
  have hi : Books strict (Vfs.install s ino ⟨0, mem, 1⟩) (debt + one ino) :=
    h.install hnew.lt hnew.new rfl (fun es hes => (hnodir es hes).elim) fun es hes =>
      (hnodir es hes).elim
  refine enterNew _ hi (h.nonneg ino) hf hnew hsafe rfl ?_
  rw [(install_views s ino _).2.1, update_self]
  simp

theorem mkdir (hnew : NewEntry s d name es i ino) : BooksAfter strict debt
    (setEntry (Vfs.install s ino ⟨2 * sizeofRamfsDirent, .dir (dottedDir ino d),
      1⟩) d i ino name) := by
  have hi : Books strict (Vfs.install s ino ⟨2 * sizeofRamfsDirent, .dir (dottedDir ino d), 1⟩)
      (debt + one ino) := by
    refine h.install hnew.lt hnew.new rfl ?_ ?_
    · rintro es ⟨⟩
      rw [liveSlots_dottedDir]
      rfl
    · rintro es ⟨⟩
      exact ⟨⟨d, _, rfl⟩, fun e he => named_dottedDir he⟩
  refine enterNew _ hi (h.nonneg ino) hf hnew hsafe rfl ?_
  rw [(install_views s ino _).2.1, update_self]
  simp

theorem link {old : Nat} (hroom : Room s d name es i) (hold : s.inCore old = true) :
    BooksAfter strict debt ((setEntry s d i old name).addLink old 1) := by
  obtain ⟨n, hn⟩ := ne_none_iff_exists'.mp (h.inCore old hold)
  obtain ⟨hd, hcount, -⟩ := addLink_views (m := 1) hn
  have hpos := h.pos old n hn
  have hdebt := h.nonneg old
  have hadd : Books strict (s.addLink old 1) (debt + one old) := by
    have := h.addLink (m := 1) hn (by omega) (by omega)
    simpa only [Int.one_mul] using this
  have hne : strict → name.stored ≠ [] := fun hs => stored_ne_nil hf (hsafe hs).2
  have henter : Books strict (setEntry (s.addLink old 1) d i old name)
      (debt + one old - paid name old) := by
    refine hadd.enter hf (by rw [hd]; exact hroom.dir) hroom.absent hroom.free ?_ ?_ fun hs =>
      ⟨?_, hne hs⟩
    · rw [hcount, update_self]
      simp
    · rw [Pi.add_apply, one_self]
      omega
    · exact (linked_congr hd d).mpr (hsafe hs).1
  rw [addLink_setEntry hroom.dir]
  refine ⟨_, henter, fun hs => ?_⟩
  rw [paid, if_neg (hne hs)]
  exact add_sub_cancel_right _ _

end

/-- '.' is found in the first slot, which names the directory itself. -/
theorem not_dot (h : Books strict s debt) (hfound : Found s d name es e u)
    (hnodir : u.dirOf e.rdIno = none) : e.rdName ≠ ['.'] := by
  intro hdot
  obtain ⟨-, hes, -⟩ := h.found hfound
  obtain ⟨up, rest, rfl⟩ := h.dots d es hfound.dir
  have hfirst := hfound.first
  have hmatch : nameMatch ['.'] name = true := hdot ▸ hfound.matches
  simp only [find?_cons, hmatch] at hfirst
  cases hfirst
  rw [hes] at hnodir
  cases hnodir

theorem unlink (h : Books strict s debt) (hf : name.Final) (hdots : name.str ≠ ['.', '.'])
    (hfound : Found s d name es e u) (hnodir : u.dirOf e.rdIno = none)
    (hrem : removeEntry u d name e.rdIno = .ok t) : BooksAfter strict debt t := by
  obtain ⟨hu, hes, hcore⟩ := h.found hfound
  obtain ⟨hstr, hne⟩ := rdName_of_nameMatch hf hfound.matches
  have hdot := h.not_dot hfound hnodir
  refine (hu.removing hes hfound.first (named_iff.mpr ⟨hne, hdot,
    hstr ▸ hdots⟩) hcore fun _ es' hes' => ?_).put hrem
  rw [hnodir] at hes'
  cases hes'

/-- **Every operation keeps the account.** -/
theorem step (h : Books strict s debt) {op : RamfsOp} (hl : ramfsLegal s op)
    (hsafe : LinkSafe strict s op)
    (hs : ramfsStep s op = .ok t) : BooksAfter strict debt t := by
  cases ramfsStep_effect hs with
  | same => exact ⟨debt, h, fun _ => rfl⟩
  | ref hr => exact ⟨debt, h.recounted (vref_eq_ok hr).2, fun _ => rfl⟩
  | get hg => exact ⟨debt, h.get hg, fun _ => rfl⟩
  | put hp => exact h.put hp
  | create hnew hv => exact h.create hl hsafe hnew hv
  | mknod hnew hmem => exact h.mknod hl hsafe hnew hmem
  | link hroom hold => exact h.link hl hsafe hroom hold
  | mkdir hnew => exact h.mkdir hl hsafe hnew
  | unlink hfound hnodir hrem => exact h.unlink hl hsafe hfound hnodir hrem
  | refused hfound hput => exact (h.found hfound).1.put hput
  | rmdir hdot hdots hfound hes' hempty hrem =>
    obtain ⟨hu, hes, hcore⟩ := h.found hfound
    have hn := hfound.named hl hdot hdots
    refine (hu.removing hes hfound.first hn hcore fun _ es'' hes'' e' he' => ?_).put hrem
    obtain rfl := some.inj (hes'.symm.trans hes'')
    simpa using any_eq_false.mp hempty e' he'
  | write hr =>
    obtain ⟨hd, hc, hcore, -, hsized⟩ := ramfsWrite_eq_ok hr
    exact ⟨debt, h.unchanged hd hc hcore hsized, fun _ => rfl⟩

end Books

theorem dirOf_ramfsMount :
    ramfsMount.dirOf = update (fun _ => none) rootIno (some (dottedDir rootIno rootIno)) := by
  funext x
  obtain rfl | hx := eq_or_ne x rootIno
  · rfl
  · simp [dirOf_eq, ramfsMount, hx]

theorem dirOf_ramfsMount_eq_some (h : ramfsMount.dirOf d = some es) :
    d = rootIno ∧ es = dottedDir rootIno rootIno := by
  rw [dirOf_ramfsMount] at h
  obtain ⟨rfl, h⟩ | ⟨-, h⟩ := of_update h
  · exact ⟨rfl, (some.inj h).symm⟩
  · cases h

theorem named_ramfsMount (h : ramfsMount.dirOf d = some es) (he : e ∈ es) : e.named = false := by
  obtain ⟨rfl, rfl⟩ := dirOf_ramfsMount_eq_some h
  exact named_dottedDir he

theorem links_ramfsMount (x : Nat) : links ramfsMount x = 0 := by
  refine Nat.eq_zero_of_not_pos fun hpos => ?_
  obtain ⟨d, l, a, hl, ha, hp⟩ := exists_of_tally_pos hpos
  rw [names_iff, named_ramfsMount hl ha] at hp
  cases hp.1

namespace Books

theorem mount : Books strict ramfsMount 0 := by
  have hcount : ∀ x, ramfsMount.linkcount x = if x = rootIno then some 2 else none := by
    intro x
    obtain rfl | hx := eq_or_ne x rootIno
    · rfl
    · simp [linkcount, ramfsMount, hx]
  have hcore : ∀ x, ramfsMount.inCore x = decide (x = rootIno) := by
    intro x
    obtain rfl | hx := eq_or_ne x rootIno
    · rfl
    · simp [Ramfs.inCore, ramfsMount, hx]
  have hpresent : ∀ x n, ramfsMount.linkcount x = some n → x = rootIno ∧ n = 2 := by
    intro x n hx
    rw [hcount] at hx
    split at hx
    · cases hx
      exact ⟨‹_›, rfl⟩
    · cases hx
  exact
    { count x n hx := by
        obtain ⟨rfl, rfl⟩ := hpresent x n hx
        rw [links_ramfsMount, core, hcore]
        rfl
      named x _ := links_ramfsMount x
      inCore x hx := by
        rw [hcore, decide_eq_true_eq] at hx
        rw [hcount, if_pos hx]
        simp
      pos x n hx := by
        obtain ⟨-, rfl⟩ := hpresent x n hx
        decide
      lt x hx := by
        obtain ⟨n, hn⟩ := ne_none_iff_exists'.mp hx
        obtain ⟨rfl, -⟩ := hpresent x n hn
        decide
      root := by
        rw [dirOf_ramfsMount, update_self]
        simp
      dots d es hd := by
        obtain ⟨rfl, rfl⟩ := dirOf_ramfsMount_eq_some hd
        exact ⟨_, _, rfl⟩
      nonneg _ := Int.le_refl 0
      settled _ _ := rfl
      orphans _ _ _ hd _ _ he := named_ramfsMount hd he
      sized _ x inode hx es hes := by
        have hxr : x = rootIno := by
          by_contra hne
          simp [ramfsMount, hne] at hx
        subst hxr
        cases hx
        cases hes
        rw [liveSlots_dottedDir]
        rfl }

/-- **Every run.** -/
theorem run (hrun : Lts.Run (fun s op => ramfsLegal s op ∧
    LinkSafe True s op) ramfsStep ramfsMount s) :
    Books True s 0 := by
  refine hrun.invariant (I := fun s => Books True s 0) mount fun s op t hs hl ht => ?_
  obtain ⟨debt, hbooks, hdebt⟩ := hs.step hl.1 hl.2 ht
  rwa [hdebt trivial] at hbooks

end Books

/-! ## 2. Link accounting -/

/-- **Link accounting.**  In every state reached from a mounted file system by operations that make
entries with a name in directories that can be reached, and do not unlink '..': the link count of
an inode is the number of entries that name it, one for its vnode and one for the root; entries name
inodes in the table; an inode is in the table exactly as long as the sum is positive; and the size
of a directory is that of its live entries. -/
theorem link_accounting (s : Ramfs)
    (hrun : Lts.Run (fun s op => ramfsLegal s op ∧ LinkSafe True s op) ramfsStep ramfsMount s) :
    (∀ x inode, s.rfsInodes x = some inode →
      inode.rfLinkcount = links s x + core s x + one rootIno x) ∧
    (∀ d es e, s.dirOf d = some es → e ∈ es → e.named = true → s.rfsInodes e.rdIno ≠ none) ∧
    (∀ x, s.rfsInodes x ≠ none ↔ 0 < links s x + core s x + one rootIno x) ∧
    (∀ x size es n, s.rfsInodes x = some ⟨size, .dir es, n⟩ →
      size = sizeofRamfsDirent * liveSlots es) := by
  have h := Books.run hrun
  have hcount : ∀ x inode, s.rfsInodes x = some inode →
      inode.rfLinkcount = links s x + core s x + one rootIno x := fun x inode hi => by
    have := h.count x inode.rfLinkcount (by rw [linkcount, hi]; rfl)
    rw [Pi.zero_apply, Int.add_zero] at this
    exact this
  refine ⟨hcount, fun d es e hd he hn hnone => ?_, fun x => ⟨fun hx => ?_, fun hpos hnone => ?_⟩,
    fun x size es n hi => h.sized trivial x _ hi es rfl⟩
  · exact h.named_present hd he hn (linkcount_eq_none.mpr hnone)
  · obtain ⟨inode, hi⟩ := ne_none_iff_exists'.mp hx
    rw [← hcount x inode hi]
    exact h.pos x _ (by rw [linkcount, hi]; rfl)
  · have hcnone := linkcount_eq_none.mpr hnone
    have hlinks := h.named x hcnone
    have hcore : core s x = 0 := by
      rw [core, if_neg]
      exact fun hc => h.inCore x hc hcnone
    have hroot : one rootIno x = 0 := one_of_ne fun hx => h.root (by
      rw [← hx]
      exact dirOf_of_linkcount_none hcnone)
    omega

/-- A directory is made, a file in it, and a second name for the file. -/
theorem link_accounting_two_names : ∃ s inode,
    Lts.Run (fun s op => ramfsLegal s op ∧ LinkSafe True s op) ramfsStep ramfsMount s ∧
      s.rfsInodes 2 = some inode ∧ links s 2 = 2 ∧
      inode.rfLinkcount = links s 2 + core s 2 + one rootIno 2 := by
  obtain ⟨s, hrun, hsome, hlinks⟩ :
    ∃ s, Lts.Run (fun s op => ramfsLegal s op ∧ LinkSafe True s op) ramfsStep
      ramfsMount s ∧ (s.rfsInodes 2).isSome ∧ links s 2 = 2 :=
    Lts.exists_run [.mkdir 0 ⟨['a'], 1⟩ true, .lookup 0 ⟨['a'], 1⟩, .create 1 ⟨['f'], 1⟩ true,
      .link 2 0 ⟨['g'], 1⟩] (by decide +kernel)
  obtain ⟨inode, hi⟩ := isSome_iff_exists.mp hsome
  exact ⟨s, inode, hrun, hi, hlinks, (link_accounting s hrun).1 2 inode hi⟩

/-- A working directory is removed, an entry is made in it, and it is left: the entry is gone with
the directory, and the inode it named keeps a link. -/
theorem entry_in_removed_directory : ∃ s, Lts.Run vfsLegal vfsStep vfsBoot s ∧
    s.ram.linkcount 2 = some 1 ∧ links s.ram 2 = 0 ∧ core s.ram 2 = 0 ∧ one rootIno 2 = 0 := by
  exact Lts.exists_run [.start 1, .mkdir 1 ⟨['a'], []⟩ true, .chdir 1 ⟨['a'], []⟩,
      .rmdir 1 ⟨['/', 'a'], []⟩ false, .mkdir 1 ⟨['b'], []⟩ true,
        .chdir 1 ⟨['/'], []⟩] (by decide +kernel)

end Weenix.Vfs
