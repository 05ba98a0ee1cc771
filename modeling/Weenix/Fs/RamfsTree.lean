/-
# The directories form a tree

`Tree` says of the directories in the table: at most one entry names each of them and none the root,
the '..' of a directory names the one that holds the entry for it, and there is a rank that goes up
from a directory to those in it.  A directory that was removed while in use stays in the table; no
directory is in it, and like all others it has a '..' that can be reached.

Three things that the calls allow break the tree: `do_link` and `do_rename` give a directory a
second name, `do_mkdir` makes a directory in one that was removed, and `do_rmdir` removes a
directory that is the '..' of one removed before.
-/
import Weenix.Fs.RamfsAccount
import Weenix.Lib.Ranked

namespace Weenix.Vfs

open Slots List Option Ramfs

variable {ino : Nat} {u v : Ramfs}

variable {s t : Ramfs} {x y d i : Nat} {name : Name} {es : List Dirent} {e e' : Dirent}

/-! ## 1. The hierarchy -/

/-- The inode that the first entry of a name gives. -/
def Ramfs.entryIno (s : Ramfs) (d : Nat) (fname : List Char) : Option Nat :=
  (s.dirOf d).bind fun es => (es.find? fun e => e.rdName = fname).map Dirent.rdIno

/-- The inode of '..' -/
def dotdot (s : Ramfs) (x : Nat) : Option Nat := s.entryIno x ['.', '.']

/-- The directory `d` has an entry for the directory `x`. -/
def Parent (s : Ramfs) (d x : Nat) : Prop :=
  s.dirOf x ≠ none ∧ ∃ es e, s.dirOf d = some es ∧ e ∈ es ∧ e.names x = true

structure Tree (s : Ramfs) : Prop where
  lt : ∀ x, s.dirOf x ≠ none → x < ramfsMaxFiles
  single : ∀ x, s.dirOf x ≠ none → links s x ≤ 1
  rootless : links s rootIno = 0
  rootBack : dotdot s rootIno = some rootIno
  back : ∀ d x, Parent s d x → dotdot s x = some d
  ranked : Ranked (Parent s)
  leaves : ∀ x, ¬ Linked s x → ∀ y, ¬ Parent s x y
  up : ∀ x, s.dirOf x ≠ none → ∃ d, dotdot s x = some d ∧ s.dirOf d ≠ none ∧ Linked s d

theorem dirOf_of_dotdot (h : dotdot s x = some y) : s.dirOf x ≠ none := by
  obtain ⟨es, hes, -⟩ := bind_eq_some_iff.mp h
  rw [hes]
  simp

theorem dotdot_eq {up : Nat} {rest : List Dirent}
    (h : s.dirOf x = some (⟨d, ['.']⟩ :: ⟨up, ['.', '.']⟩ :: rest)) : dotdot s x = some up := by
  rw [dotdot, entryIno, h]
  rfl

theorem links_dottedDir (hlt : ino < ramfsMaxFiles) (hnew : s.dirOf ino = none)
    (hdir : t.dirOf = update s.dirOf ino (some (dottedDir ino d))) (y : Nat) :
    links t y = links s y := by
  have hsum := links_update hlt hdir y
  have hnone : (dottedDir ino d).countP (Dirent.names y) = 0 :=
    countP_eq_zero.mpr fun e he hn => by
      rw [names_iff, named_dottedDir he] at hn
      cases hn.1
  rw [hnew, count_some, count_none, hnone] at hsum
  omega

theorem Parent.dir (h : Parent s d x) : s.dirOf d ≠ none := by
  obtain ⟨-, es, e, hes, -⟩ := h
  rw [hes]
  simp

theorem Parent.congr (h : t.dirOf = s.dirOf) (d x : Nat) : Parent t d x ↔ Parent s d x := by
  rw [Parent, Parent, h]

theorem dotdot_congr (h : t.dirOf x = s.dirOf x) : dotdot t x = dotdot s x := by
  rw [dotdot, dotdot, entryIno, entryIno, h]

namespace Tree

theorem links_pos (h : Tree s) (hp : Parent s d x) : 0 < links s x := by
  obtain ⟨-, es, e, hd, he, hn⟩ := id hp
  exact tally_pos (h.lt d hp.dir) hd he hn

/-! ## 2. The changes -/

/-- The tree is about the slots of the directories only. -/
theorem congr (h : Tree s) (hd : t.dirOf = s.dirOf) : Tree t where
  lt x hx := h.lt x (hd ▸ hx)
  single x hx := by rw [links_congr hd]; exact h.single x (hd ▸ hx)
  rootless := by rw [links_congr hd]; exact h.rootless
  rootBack := (dotdot_congr (congrFun hd _)).trans h.rootBack
  back d x hp := (dotdot_congr (congrFun hd _)).trans (h.back d x ((Parent.congr hd d x).mp hp))
  ranked := h.ranked.mono fun a b => (Parent.congr hd a b).mp
  leaves x hl y hp := h.leaves x (mt (linked_congr hd x).mpr hl) y ((Parent.congr hd x y).mp hp)
  up x hx := by
    obtain ⟨d, hdots, hdir, hl⟩ := h.up x (hd ▸ hx)
    exact ⟨d, (dotdot_congr (congrFun hd _)).trans hdots, hd ▸ hdir, (linked_congr hd d).mpr hl⟩

/-- An inode that no entry names is taken out of the table. -/
theorem remove (h : Tree s) (hlt : x < ramfsMaxFiles) (hl : ¬ Linked s x)
    (hdir : t.dirOf = update s.dirOf x none) : Tree t := by
  have hother : ∀ {y}, y ≠ x → t.dirOf y = s.dirOf y := fun hy => by
    rw [hdir, update_of_ne hy]
  have hne : ∀ {y}, t.dirOf y ≠ none → y ≠ x := by
    rintro y hy rfl
    rw [hdir, update_self] at hy
    exact hy rfl
  have hdirs : ∀ {y}, t.dirOf y ≠ none → s.dirOf y ≠ none := fun hy => hother (hne hy) ▸ hy
  -- the inode names no directory
  have hlinks : ∀ {y}, s.dirOf y ≠ none → links t y = links s y := by
    intro y hy
    have hsum := links_update hlt hdir y
    have hzero : Slots.count (s.dirOf x) (Dirent.names y) = 0 := by
      cases hes : s.dirOf x with
      | none => rfl
      | some es =>
        rw [count_some, countP_eq_zero]
        exact fun e he hn => h.leaves x hl y ⟨hy, es, e, hes, he, hn⟩
    rw [count_none] at hsum
    omega
  have hparent : ∀ a b, Parent t a b → Parent s a b := by
    rintro a b ⟨hb, es, e, ha, he, hn⟩
    have ha' : a ≠ x := hne (by rw [ha]; simp)
    exact ⟨hdirs hb, es, e, hother ha' ▸ ha, he, hn⟩
  have hroot : s.dirOf rootIno ≠ none := dirOf_of_dotdot h.rootBack
  exact
    { lt y hy := h.lt y (hdirs hy)
      single y hy := by rw [hlinks (hdirs hy)]; exact h.single y (hdirs hy)
      rootless := (hlinks hroot).trans h.rootless
      rootBack := (dotdot_congr (hother fun hx => hl (.inl hx.symm))).trans h.rootBack
      back d y hp := (dotdot_congr (hother (hne hp.1))).trans (h.back d y (hparent d y hp))
      ranked := h.ranked.mono hparent
      leaves y hy z hp := by
        have hp' := hparent y z hp
        exact h.leaves y (by rwa [Linked, hlinks hp'.dir] at hy) z hp'
      up y hy := by
        obtain ⟨d, hdots, hd, hld⟩ := h.up y (hdirs hy)
        have hdx : d ≠ x := by
          rintro rfl
          exact hl hld
        exact ⟨d, (dotdot_congr (hother (hne hy))).trans hdots, by rw [hother hdx]; exact hd,
          by rwa [Linked, hlinks hd]⟩ }

/-- A new directory, which no entry names yet. -/
theorem install (h : Tree s) (hlt : ino < ramfsMaxFiles) (hnew : s.dirOf ino = none)
    (hzero : links s ino = 0) (hd : s.dirOf d ≠ none) (hl : Linked s d)
    (hdir : t.dirOf = update s.dirOf ino (some (dottedDir ino d))) : Tree t := by
  have hself : t.dirOf ino = some (dottedDir ino d) := by rw [hdir, update_self]
  have hother : ∀ {y}, y ≠ ino → t.dirOf y = s.dirOf y := fun hy => by
    rw [hdir, update_of_ne hy]
  have hne : ∀ {y}, s.dirOf y ≠ none → y ≠ ino := by
    rintro y hy rfl
    exact hy hnew
  have hlinks := links_dottedDir hlt hnew hdir
  -- it has no entries, and there is none for it
  have hparent : ∀ a b, Parent t a b → b ≠ ino ∧ Parent s a b := by
    rintro a b ⟨hb, es, e, ha, he, hn⟩
    have hane : a ≠ ino := by
      rintro rfl
      obtain rfl : dottedDir a d = es := some.inj (hself.symm.trans ha)
      rw [names_iff, named_dottedDir he] at hn
      cases hn.1
    have ha' : s.dirOf a = some es := hother hane ▸ ha
    have hbne : b ≠ ino := by
      rintro rfl
      have := tally_pos (h.lt a (by rw [ha']; simp)) ha' he hn
      unfold links at hzero
      omega
    exact ⟨hbne, hother hbne ▸ hb, es, e, ha', he, hn⟩
  have hroot := hne (dirOf_of_dotdot h.rootBack)
  exact
    { lt y hy := by
        obtain rfl | hyi := eq_or_ne y ino
        · exact hlt
        · exact h.lt y (hother hyi ▸ hy)
      single y hy := by
        rw [hlinks]
        obtain rfl | hyi := eq_or_ne y ino
        · omega
        · exact h.single y (hother hyi ▸ hy)
      rootless := (hlinks rootIno).trans h.rootless
      rootBack := (dotdot_congr (hother hroot)).trans h.rootBack
      back a b hp :=
        (dotdot_congr (hother (hparent a b hp).1)).trans (h.back a b (hparent a b hp).2)
      ranked := h.ranked.mono fun a b hp => (hparent a b hp).2
      leaves y hy z hp := h.leaves y (by rwa [Linked, hlinks] at hy) z (hparent y z hp).2
      up y hy := by
        obtain rfl | hyi := eq_or_ne y ino
        · exact ⟨d, dotdot_eq hself, by rw [hother (hne hd)]; exact hd, by rwa [Linked, hlinks]⟩
        · obtain ⟨c, hdots, hc, hlc⟩ := h.up y (hother hyi ▸ hy)
          exact ⟨c, (dotdot_congr (hother hyi)).trans hdots, by rw [hother (hne hc)]; exact hc,
            by rwa [Linked, hlinks]⟩ }

end Tree

/-- A slot of a directory, not '.' or '..', gets another entry. -/
structure Rewritten (s : Ramfs) (d : Nat) (e e' : Dirent) (t : Ramfs) : Prop where
  dirs : ∀ x, t.dirOf x ≠ none ↔ s.dirOf x ≠ none
  dotdot : ∀ x, dotdot t x = Vfs.dotdot s x
  links : ∀ x, links t x + (e.names x).toNat = Vfs.links s x + (e'.names x).toNat
  parent : ∀ a b, Parent t a b → Parent s a b ∨ a = d ∧ e'.names b = true

theorem Tree.rewritten (h : Tree s) (hes : s.dirOf d = some es)
    (hdots : ∃ up rest, es = ⟨d, ['.']⟩ :: ⟨up, ['.', '.']⟩ :: rest) (he : es[i]? = some e)
    (hdot : e.rdName ≠ ['.']) (hdd : e.rdName ≠ ['.', '.'])
    (hdir : t.dirOf = update s.dirOf d (some (es.set i e'))) : Rewritten s d e e' t := by
  have hself : t.dirOf d = some (es.set i e') := by rw [hdir, update_self]
  have hother : ∀ {y}, y ≠ d → t.dirOf y = s.dirOf y := fun hy => by
    rw [hdir, update_of_ne hy]
  have hdirs : ∀ x, t.dirOf x ≠ none ↔ s.dirOf x ≠ none := fun x => by
    obtain rfl | hx := eq_or_ne x d
    · simp [hself, hes]
    · rw [hother hx]
  refine ⟨hdirs, fun x => ?_, ?_, ?_⟩
  · obtain rfl | hx := eq_or_ne x d
    · obtain ⟨up, rest, rfl⟩ := hdots
      rw [dotdot_eq hes]
      match i with
      | 0 =>
        cases he
        exact absurd rfl hdot
      | 1 =>
        cases he
        exact absurd rfl hdd
      | i + 2 => exact dotdot_eq hself
    · exact dotdot_congr (hother hx)
  · exact links_set (h.lt d (by rw [hes]; simp)) hes he hdir
  · rintro a b ⟨hb, es', e0, ha, he0, hn⟩
    have hb' := (hdirs b).mp hb
    obtain rfl | hne := eq_or_ne a d
    · obtain rfl : es.set i e' = es' := some.inj (hself.symm.trans ha)
      obtain he0 | rfl := mem_or_eq_of_mem_set he0
      · exact .inl ⟨hb', es, e0, hes, he0, hn⟩
      · exact .inr ⟨rfl, hn⟩
    · exact .inl ⟨hb', es', e0, hother hne ▸ ha, he0, hn⟩

namespace Tree

/-- An entry goes, or is made for a file.  The directory that it named, if it was one, is not the
'..' of any. -/
theorem erase (h : Tree s) (hr : Rewritten s d e e' t)
    (hnew : ∀ x, e'.names x = true → s.dirOf x = none)
    (hold : ∀ x, e.names x = true → s.dirOf x ≠ none → ∀ y, dotdot s y ≠ some x) : Tree t := by
  have hparent : ∀ a b, Parent t a b → Parent s a b := by
    intro a b hp
    obtain hp' | ⟨-, hn⟩ := hr.parent a b hp
    · exact hp'
    · exact absurd (hnew b hn) ((hr.dirs b).mp hp.1)
  have hzero : ∀ {x}, s.dirOf x ≠ none → (e'.names x).toNat = 0 := by
    intro x hx
    cases hn : e'.names x with
    | false => rfl
    | true => exact absurd (hnew x hn) hx
  -- what is the '..' of a directory is linked as before
  have hlinked : ∀ {x y}, s.dirOf x ≠ none → dotdot s y = some x → Linked s x → Linked t x := by
    rintro x y hx hy (hroot | hpos)
    · exact .inl hroot
    · have hsum := hr.links x
      have hsame : (e.names x).toNat = 0 := by
        cases hn : e.names x with
        | false => rfl
        | true => exact absurd hy (hold x hn hx y)
      exact .inr (by omega)
  exact
    { lt x hx := h.lt x ((hr.dirs x).mp hx)
      single x hx := by
        have hx' := (hr.dirs x).mp hx
        have hsum := hr.links x
        have := hzero hx'
        have := h.single x hx'
        omega
      rootless := by
        have hsum := hr.links rootIno
        have := hzero (dirOf_of_dotdot h.rootBack)
        have := h.rootless
        omega
      rootBack := (hr.dotdot _).trans h.rootBack
      back a b hp := (hr.dotdot b).trans (h.back a b (hparent a b hp))
      ranked := h.ranked.mono hparent
      leaves x hx y hp := by
        have hp' := hparent x y hp
        exact h.leaves x (fun hl => hx (hlinked hp'.dir (h.back x y hp') hl)) y hp'
      up x hx := by
        obtain ⟨c, hdots, hc, hl⟩ := h.up x ((hr.dirs x).mp hx)
        exact ⟨c, (hr.dotdot x).trans hdots, (hr.dirs c).mpr hc, hlinked hc hdots hl⟩ }

/-- A directory that no entry names gets one, in its '..'. -/
theorem adopt (h : Tree s) (hr : Rewritten s d e e' t) (hfree : ∀ x, e.names x = false)
    (hnames : ∀ x, e'.names x = true ↔ x = ino) (hino : s.dirOf ino ≠ none)
    (horphan : ¬ Linked s ino)
    (hup : dotdot s ino = some d) (hl : Linked s d) : Tree t := by
  have hzero : links s ino = 0 := Nat.eq_zero_of_not_pos fun hpos => horphan (.inr hpos)
  have hdne : d ≠ ino := by
    rintro rfl
    exact horphan hl
  have hlinks : ∀ x, links t x = links s x + (e'.names x).toNat := fun x => by
    have := hr.links x
    rw [hfree x, Bool.toNat_false] at this
    omega
  have hlinked : ∀ {x}, Linked s x → Linked t x := fun {x} hx => hx.imp id fun hpos => by
    have := hlinks x
    omega
  have hsame : ∀ {x}, x ≠ ino → links t x = links s x := fun {x} hx => by
    have hn : e'.names x = false := by
      cases hn : e'.names x with
      | false => rfl
      | true => exact absurd ((hnames x).mp hn) hx
    rw [hlinks x, hn, Bool.toNat_false, Nat.add_zero]
  have hparent : ∀ a b, Parent t a b → Parent s a b ∧ b ≠ ino ∨ a = d ∧ b = ino := by
    intro a b hp
    obtain hp' | ⟨ha, hn⟩ := hr.parent a b hp
    · refine .inl ⟨hp', ?_⟩
      rintro rfl
      have := h.links_pos hp'
      omega
    · exact .inr ⟨ha, (hnames b).mp hn⟩
  exact
    { lt x hx := h.lt x ((hr.dirs x).mp hx)
      single x hx := by
        obtain rfl | hxi := eq_or_ne x ino
        · rw [hlinks, hzero, Nat.zero_add]
          exact Bool.toNat_le _
        · rw [hsame hxi]
          exact h.single x ((hr.dirs x).mp hx)
      rootless := (hsame fun hroot => horphan (.inl hroot.symm)).trans h.rootless
      rootBack := (hr.dotdot _).trans h.rootBack
      back a b hp := by
        rw [hr.dotdot]
        obtain ⟨hp', -⟩ | ⟨rfl, rfl⟩ := hparent a b hp
        · exact h.back a b hp'
        · exact hup
      ranked := by
        refine h.ranked.leaf hdne (fun b hp => ?_) hparent
        obtain ⟨hp', -⟩ | ⟨hd, -⟩ := hparent ino b hp
        · exact h.leaves ino horphan b hp'
        · exact hdne hd.symm
      leaves x hx y hp := by
        obtain ⟨hp', -⟩ | ⟨rfl, -⟩ := hparent x y hp
        · exact h.leaves x (fun hl => hx (hlinked hl)) y hp'
        · exact hx (hlinked hl)
      up x hx := by
        obtain ⟨c, hdots, hc, hlc⟩ := h.up x ((hr.dirs x).mp hx)
        exact ⟨c, (hr.dotdot x).trans hdots, (hr.dirs c).mpr hc, hlinked hlc⟩ }

end Tree

/-! ## 3. The operations -/

/-- The account of the links, and the tree. -/
structure Forest (s : Ramfs) (debt : Nat → Int) : Prop where
  books : Books False s debt
  tree : Tree s

/-- How the operations must be used: no entry is made for a directory but by `ramfs_mkdir`, which
makes it in a directory that can be reached, and a directory is not removed while it is the '..' of
another. -/
def TreeSafe (s : Ramfs) : RamfsOp → Prop
  | .mkdir d _ _ => Linked s d
  | .link old _ _ => s.dirOf old = none
  | .rmdir d name => ∀ y ∈ s.entryIno d name.str, ∀ es ∈ s.dirOf y, es.any Dirent.named = false →
    ∀ x < ramfsMaxFiles, dotdot s x ≠ some y
  | _ => True

theorem nameMatch_iff (hf : name.Final) (hne : name.str ≠ []) (fname : List Char) :
    nameMatch fname name = decide (fname = name.str) := by
  rw [Name.Final, if_neg hne] at hf
  rw [nameMatch, hf, take_length]
  refine decide_eq_decide.mpr ⟨fun h => h.2.symm, ?_⟩
  rintro rfl
  exact ⟨rfl, rfl⟩

theorem entryIno_of_found (hf : name.Final) (h : Found s d name es e t) :
    s.entryIno d name.str = some e.rdIno := by
  obtain ⟨hstr, hne⟩ := rdName_of_nameMatch hf h.matches
  have hfind := h.first
  simp only [nameMatch_iff hf (hstr ▸ hne)] at hfind
  rw [entryIno, h.dir, bind_some, hfind]
  rfl

namespace Forest

variable {debt : Nat → Int}

theorem dirOf_install (hnew : NewEntry s d name es i ino) {mem : RfMem}
    (hmem : mem.entries = none) :
    (Vfs.install s ino ⟨0, mem, 1⟩).dirOf = s.dirOf := by
  rw [(install_views s ino _).1]
  refine update_eq_self_iff.mpr ?_
  rw [dirOf_of_linkcount_none hnew.new]
  exact hmem

section
variable (h : Forest s debt)
include h

theorem get (hg : vget s x = .ok t) : Forest t debt :=
  ⟨h.books.get hg, h.tree.congr (vget_dirOf hg)⟩

/-- An inode leaves the table only when no entry names it. -/
theorem put (hp : vput s x = .ok t) : ∃ debt', Forest t debt' := by
  obtain ⟨debt', hbooks, -⟩ := h.books.put hp
  refine ⟨debt', hbooks, ?_⟩
  obtain ⟨hr, -⟩ | hu := vput_eq_ok hp
  · exact h.tree.congr hr.views.1
  · obtain ⟨n, hn, -, hd⟩ := hu.count
    by_cases hone : n = 1
    · subst hone
      rw [if_pos rfl] at hd
      have hcount := h.books.count x 1 hn
      have hnonneg := h.books.nonneg x
      rw [core, hu.core, if_pos rfl] at hcount
      refine h.tree.remove (h.books.lt x (by rw [hn]; simp)) ?_ hd
      rintro (rfl | hpos)
      · rw [one_self] at hcount
        omega
      · have := one_nonneg rootIno x
        omega
    · rw [if_neg hone] at hd
      exact h.tree.congr hd

/-- An entry for a file, or one with an empty name. -/
theorem setFile (hroom : Room s d name es i) (hv : Tree v) (hes : v.dirOf d = some es)
    (hfile : name.stored ≠ [] → v.dirOf ino = none) : Tree (setEntry v d i ino name) := by
  obtain ⟨e, he, hfree⟩ := hroom.free
  have hdir : (setEntry v d i ino name).dirOf = _ := (setEntry_views hes).1
  have hr := hv.rewritten hes (h.books.dots d es hroom.dir) he (by simp [hfree])
    (by simp [hfree]) hdir
  refine hv.erase hr (fun x hx => ?_) fun x hx => ?_
  · obtain ⟨hn, rfl⟩ := names_iff.mp hx
    exact hfile (named_iff.mp hn).1
  · exact absurd hfree (named_iff.mp (names_iff.mp hx).1).1

/-- An entry for a new inode that is not a directory, in a state with the same directories. -/
theorem setNew (hnew : NewEntry s d name es i ino) (hv : v.dirOf = s.dirOf) :
    Tree (setEntry v d i ino name) := by
  refine h.setFile hnew.room (h.tree.congr hv) (by rw [hv]; exact hnew.room.dir) fun _ => ?_
  rw [hv]
  exact dirOf_of_linkcount_none hnew.new

/-- The new directory is first in the table and then gets its entry. -/
theorem mkdir (hf : name.Final) (hl : Linked s d) (hnew : NewEntry s d name es i ino) :
    Tree (setEntry (Vfs.install s ino ⟨2 * sizeofRamfsDirent, .dir (dottedDir ino d),
      1⟩) d i ino name) := by
  have hzero := h.books.named ino hnew.new
  have hnodir := dirOf_of_linkcount_none hnew.new
  have hd : s.dirOf d ≠ none := by
    rw [hnew.room.dir]
    simp
  obtain ⟨hdir, -⟩ := install_views s ino ⟨2 * sizeofRamfsDirent, .dir (dottedDir ino d), 1⟩
  have hes := hnew.dir_install ⟨2 * sizeofRamfsDirent, .dir (dottedDir ino d), 1⟩
  generalize Vfs.install s ino _ = v at hdir hes
  have hv : Tree v := h.tree.install hnew.lt hnodir hzero hd hl hdir
  by_cases hnil : name.stored = []
  · exact h.setFile hnew.room hv hes fun hne => absurd hnil hne
  · have hself : v.dirOf ino = some (dottedDir ino d) := by
      rw [hdir]
      exact update_self ..
    have hlinks := links_dottedDir hnew.lt hnodir hdir
    obtain ⟨e, he, hfree⟩ := hnew.room.free
    obtain ⟨up, rest, hrest⟩ := h.books.dots d es hnew.room.dir
    have hnamed : (Dirent.mk ino name.stored).named = true := by
      rw [named_of_absent hf (hnew.room.absent ⟨d, ['.']⟩ (by simp [hrest]))
        (hnew.room.absent ⟨up, ['.', '.']⟩ (by simp [hrest])), decide_eq_true hnil]
    have hset : (setEntry v d i ino name).dirOf = _ := (setEntry_views hes).1
    have hr := hv.rewritten hes ⟨up, rest, hrest⟩ he (by simp [hfree]) (by simp [hfree]) hset
    refine hv.adopt hr (fun x => ?_) (fun x => ?_) ?_ ?_ (dotdot_eq hself) ?_
    · simp [Dirent.names, Dirent.named, hfree]
    · rw [names_iff, eq_comm (a := x)]
      exact and_iff_right hnamed
    · rw [hself]
      simp
    · rintro (rfl | hpos)
      · exact h.books.root hnodir
      · rw [hlinks] at hpos
        omega
    · rwa [Linked, hlinks]

/-- The entry and its link go; if it is that of a directory, it is not the '..' of any. -/
theorem removing (hes : s.dirOf d = some es)
    (hfind : es.find? (fun e => nameMatch e.rdName name) = some e)
    (hn : e.named = true) (hcore : s.inCore e.rdIno = true)
    (hnot : s.dirOf e.rdIno ≠ none → ∀ y, dotdot s y ≠ some e.rdIno) :
    Forest ((clearEntry s d name).addLink e.rdIno (-1)) debt := by
  refine ⟨h.books.removing hes hfind hn hcore False.elim, Tree.congr ?_ dirOf_addLink⟩
  obtain ⟨i, he, hclear⟩ := clearSlot_eq hfind
  have hdir : (clearEntry s d name).dirOf = _ := (clearEntry_views hes).1
  rw [hclear] at hdir
  obtain ⟨-, hdot, hdd⟩ := named_iff.mp hn
  refine h.tree.erase (h.tree.rewritten hes (h.books.dots d es hes) he hdot hdd hdir)
    (fun x hx => ?_)
    fun x hx => ?_
  · exact absurd rfl (named_iff.mp (names_iff.mp hx).1).1
  · obtain ⟨-, rfl⟩ := names_iff.mp hx
    exact hnot

/-- '..' is a directory, which `ramfs_unlink` refuses. -/
theorem unlink (hf : name.Final) (hfound : Found s d name es e u) (hnodir : u.dirOf e.rdIno = none)
    (hrem : removeEntry u d name e.rdIno = .ok t) : ∃ debt', Forest t debt' := by
  have hu := h.get hfound.got
  obtain ⟨-, hes, hcore⟩ := h.books.found hfound
  obtain ⟨hstr, hne⟩ := rdName_of_nameMatch hf hfound.matches
  have hdd : e.rdName ≠ ['.', '.'] := by
    intro hdd
    have hup : dotdot s d = some e.rdIno := by
      rw [dotdot, ← hdd, hstr]
      exact entryIno_of_found hf hfound
    rw [← dotdot_congr (congrFun (vget_dirOf hfound.got) d)] at hup
    obtain ⟨c, hc, hdir, -⟩ := hu.tree.up d (dirOf_of_dotdot hup)
    obtain rfl : e.rdIno = c := some.inj (hup.symm.trans hc)
    exact hdir hnodir
  have hn := named_iff.mpr ⟨hne, h.books.not_dot hfound hnodir, hdd⟩
  exact (hu.removing hes hfound.first hn hcore fun hdir => absurd hnodir hdir).put hrem

theorem recounted (hr : Recounted s t) : Forest t debt :=
  ⟨h.books.recounted hr, h.tree.congr hr.views.1⟩

/-- **Every operation keeps the tree.** -/
theorem step {op : RamfsOp} (hl : ramfsLegal s op) (hsafe : TreeSafe s op)
    (hs : ramfsStep s op = .ok t) :
    ∃ debt', Forest t debt' := by
  cases ramfsStep_effect hs with
  | same => exact ⟨debt, h⟩
  | ref hr => exact ⟨debt, h.recounted (vref_eq_ok hr).2⟩
  | get hg => exact ⟨debt, h.get hg⟩
  | put hp => exact h.put hp
  | create hnew hv =>
    obtain ⟨debt', hbooks, -⟩ := h.books.create hl False.elim hnew hv
    exact ⟨debt', hbooks, h.setNew hnew ((vget_dirOf hv).trans (dirOf_install hnew rfl))⟩
  | mknod hnew hmem =>
    obtain ⟨debt', hbooks, -⟩ := h.books.mknod hl False.elim hnew hmem
    exact ⟨debt', hbooks, h.setNew hnew (dirOf_install hnew hmem)⟩
  | link hroom hold =>
    obtain ⟨debt', hbooks, -⟩ := h.books.link hl False.elim hroom hold
    exact ⟨debt', hbooks, (h.setFile hroom h.tree hroom.dir fun _ => hsafe).congr dirOf_addLink⟩
  | mkdir hnew =>
    obtain ⟨debt', hbooks, -⟩ := h.books.mkdir hl False.elim hnew
    exact ⟨debt', hbooks, h.mkdir hl hsafe hnew⟩
  | unlink hfound hnodir hrem => exact h.unlink hl hfound hnodir hrem
  | refused hfound hput => exact (h.get hfound.got).put hput
  | rmdir hdot hdots hfound hes' hempty hrem =>
    have hu := h.get hfound.got
    obtain ⟨-, hes, hcore⟩ := h.books.found hfound
    have hdirs := vget_dirOf hfound.got
    refine (hu.removing hes hfound.first (hfound.named hl hdot hdots) hcore fun _ y hy =>
      ?_).put hrem
    have hlt := hu.tree.lt y (dirOf_of_dotdot hy)
    rw [dotdot_congr (congrFun hdirs y)] at hy
    exact hsafe _ (entryIno_of_found hl hfound) _ (hdirs ▸ hes') hempty y hlt hy
  | write hr =>
    obtain ⟨hd, hc, hcore, -, hsized⟩ := ramfsWrite_eq_ok hr
    exact ⟨debt, h.books.unchanged hd hc hcore hsized, h.tree.congr hd⟩

end

theorem mount : Forest ramfsMount 0 := by
  have hparent : ∀ a b, ¬ Parent ramfsMount a b := by
    rintro a b ⟨-, es, e, hes, he, hn⟩
    rw [names_iff, named_ramfsMount hes he] at hn
    cases hn.1
  have hroot : ∀ x, ramfsMount.dirOf x ≠ none → x = rootIno := by
    intro x hx
    obtain ⟨es, hes⟩ := ne_none_iff_exists'.mp hx
    exact (dirOf_ramfsMount_eq_some hes).1
  have hback : dotdot ramfsMount rootIno = some rootIno := by
    exact dotdot_eq ((congrFun dirOf_ramfsMount rootIno).trans (update_self ..))
  exact
    { books := .mount
      tree :=
        { lt x hx := by
            rw [hroot x hx]
            decide
          single x _ := by
            rw [links_ramfsMount]
            decide
          rootless := links_ramfsMount rootIno
          rootBack := hback
          back d x hp := absurd hp (hparent d x)
          ranked := ⟨fun _ => 0, fun a b hp => absurd hp (hparent a b)⟩
          leaves x _ y := hparent x y
          up x hx := by
            obtain rfl := hroot x hx
            exact ⟨rootIno, hback, dirOf_of_dotdot hback, .inl rfl⟩ } }

end Forest

end Weenix.Vfs
