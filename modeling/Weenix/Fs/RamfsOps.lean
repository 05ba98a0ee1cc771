/-
# What each operation of the memory file system does

Three views of the state are all that the results about directories look at: the slots of the
directories (`dirOf`), the link counts of the inodes in the table (`linkcount`), and which vnodes
are in memory (`inCore`).  This file has one lemma for each elementary change that says what it does
to the views, and one for each operation that says from which elementary changes it is made.
-/
import Weenix.Fs.Ramfs
import Weenix.Lib.Yields

namespace Weenix.Vfs

open List Option Ramfs

variable {room : Bool} {inode : Inode} {grow m n r : Int} {es : List Dirent} {e : Dirent}
  {edit : List Dirent → List Dirent} {buf : List UInt8} {file i ino offset : Nat}
  {made : Option (Nat × Name × Nat)} {vn : Vnode}

variable {s t : Ramfs} {x y d : Nat} {name : Name}

/-! ## 1. The views

How a change of the table of inodes or vnodes shows in them. -/

def Ramfs.linkcount (s : Ramfs) (x : Nat) : Option Int := (s.rfsInodes x).map Inode.rfLinkcount

def Ramfs.inCore (s : Ramfs) (x : Nat) : Bool := (s.vnode x).isSome

/-- The slots of a directory, given what the page of the inode holds. -/
def RfMem.entries : RfMem → Option (List Dirent)
  | .dir entries => some entries
  | _ => none

theorem dirOf_eq (s : Ramfs) (x : Nat) :
    s.dirOf x = (s.rfsInodes x).bind fun inode => inode.rfMem.entries := by
  unfold dirOf
  split
  · rename_i h
    simp [h, RfMem.entries]
  · rename_i h
    cases hi : s.rfsInodes x with
    | none => rfl
    | some inode =>
      obtain ⟨size, mem, n⟩ := inode
      cases mem with
      | dir entries => exact absurd hi (h size entries n)
      | _ => rfl

theorem dirOf_eq_some : s.dirOf x = some es ↔
    ∃ size n, s.rfsInodes x = some ⟨size, .dir es, n⟩ := by
  rw [dirOf_eq]
  constructor
  · intro h
    obtain ⟨⟨size, mem, n⟩, hi, hmem⟩ := bind_eq_some_iff.mp h
    cases mem with
    | dir entries =>
      cases hmem
      exact ⟨size, n, hi⟩
    | _ => cases hmem
  · rintro ⟨size, n, h⟩
    rw [h]
    rfl

theorem linkcount_eq_none : s.linkcount x = none ↔ s.rfsInodes x = none := by
  exact map_eq_none_iff

theorem dirOf_of_linkcount_none (h : s.linkcount x = none) : s.dirOf x = none := by
  rw [dirOf_eq, linkcount_eq_none.mp h]
  rfl

/-- An inode is put in the table: what becomes of the views at it. -/
theorem dirOf_setInode (inode : Option Inode) : (s.setInode x inode).dirOf =
      update s.dirOf x (inode.bind fun inode => inode.rfMem.entries) := by
  funext y
  obtain rfl | hy := eq_or_ne y x
  · simp only [dirOf_eq, setInode, update_self]
  · simp only [dirOf_eq, setInode, update_of_ne hy]

theorem linkcount_setInode (inode : Option Inode) :
    (s.setInode x inode).linkcount = update s.linkcount x (inode.map Inode.rfLinkcount) := by
  funext y
  obtain rfl | hy := eq_or_ne y x
  · simp only [linkcount, setInode, update_self]
  · simp only [linkcount, setInode, update_of_ne hy]

theorem inCore_setVnode (vn : Option Vnode) :
    (s.setVnode x vn).inCore = update s.inCore x vn.isSome := by
  funext y
  obtain rfl | hy := eq_or_ne y x
  · simp only [inCore, setVnode, update_self]
  · simp only [inCore, setVnode, update_of_ne hy]

/-- The number of slots in use, '.' and '..' included. -/
def liveSlots (es : List Dirent) : Nat := es.countP fun e => e.rdName ≠ []

/-- `rf_size` of a directory is the size of its live entries. -/
def Inode.Sized (inode : Inode) : Prop :=
  ∀ es, inode.rfMem.entries = some es → inode.rfSize = sizeofRamfsDirent * liveSlots es

def Sized (s : Ramfs) : Prop := ∀ x inode, s.rfsInodes x = some inode → inode.Sized

theorem Sized.setInode (h : Sized s) {inode : Option Inode} (hi : ∀ i ∈ inode, i.Sized) :
    Sized (s.setInode x inode) := by
  intro y i hy
  obtain rfl | hne := eq_or_ne y x
  · exact hi i (by simpa [setInode] using hy)
  · exact h y i (by simpa [Ramfs.setInode, hne] using hy)

/-! ## 2. The elementary changes

Each is said for all views at once, so that later files never unfold the table. -/

theorem addLink_views (h : s.linkcount x = some n) : (s.addLink x m).dirOf = s.dirOf ∧
      (s.addLink x m).linkcount = update s.linkcount x (some (n + m)) ∧
      (s.addLink x m).inCore = s.inCore ∧ (s.addLink x m).entered = s.entered ∧
      (Sized s → Sized (s.addLink x m)) := by
  obtain ⟨inode, hi, rfl⟩ := map_eq_some_iff.mp h
  have heq : s.addLink x m =
      s.setInode x (some { inode with rfLinkcount := inode.rfLinkcount + m }) := by
    simp only [addLink, hi]
  rw [heq, dirOf_setInode, linkcount_setInode]
  refine ⟨?_, rfl, rfl, rfl, fun hs => hs.setInode ?_⟩
  rotate_left
  · rintro _ ⟨⟩
    exact hs x inode hi
  have hd : s.dirOf x = inode.rfMem.entries := by rw [dirOf_eq, hi]; rfl
  exact update_eq_self_iff.mpr hd.symm

@[simp] theorem dirOf_addLink : (s.addLink x m).dirOf = s.dirOf := by
  cases hi : s.linkcount x with
  | none =>
    unfold addLink
    rw [linkcount_eq_none.mp hi]
  | some n => exact (addLink_views hi).1

theorem editDir_views (h : s.dirOf d = some es) :
    (s.editDir d edit grow made).dirOf = update s.dirOf d (some (edit es)) ∧
      (s.editDir d edit grow made).linkcount = s.linkcount ∧
      (s.editDir d edit grow made).inCore = s.inCore ∧
      (s.editDir d edit grow made).entered = made := by
  obtain ⟨size, n, hi⟩ := dirOf_eq_some.mp h
  have heq : s.editDir d edit grow made =
      { s.setInode d (some ⟨size + grow, .dir (edit es), n⟩) with entered := made } := by
    simp only [editDir, hi]
  rw [heq]
  refine ⟨dirOf_setInode _, ?_, rfl, rfl⟩
  have hn : s.linkcount d = some n := by rw [linkcount, hi]; rfl
  refine (linkcount_setInode (s := s) _).trans ?_
  exact update_eq_self_iff.mpr hn.symm

theorem vnode_ramfsDeleteVnode (s : Ramfs) (x : Nat) (inode : Inode) :
    (ramfsDeleteVnode s x inode).vnode = update s.vnode x none := by
  unfold ramfsDeleteVnode
  split <;> rfl

/-- A vnode is deleted; the inode goes with it if nothing else counts it. -/
theorem ramfsDeleteVnode_views (h : s.rfsInodes x = some inode) :
    (ramfsDeleteVnode s x inode).dirOf =
        (if inode.rfLinkcount = 1 then update s.dirOf x none else s.dirOf) ∧
      (ramfsDeleteVnode s x inode).linkcount = update s.linkcount x
        (if inode.rfLinkcount = 1 then none else some (inode.rfLinkcount - 1)) ∧
      (ramfsDeleteVnode s x inode).inCore = update s.inCore x false ∧
      (ramfsDeleteVnode s x inode).entered = s.entered ∧
      (Sized s → Sized (ramfsDeleteVnode s x inode)) := by
  unfold ramfsDeleteVnode
  by_cases hone : inode.rfLinkcount = 1
  · rw [if_pos (by omega), if_pos hone, if_pos hone]
    exact ⟨dirOf_setInode _, linkcount_setInode _, inCore_setVnode _, rfl,
      fun hs => Sized.setInode hs (by rintro _ ⟨⟩)⟩
  · rw [if_neg (by omega), if_neg hone, if_neg hone]
    refine ⟨?_, linkcount_setInode _, inCore_setVnode _, rfl, fun hs => Sized.setInode hs ?_⟩
    rotate_left
    · rintro _ ⟨⟩
      exact hs x inode h
    have hd : s.dirOf x = inode.rfMem.entries := by rw [dirOf_eq, h]; rfl
    refine (dirOf_setInode _).trans ?_
    exact update_eq_self_iff.mpr hd.symm

theorem setEntry_views (h : s.dirOf d = some es) :
    (setEntry s d i ino name).dirOf = update s.dirOf d (some (es.set i ⟨ino, name.stored⟩)) ∧
      (setEntry s d i ino name).linkcount = s.linkcount ∧
        (setEntry s d i ino name).inCore = s.inCore ∧
      (setEntry s d i ino name).entered = some (d, name, ino) := editDir_views h

theorem clearEntry_views (h : s.dirOf d = some es) :
    (clearEntry s d name).dirOf = update s.dirOf d (some (clearSlot name es)) ∧
      (clearEntry s d name).linkcount = s.linkcount ∧ (clearEntry s d name).inCore = s.inCore ∧
      (clearEntry s d name).entered = none := editDir_views h

theorem editDir_sized (hs : Sized s) (h : s.dirOf d = some es)
    (hg : sizeofRamfsDirent * liveSlots es + grow = sizeofRamfsDirent * liveSlots (edit es)) :
    Sized (s.editDir d edit grow made) := by
  obtain ⟨size, n, hi⟩ := dirOf_eq_some.mp h
  have hsize : size = sizeofRamfsDirent * liveSlots es := hs d _ hi es rfl
  have hset : Sized (s.setInode d (some ⟨size + grow, .dir (edit es), n⟩)) := hs.setInode (by
    rintro _ ⟨⟩ _ ⟨⟩
    rw [hsize]
    exact hg)
  simp only [editDir, hi]
  exact hset

/-- A new inode in the table. -/
def install (s : Ramfs) (ino : Nat) (inode : Inode) : Ramfs :=
  { s.setInode ino (some inode) with entered := none }

theorem install_views (s : Ramfs) (ino : Nat) (inode : Inode) :
    (install s ino inode).dirOf = update s.dirOf ino inode.rfMem.entries ∧
      (install s ino inode).linkcount = update s.linkcount ino (some inode.rfLinkcount) ∧
      (install s ino inode).inCore = s.inCore ∧
      (Sized s → inode.Sized → Sized (install s ino inode)) :=
  ⟨dirOf_setInode _, linkcount_setInode _, rfl,
    fun hs hi => Sized.setInode hs (by rintro _ ⟨⟩; exact hi)⟩

/-! ## 3. The operations

Each is followed through its error paths once: it fails and has changed nothing, or it is a sequence
of elementary changes (`Effect`). -/

theorem vnode_editDir: (s.editDir d edit grow made).vnode = s.vnode := by
  unfold editDir
  split <;> rfl

theorem vnode_addLink : (s.addLink x n).vnode = s.vnode := by
  unfold addLink
  split <;> rfl

theorem vnode_ramfsAllocInode {mem : RfMem} : (ramfsAllocInode s mem room).2.vnode = s.vnode := by
  unfold ramfsAllocInode
  split
  · split <;> rfl
  · rfl

theorem getVnode_eq_ok (h : s.getVnode x = .ok vn) : s.vnode x = some vn := by
  unfold getVnode at h
  split at h
  · rename_i vn' hvn
    cases h
    exact hvn
  · cases h

theorem inCore_of_vnode (h : s.vnode x = some vn) : s.inCore x = true := by
  rw [inCore, h]
  rfl

theorem sIsdir_eq_ok {b : Bool} (h : s.sIsdir x = .ok b) :
    s.inCore x = true ∧ b = (s.dirOf x).isSome := by
  obtain ⟨vn, hvn, hb⟩ := bind_eq_ok h
  cases hb
  exact ⟨inCore_of_vnode (getVnode_eq_ok hvn), rfl⟩

theorem vnodeToDirent_eq_ok (h : s.vnodeToDirent x = .ok es) :
    s.inCore x = true ∧ s.dirOf x = some es := by
  obtain ⟨vn, hvn, hes⟩ := bind_eq_ok h
  refine ⟨inCore_of_vnode (getVnode_eq_ok hvn), ?_⟩
  split at hes
  · rename_i es' hd
    cases hes
    exact hd
  · cases hes

/-- Nothing changes but the counts of a vnode that stays in memory. -/
def Recounted (s t : Ramfs) : Prop :=
  t.rfsInodes = s.rfsInodes ∧ t.inCore = s.inCore ∧ t.entered = s.entered

theorem Recounted.refl (s : Ramfs) : Recounted s s := ⟨rfl, rfl, rfl⟩

theorem Recounted.views (h : Recounted s t) :
    t.dirOf = s.dirOf ∧ t.linkcount = s.linkcount ∧ t.inCore = s.inCore ∧
      t.entered = s.entered := by
  obtain ⟨hi, hc, he⟩ := h
  refine ⟨?_, ?_, hc, he⟩
  · funext y
    rw [dirOf_eq, dirOf_eq, hi]
  · funext y
    rw [linkcount, linkcount, hi]

theorem Recounted.sized (h : Recounted s t) (hs : Sized s) : Sized t := fun x inode hi =>
  hs x inode (h.1 ▸ hi)

theorem Recounted.setVnode {vn' : Vnode} (h : s.vnode x = some vn) :
    Recounted s (s.setVnode x (some vn')) := by
  refine ⟨rfl, ?_, rfl⟩
  rw [inCore_setVnode]
  exact update_eq_self_iff.mpr (inCore_of_vnode h).symm

theorem vref_eq_ok (h : vref s x = .ok t) : s.inCore x = true ∧ Recounted s t := by
  obtain ⟨vn, hvn, h⟩ := bind_eq_ok h
  obtain ⟨_, _, h⟩ := bind_eq_ok h
  cases h
  have hvn := getVnode_eq_ok hvn
  exact ⟨inCore_of_vnode hvn, .setVnode hvn⟩

/-- A vnode is read in. -/
structure Loaded (s : Ramfs) (x : Nat) (t : Ramfs) : Prop where
  out : s.inCore x = false
  vnode : ∃ vn, t.vnode x = some vn ∧ vn.vnRefcount = 1
  count : ∃ n, s.linkcount x = some n ∧ t.linkcount = update s.linkcount x (some (n + 1))
  dirOf : t.dirOf = s.dirOf
  inCore : t.inCore = update s.inCore x true
  entered : t.entered = s.entered
  sized : Sized s → Sized t

theorem vget_eq_ok (h : vget s x = .ok t) : s.inCore x = true ∧ Recounted s t ∨ Loaded s x t := by
  unfold vget at h
  split at h
  · exact .inl (vref_eq_ok h)
  · rename_i hnone
    split at h
    · rename_i inode hi
      cases h
      have hn : s.linkcount x = some inode.rfLinkcount := by rw [linkcount, hi]; rfl
      have hd : s.dirOf x = inode.rfMem.entries := by rw [dirOf_eq, hi]; rfl
      refine .inr ⟨by rw [inCore, hnone]; rfl, ⟨_, update_self .., rfl⟩, ⟨_, hn, ?_⟩, ?_,
        inCore_setVnode _, rfl, ?_⟩
      rotate_right
      · exact fun hs => Sized.setInode hs (by rintro _ ⟨⟩; exact hs x inode hi)
      · exact linkcount_setInode _
      · refine (dirOf_setInode _).trans ?_
        exact update_eq_self_iff.mpr hd.symm
    · cases h

theorem vget_dirOf (h : vget s x = .ok t) : t.dirOf = s.dirOf := by
  obtain ⟨-, hre⟩ | hl := vget_eq_ok h
  · exact hre.views.1
  · exact hl.dirOf

/-- A vnode is deleted, and its inode if the count says so. -/
structure Unloaded (s : Ramfs) (x : Nat) (t : Ramfs) : Prop where
  core : s.inCore x = true
  count : ∃ n, s.linkcount x = some n ∧
    t.linkcount = update s.linkcount x (if n = 1 then none else some (n - 1)) ∧
    t.dirOf = if n = 1 then update s.dirOf x none else s.dirOf
  inCore : t.inCore = update s.inCore x false
  entered : t.entered = s.entered
  sized : Sized s → Sized t

/-- What `vput` does.  The vnode stays if it has another reference, and if those are its pages' only
if the inode has another link; or it goes. -/
theorem vput_cases (h : vput s x = .ok t) :
    ∃ vn inode, s.vnode x = some vn ∧ s.rfsInodes x = some inode ∧
    vn.vnNrespages < vn.vnRefcount ∧
    (1 < vn.vnRefcount ∧ (vn.vnNrespages = vn.vnRefcount - 1 → 1 < inode.rfLinkcount) ∧
        t = s.setVnode x (some { vn with vnRefcount := vn.vnRefcount - 1 }) ∨
      vn.vnNrespages = vn.vnRefcount - 1 ∧ t = ramfsDeleteVnode s x inode) := by
  obtain ⟨vn, hvn, h⟩ := bind_eq_ok h
  obtain ⟨_, hpages, h⟩ := bind_eq_ok h
  obtain ⟨_, hrefs, h⟩ := bind_eq_ok h
  have hpages := of_decide_eq_true (kassert_eq_ok hpages)
  have hrefs := of_decide_eq_true (kassert_eq_ok hrefs)
  split at h
  · cases h
  · rename_i inode hi
    refine ⟨vn, inode, getVnode_eq_ok hvn, hi, hrefs, ?_⟩
    dsimp only at h
    by_cases hflush : vn.vnNrespages = vn.vnRefcount - 1 ∧ ¬ 1 < inode.rfLinkcount
    · -- without the pages the reference that is put is the last
      rw [if_pos hflush, if_neg (by dsimp only; omega)] at h
      obtain ⟨_, -, h⟩ := bind_eq_ok h
      cases h
      exact .inr ⟨hflush.1, rfl⟩
    · rw [if_neg hflush] at h
      split at h
      · cases h
        exact .inl ⟨by omega, fun heq => by_contra fun hone => hflush ⟨heq, hone⟩, rfl⟩
      · obtain ⟨_, -, h⟩ := bind_eq_ok h
        cases h
        exact .inr ⟨by omega, rfl⟩

theorem vput_eq_ok (h : vput s x = .ok t) :
    (Recounted s t ∧ ∀ vn, s.vnode x = some vn → 1 < vn.vnRefcount) ∨ Unloaded s x t := by
  obtain ⟨vn, inode, hvn, hi, -, ⟨hmany, -, rfl⟩ | ⟨-, rfl⟩⟩ := vput_cases h
  · refine .inl ⟨.setVnode hvn, fun vn' hvn' => ?_⟩
    obtain rfl := some.inj (hvn.symm.trans hvn')
    exact hmany
  · obtain ⟨hd, hn, hc, he, hs⟩ := ramfsDeleteVnode_views hi
    have hn' : s.linkcount x = some inode.rfLinkcount := by rw [linkcount, hi]; rfl
    exact .inr ⟨inCore_of_vnode hvn, ⟨_, hn', hn, hd⟩, hc, he, hs⟩

theorem ramfsLookup_eq_ok {r : Except Int Nat} (h : ramfsLookup s d name = .ok (r, t)) :
    ∃ es, s.inCore d = true ∧ s.dirOf d = some es ∧
      ((∃ e, es.find? (fun e => nameMatch e.rdName name) = some e ∧ r = .ok e.rdIno ∧
        vget s e.rdIno = .ok t) ∨
        es.find? (fun e => nameMatch e.rdName name) = none ∧ r = .error (-enoent) ∧ t = s) := by
  obtain ⟨es, hes, h⟩ := bind_eq_ok h
  obtain ⟨hc, hd⟩ := vnodeToDirent_eq_ok hes
  refine ⟨es, hc, hd, ?_⟩
  split at h
  · rename_i e he
    obtain ⟨u, hu, h⟩ := bind_eq_ok h
    cases h
    exact .inl ⟨e, he, rfl, hu⟩
  · rename_i he
    cases h
    exact .inr ⟨he, rfl, rfl⟩

/-- There is a free slot for a name that is not in the directory. -/
structure Room (s : Ramfs) (d : Nat) (name : Name) (es : List Dirent) (i : Nat) : Prop where
  core : s.inCore d = true
  dir : s.dirOf d = some es
  absent : ∀ e ∈ es, nameMatch e.rdName name = false
  free : ∃ e, es[i]? = some e ∧ e.rdName = []

theorem findRoom_eq_ok (h : findRoom s d name = .ok (some i)) : ∃ es, Room s d name es i := by
  obtain ⟨⟨r, t⟩, hr, h⟩ := bind_eq_ok h
  obtain ⟨_, hk, h⟩ := bind_eq_ok h
  obtain ⟨es, hes, h⟩ := bind_eq_ok h
  obtain ⟨hc, hd⟩ := vnodeToDirent_eq_ok hes
  obtain ⟨es', -, hd', he | ⟨habs, -, -⟩⟩ := ramfsLookup_eq_ok hr
  · obtain ⟨e, -, rfl, -⟩ := he
    cases kassert_eq_ok hk
  · obtain rfl : es' = es := some.inj (hd'.symm.trans hd)
    refine ⟨es', hc, hd, ?_, ?_⟩
    · intro e he
      simpa using find?_eq_none.mp habs e he
    · have hidx : es'.findIdx? (fun e => e.rdName = []) = some i := Except.ok.inj h
      obtain ⟨hlt, hfree, -⟩ := findIdx?_eq_some_iff_getElem.mp hidx
      exact ⟨_, getElem?_eq_getElem hlt, by simpa using hfree⟩

theorem ramfsAllocInode_cases (s : Ramfs) (mem : RfMem) (room : Bool) :
    ramfsAllocInode s mem room = (.error (-enospc), s) ∨ ∃ i < ramfsMaxFiles, s.linkcount i = none ∧
        ramfsAllocInode s mem room = (.ok i, install s i ⟨0, mem, 1⟩) := by
  unfold ramfsAllocInode
  split
  · rename_i i hi
    split
    · refine .inr ⟨i, mem_range.mp (mem_of_find?_eq_some hi), ?_, rfl⟩
      have hnone := find?_some hi
      exact linkcount_eq_none.mpr (isNone_iff_eq_none.mp hnone)
    · exact .inl rfl
  · exact .inl rfl

structure NewEntry (s : Ramfs) (d : Nat) (name : Name) (es : List Dirent) (i ino : Nat) : Prop where
  room : Room s d name es i
  lt : ino < ramfsMaxFiles
  new : s.linkcount ino = none

theorem NewEntry.ne (h : NewEntry s d name es i ino) : d ≠ ino := by
  rintro rfl
  have hd := dirOf_of_linkcount_none h.new
  rw [h.room.dir] at hd
  cases hd

theorem NewEntry.dir_install (h : NewEntry s d name es i ino)
    (inode : Inode) : (install s ino inode).dirOf d = some es := by
  rw [(install_views s ino inode).1, update_of_ne h.ne]
  exact h.room.dir

theorem NewEntry.dir_vget (h : NewEntry s d name es i ino)
    (hv : vget (install s ino inode) ino = .ok t) :
    t.dirOf d = some es :=
  (congrFun (vget_dirOf hv) d).trans (h.dir_install _)

theorem ramfsCreate_eq_ok {r : Except Int Nat} (h : ramfsCreate s d name room = .ok (r, t)) :
    (∃ e < 0, r = .error e) ∧ t = s ∨
      ∃ es i ino u, NewEntry s d name es i ino ∧ vget (install s ino ⟨0, zeroPage, 1⟩) ino = .ok u ∧
        r = .ok ino ∧ t = setEntry u d i ino name := by
  obtain ⟨slot, hslot, h⟩ := bind_eq_ok h
  obtain _ | i := slot
  · cases h
    exact .inl ⟨⟨_, by decide, rfl⟩, rfl⟩
  · obtain ⟨es, hroom⟩ := findRoom_eq_ok hslot
    obtain ha | ⟨ino, hlt, hnew, ha⟩ := ramfsAllocInode_cases s zeroPage room
    · rw [ha] at h
      cases h
      exact .inl ⟨⟨_, by decide, rfl⟩, rfl⟩
    · rw [ha] at h
      obtain ⟨u, hu, h⟩ := bind_eq_ok h
      cases h
      exact .inr ⟨es, i, ino, u, ⟨hroom, hlt, hnew⟩, hu, rfl, rfl⟩

theorem ramfsMknod_eq_ok {mode devid : Nat} (h : ramfsMknod s d name mode devid room = .ok (r, t)) :
    r < 0 ∧ t = s ∨
      ∃ es i ino mem, NewEntry s d name es i ino ∧ mem.entries = none ∧
        r = 0 ∧ t = setEntry (install s ino ⟨0, mem, 1⟩) d i ino name := by
  obtain ⟨slot, hslot, h⟩ := bind_eq_ok h
  obtain _ | i := slot
  · cases h
    exact .inl ⟨by decide, rfl⟩
  · obtain ⟨es, hroom⟩ := findRoom_eq_ok hslot
    dsimp only at h
    split at h
    · rcases ramfsAllocInode_cases s (if sIschr mode then .chr devid else .blk devid) room with
        ha | ⟨ino, hlt, hnew, ha⟩
      · rw [ha] at h
        cases h
        exact .inl ⟨by decide, rfl⟩
      · rw [ha] at h
        cases h
        refine .inr ⟨es, i, ino, _, ⟨hroom, hlt, hnew⟩, ?_, rfl, rfl⟩
        split <;> rfl
    · cases h

theorem ramfsLink_eq_ok {old : Nat} (h : ramfsLink s old d name = .ok (r, t)) : r < 0 ∧ t = s ∨
      ∃ es i, Room s d name es i ∧ s.inCore old = true ∧ r = 0 ∧
        t = (setEntry s d i old name).addLink old 1 := by
  obtain ⟨slot, hslot, h⟩ := bind_eq_ok h
  obtain _ | i := slot
  · cases h
    exact .inl ⟨by decide, rfl⟩
  · obtain ⟨es, hroom⟩ := findRoom_eq_ok hslot
    obtain ⟨vn, hvn, h⟩ := bind_eq_ok h
    cases h
    exact .inr ⟨es, i, hroom, inCore_of_vnode (getVnode_eq_ok hvn), rfl, rfl⟩

/-- The new directory may as well get its first two entries before it is entered. -/
theorem setEntry_install {inode' : Inode} (hd : s.dirOf d = some es) (hne : d ≠ ino) :
    (setEntry (install s ino inode) d i ino name).setInode ino (some inode') =
      setEntry (install s ino inode') d i ino name := by
  obtain ⟨size, n, hi⟩ := dirOf_eq_some.mp hd
  have hat : ∀ inode, (install s ino inode).rfsInodes d = some ⟨size, .dir es, n⟩ := fun inode =>
    (update_of_ne hne _ _).trans hi
  simp only [setEntry, editDir, hat]
  simp only [install, setInode, Ramfs.mk.injEq, and_true]
  rw [update_comm hne, update_idem, update_comm hne.symm]

/-- The link may as well be counted before the entry is made. -/
theorem addLink_setEntry (hd : s.dirOf d = some es) :
    (setEntry s d i ino name).addLink x m = setEntry (s.addLink x m) d i ino name := by
  obtain ⟨size, n, hi⟩ := dirOf_eq_some.mp hd
  obtain rfl | hne := eq_or_ne x d
  · simp only [setEntry, editDir, addLink, setInode, hi, update_self, update_idem]
  · cases hx : s.rfsInodes x with
    | none =>
      simp only [setEntry, editDir, addLink, setInode, hi, hx, update_of_ne hne]
    | some inode =>
      simp only [setEntry, editDir, addLink, setInode, hi, hx, update_of_ne hne,
        update_of_ne hne.symm, Ramfs.mk.injEq, and_true]
      exact update_comm hne.symm _ _ _

theorem ramfsMkdir_eq_ok (h : ramfsMkdir s d name room = .ok (r, t)) : r < 0 ∧ t = s ∨
      ∃ es i ino, NewEntry s d name es i ino ∧ r = 0 ∧
        t = setEntry (install s ino ⟨2 * sizeofRamfsDirent, .dir (dottedDir ino d),
          1⟩) d i ino name := by
  obtain ⟨slot, hslot, h⟩ := bind_eq_ok h
  obtain _ | i := slot
  · cases h
    exact .inl ⟨by decide, rfl⟩
  · obtain ⟨es, hroom⟩ := findRoom_eq_ok hslot
    obtain ha | ⟨ino, hlt, hnew, ha⟩ := ramfsAllocInode_cases s (.dir blankDir) room
    · rw [ha] at h
      cases h
      exact .inl ⟨by decide, rfl⟩
    · rw [ha] at h
      cases h
      have hentry : NewEntry s d name es i ino := ⟨hroom, hlt, hnew⟩
      exact .inr ⟨es, i, ino, hentry, rfl, setEntry_install hroom.dir hentry.ne⟩

/-- A lookup that succeeds. -/
structure Found (s : Ramfs) (d : Nat) (name : Name) (es : List Dirent) (e : Dirent) (t : Ramfs) :
    Prop where
  core : s.inCore d = true
  dir : s.dirOf d = some es
  first : es.find? (fun e => nameMatch e.rdName name) = some e
  got : vget s e.rdIno = .ok t

theorem Found.matches (h : Found s d name es e t) : nameMatch e.rdName name = true := by
  simpa using find?_some h.first

theorem Found.dir_got (h : Found s d name es e t) : t.dirOf d = some es :=
  (congrFun (vget_dirOf h.got) d).trans h.dir

theorem ramfsLookup_ok_found {x : Nat} (h : ramfsLookup s d name = .ok (.ok x, t)) :
    ∃ es e, Found s d name es e t ∧ x = e.rdIno := by
  obtain ⟨es, hc, hd, ⟨e, he, hx, hgot⟩ | ⟨-, hx, -⟩⟩ := ramfsLookup_eq_ok h
  · cases hx
    exact ⟨es, e, ⟨hc, hd, he, hgot⟩, rfl⟩
  · cases hx

theorem ramfsUnlink_eq_ok (h : ramfsUnlink s d name = .ok (r, t)) :
    r = 0 ∧ ∃ es e u, Found s d name es e u ∧ u.dirOf e.rdIno = none ∧
      removeEntry u d name e.rdIno = .ok t := by
  obtain ⟨⟨x | x, u⟩, hx, h⟩ := bind_eq_ok h
  · cases h
  · obtain ⟨es, e, hfound, rfl⟩ := ramfsLookup_ok_found hx
    obtain ⟨b, hb, h⟩ := bind_eq_ok h
    obtain ⟨_, hk, h⟩ := bind_eq_ok h
    obtain ⟨v, hv, h⟩ := bind_eq_ok h
    cases h
    refine ⟨rfl, es, e, u, hfound, ?_, hv⟩
    have hdir := kassert_eq_ok hk
    rw [(sIsdir_eq_ok hb).2] at hdir
    simpa using hdir

theorem ramfsRmdir_eq_ok (h : ramfsRmdir s d name = .ok (r, t)) :
    nameMatch ['.'] name = false ∧ nameMatch ['.', '.'] name = false ∧
      (r < 0 ∧ t = s ∨ ∃ es e u, Found s d name es e u ∧ (r < 0 ∧ vput u e.rdIno = .ok t ∨
          r = 0 ∧ (∃ es', u.dirOf e.rdIno = some es' ∧ es'.any Dirent.named = false) ∧
            removeEntry u d name e.rdIno = .ok t)) := by
  obtain ⟨_, hk, h⟩ := bind_eq_ok h
  have hdots := kassert_eq_ok hk
  simp only [Bool.and_eq_true, Bool.not_eq_true'] at hdots
  refine ⟨hdots.1, hdots.2, ?_⟩
  obtain ⟨⟨x | x, u⟩, hx, h⟩ := bind_eq_ok h
  · obtain ⟨es, -, -, ⟨e, -, hr, -⟩ | ⟨-, hr, hu⟩⟩ := ramfsLookup_eq_ok hx
    · cases hr
    · cases hr
      cases h
      exact .inl ⟨by decide, hu⟩
  · obtain ⟨es, e, hfound, rfl⟩ := ramfsLookup_ok_found hx
    refine .inr ⟨es, e, u, hfound, ?_⟩
    obtain ⟨b, hb, h⟩ := bind_eq_ok h
    -- a directory, which has other entries or not; else a file
    split at h
    · obtain ⟨es', hes', h⟩ := bind_eq_ok h
      split at h
      · obtain ⟨v, hv, h⟩ := bind_eq_ok h
        cases h
        exact .inl ⟨by decide, hv⟩
      · rename_i hany
        obtain ⟨v, hv, h⟩ := bind_eq_ok h
        cases h
        exact .inr ⟨rfl, ⟨es', (vnodeToDirent_eq_ok hes').2, by simpa using hany⟩, hv⟩
    · obtain ⟨v, hv, h⟩ := bind_eq_ok h
      cases h
      exact .inl ⟨by decide, hv⟩

/-- A write changes a file, not a directory, and no count. -/
theorem ramfsWrite_eq_ok (h : ramfsWrite s file offset buf = .ok (r, t)) :
    t.dirOf = s.dirOf ∧ t.linkcount = s.linkcount ∧ t.inCore = s.inCore ∧ t.entered = s.entered ∧
      (Sized s → Sized t) := by
  obtain ⟨⟨size, page, n⟩, hfile, h⟩ := bind_eq_ok h
  dsimp only at h
  split at h
  · cases h
  · obtain ⟨vn, hvn, h⟩ := bind_eq_ok h
    obtain ⟨_, _, h⟩ := bind_eq_ok h
    cases h
    have hvn := getVnode_eq_ok hvn
    obtain ⟨_, _, hfile⟩ := bind_eq_ok hfile
    obtain ⟨_, _, hfile⟩ := bind_eq_ok hfile
    split at hfile
    · rename_i size' page' n' hi
      cases hfile
      have hn : s.linkcount file = some n := by rw [linkcount, hi]; rfl
      have hd : s.dirOf file = none := by rw [dirOf_eq, hi]; rfl
      have hc : s.inCore file = true := inCore_of_vnode hvn
      refine ⟨?_, ?_, ?_, rfl, fun hs => Sized.setInode hs (by rintro _ ⟨⟩ es ⟨⟩)⟩
      · refine (dirOf_setInode _).trans ?_
        exact update_eq_self_iff.mpr hd.symm
      · refine (linkcount_setInode _).trans ?_
        exact update_eq_self_iff.mpr hn.symm
      · refine (inCore_setVnode _).trans ?_
        exact update_eq_self_iff.mpr hc.symm
    · cases hfile

theorem ramfsWrite_vnode (h : ramfsWrite s file offset buf = .ok (r, t)) :
    ∃ vn len, s.vnode file = some vn ∧
      t.vnode = update s.vnode file (some { vn with vnLen := len }) := by
  obtain ⟨⟨size, page, n⟩, -, h⟩ := bind_eq_ok h
  dsimp only at h
  split at h
  · cases h
  · obtain ⟨vn, hvn, h⟩ := bind_eq_ok h
    obtain ⟨_, _, h⟩ := bind_eq_ok h
    cases h
    exact ⟨vn, _, getVnode_eq_ok hvn, rfl⟩

/-- What an operation does if it returns. -/
inductive Effect (s : Ramfs) : RamfsOp → Ramfs → Prop
  | same {op : RamfsOp} : Effect s op s
  | ref {x : Nat} {t : Ramfs} (h : vref s x = .ok t) : Effect s (.vref x) t
  | get {op : RamfsOp} {x : Nat} {t : Ramfs} (h : vget s x = .ok t) : Effect s op t
  | put {x : Nat} {t : Ramfs} (h : vput s x = .ok t) : Effect s (.vput x) t
  | create {d i ino : Nat} {name : Name} {room : Bool} {es : List Dirent} {v : Ramfs}
      (hnew : NewEntry s d name es i ino) (hv : vget (install s ino ⟨0, zeroPage, 1⟩) ino = .ok v) :
      Effect s (.create d name room) (setEntry v d i ino name)
  | mknod {d mode devid i ino : Nat} {name : Name} {room : Bool} {es : List Dirent} {mem : RfMem}
      (hnew : NewEntry s d name es i ino) (hmem : mem.entries = none) :
      Effect s (.mknod d name mode devid room) (setEntry (install s ino ⟨0, mem, 1⟩) d i ino name)
  | link {old d i : Nat} {name : Name} {es : List Dirent} (hroom : Room s d name es i)
  (hold : s.inCore old = true) :
      Effect s (.link old d name) ((setEntry s d i old name).addLink old 1)
  | mkdir {d i ino : Nat} {name : Name} {room : Bool} {es : List Dirent}
      (hnew : NewEntry s d name es i ino) : Effect s (.mkdir d name room)
      (setEntry (install s ino ⟨2 * sizeofRamfsDirent, .dir (dottedDir ino d), 1⟩) d i ino name)
  | unlink {d : Nat} {name : Name} {es : List Dirent} {e : Dirent} {u t : Ramfs}
      (hfound : Found s d name es e u) (hnodir : u.dirOf e.rdIno = none)
      (hrem : removeEntry u d name e.rdIno = .ok t) : Effect s (.unlink d name) t
  | refused {d : Nat} {name : Name} {es : List Dirent} {e : Dirent} {u t : Ramfs}
      (hfound : Found s d name es e u) (hput : vput u e.rdIno = .ok t) : Effect s (.rmdir d name) t
  | rmdir {d : Nat} {name : Name} {es es' : List Dirent} {e : Dirent} {u t : Ramfs}
      (hdot : nameMatch ['.'] name = false) (hdots : nameMatch ['.', '.'] name = false)
      (hfound : Found s d name es e u)
      (hes' : u.dirOf e.rdIno = some es') (hempty : es'.any Dirent.named = false)
      (hrem : removeEntry u d name e.rdIno = .ok t) : Effect s (.rmdir d name) t
  | write {file offset : Nat} {buf : List UInt8} {r : Int} {t : Ramfs}
      (h : ramfsWrite s file offset buf = .ok (r, t)) : Effect s (.write file offset buf) t

/-- **One step.** -/
theorem ramfsStep_effect {op : RamfsOp} (hs : ramfsStep s op = .ok t) : Effect s op t := by
  cases op with
  | vref x => exact .ref hs
  | vget x => exact .get hs
  | vput x => exact .put hs
  | lookup d name =>
    obtain ⟨r, hr⟩ := snd_eq_ok hs
    obtain ⟨es, -, -, ⟨e, -, -, hg⟩ | ⟨-, -, rfl⟩⟩ := ramfsLookup_eq_ok hr
    · exact .get hg
    · exact .same
  | create d name room =>
    obtain ⟨r, hr⟩ := snd_eq_ok hs
    obtain ⟨-, rfl⟩ | ⟨es, i, ino, v, hnew, hv, -, rfl⟩ := ramfsCreate_eq_ok hr
    · exact .same
    · exact .create hnew hv
  | mknod d name mode devid room =>
    obtain ⟨r, hr⟩ := snd_eq_ok hs
    obtain ⟨-, rfl⟩ | ⟨es, i, ino, mem, hnew, hmem, -, rfl⟩ := ramfsMknod_eq_ok hr
    · exact .same
    · exact .mknod hnew hmem
  | link old d name =>
    obtain ⟨r, hr⟩ := snd_eq_ok hs
    obtain ⟨-, rfl⟩ | ⟨es, i, hroom, hold, -, rfl⟩ := ramfsLink_eq_ok hr
    · exact .same
    · exact .link hroom hold
  | mkdir d name room =>
    obtain ⟨r, hr⟩ := snd_eq_ok hs
    obtain ⟨-, rfl⟩ | ⟨es, i, ino, hnew, -, rfl⟩ := ramfsMkdir_eq_ok hr
    · exact .same
    · exact .mkdir hnew
  | unlink d name =>
    obtain ⟨r, hr⟩ := snd_eq_ok hs
    obtain ⟨-, es, e, u, hfound, hnodir, hrem⟩ := ramfsUnlink_eq_ok hr
    exact .unlink hfound hnodir hrem
  | rmdir d name =>
    obtain ⟨r, hr⟩ := snd_eq_ok hs
    obtain ⟨hdot, hdots,
      ⟨-, rfl⟩ | ⟨es, e, u, hfound, ⟨-, hput⟩ | ⟨-, ⟨es', hes', hempty⟩, hrem⟩⟩⟩ :=
      ramfsRmdir_eq_ok hr
    · exact .same
    · exact .refused hfound hput
    · exact .rmdir hdot hdots hfound hes' hempty hrem
  | read file offset count =>
    obtain ⟨_, -, rfl⟩ := map_eq_ok hs
    exact .same
  | write file offset buf =>
    obtain ⟨r, hr⟩ := snd_eq_ok hs
    exact .write hr

end Weenix.Vfs
