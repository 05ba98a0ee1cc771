/-
# Names in the directories of the memory file system

What an operation that makes an entry leaves for a lookup.  `name_match` compares a name with what
is stored, of which `strncpy` keeps 27 characters, so a longer name does not match its own entry:
`Entered` says what a lookup of the last entry made finds, for every name.

For the lookup to return, the inode must still be in the table and its vnode, if it is in memory,
must have a reference.  An inode is `Durable` if it stays in the table when its vnode is put.
`Held` is about the vnodes: one that only its resident pages keep in memory has a durable inode.
-/
import Weenix.Fs.RamfsAccount

namespace Weenix.Vfs

open Slots List Option Bool Ramfs

variable {ino : Nat}

variable {s t : Ramfs} {x y d i : Nat} {name : Name} {es : List Dirent} {e : Dirent} {op : RamfsOp}

/-! ## 1. Names and slots -/

/-- The names that are stored in full. -/
def Name.Fits (name : Name) : Prop := 1 ≤ name.str.length ∧ name.str.length ≤ nameLen - 1
deriving Decidable

/-- What is stored for a name matches it exactly if the name fits. -/
theorem nameMatch_stored_iff (hf : name.Final) : nameMatch name.stored name = true ↔ name.Fits := by
  by_cases hnil : name.str = []
  · rw [Name.Final, if_pos hnil] at hf
    simp [nameMatch, Name.stored, Name.Fits, hnil, hf]
  · rw [Name.Final, if_neg hnil] at hf
    have hpos := length_pos_iff.mpr hnil
    simp only [nameMatch, Name.stored, Name.Fits, hf, length_take, take_length, decide_eq_true_eq]
    constructor
    · rintro ⟨hlen, -⟩
      omega
    · rintro ⟨-, hle⟩
      exact ⟨by omega, (take_of_length_le (by omega)).symm⟩

theorem stored_of_fits (hf : name.Final) (h : name.Fits) : name.stored = name.str :=
  (rdName_of_nameMatch (e := ⟨0, name.stored⟩) hf ((nameMatch_stored_iff hf).mpr h)).1

/-- A slot is set in a list in which nothing had the property. -/
theorem find?_set {p : Dirent → Bool} (habsent : ∀ e ∈ es, p e = false) (hi : es[i]? = some e)
    (e' : Dirent) : (es.set i e').find? p = if p e' then some e' else none := by
  have hlt : i < es.length := (List.getElem?_eq_some_iff.mp hi).1
  have honly : ∀ a ∈ es.set i e', p a = true → a = e' := by
    intro a ha hp
    obtain ha | rfl := mem_or_eq_of_mem_set ha
    · rw [habsent a ha] at hp
      cases hp
    · rfl
  cases hp : p e' with
  | false =>
    rw [if_neg Bool.false_ne_true, find?_eq_none]
    intro a ha hpa
    rw [honly a ha hpa, hp] at hpa
    cases hpa
  | true =>
    have hsome : ((es.set i e').find? p).isSome = true :=
      find?_isSome.mpr ⟨e', mem_set hlt e', hp⟩
    obtain ⟨a, ha⟩ := isSome_iff_exists.mp hsome
    rw [if_pos rfl, ha, honly a (mem_of_find?_eq_some ha) (find?_some ha)]

/-! ## 2. No name twice -/

/-- Every name but the empty one, which marks a free slot, is in a directory at most once. -/
def NamesOnce (s : Ramfs) : Prop :=
  ∀ d es, s.dirOf d = some es → ∀ fname ≠ [], es.countP (fun e => e.rdName = fname) ≤ 1

namespace NamesOnce

section
variable (h : NamesOnce s)
include h

theorem shrinks (hs : Shrinks s t) : NamesOnce t := by
  intro d es hes
  refine h d es ?_
  rw [← hes]
  refine (hs.kept d fun hn => ?_).2.symm
  rw [dirOf_of_linkcount_none hn] at hes
  cases hes

/-- One directory is replaced. -/
theorem update {table : Option (List Dirent)} (hdir : t.dirOf = update s.dirOf d table)
    (hes : ∀ es ∈ table, ∀ fname ≠ [], es.countP (fun e => e.rdName = fname) ≤ 1) :
    NamesOnce t := by
  intro d' es hd'
  obtain ⟨-, hd'⟩ | ⟨-, hd'⟩ := of_update (hdir ▸ hd')
  · exact hes es hd'
  · exact h d' es hd'

theorem congr (hd : t.dirOf = s.dirOf) : NamesOnce t := fun d es hes =>
  h d es (hd ▸ hes)

/-- A slot gets a name that was not in the directory, or none. -/
theorem set (hes : s.dirOf d = some es) (he : es[i]? = some e) {e' : Dirent}
    (hnew : e'.rdName ≠ [] → ∀ a ∈ es, a.rdName ≠ e'.rdName)
    (hdir : t.dirOf = Function.update s.dirOf d (some (es.set i e'))) : NamesOnce t := by
  refine h.update hdir ?_
  rintro _ ⟨⟩ fname hne
  have hsum := countP_set_add (p := fun e : Dirent => decide (e.rdName = fname)) he (b := e')
  have hle := h d es hes fname hne
  by_cases hname : e'.rdName = fname
  · have hzero : es.countP (fun e => e.rdName = fname) = 0 := by
      refine countP_eq_zero.mpr fun a ha hp => ?_
      exact hnew (hname ▸ hne) a ha ((of_decide_eq_true hp).trans hname.symm)
    rw [decide_eq_true hname, toNat_true] at hsum
    omega
  · rw [decide_eq_false hname, toNat_false] at hsum
    omega

theorem setEntry (hf : name.Final) (hfits : name.Fits) (hes : s.dirOf d = some es)
    (habsent : ∀ e ∈ es, nameMatch e.rdName name = false)
    (hfree : ∃ e, es[i]? = some e ∧ e.rdName = []) :
    NamesOnce (setEntry s d i ino name) := by
  obtain ⟨e, he, -⟩ := hfree
  refine h.set hes he (fun _ a ha heq => ?_) (setEntry_views hes).1
  have heq : a.rdName = name.stored := heq
  have hmatch := (nameMatch_stored_iff hf).mpr hfits
  rw [← heq, habsent a ha] at hmatch
  cases hmatch

theorem install {inode : Inode}
    (hnames : ∀ es ∈ inode.rfMem.entries, ∀ fname ≠ [], es.countP (fun e => e.rdName = fname) ≤ 1) :
    NamesOnce (install s ino inode) := h.update (install_views s ino inode).1 hnames

variable (hes : s.dirOf d = some es) (hfind : es.find? (fun e => nameMatch e.rdName name) = some e)
include hes hfind

theorem clearEntry : NamesOnce (clearEntry s d name) := by
  obtain ⟨i, he, hclear⟩ := clearSlot_eq hfind
  have hdir : (Vfs.clearEntry s d name).dirOf = _ := (clearEntry_views hes).1
  rw [hclear] at hdir
  exact h.set hes he (fun hne => absurd rfl hne) hdir

theorem removeEntry (hrem : removeEntry s d name x = .ok t) : NamesOnce t :=
  ((h.clearEntry hes hfind).congr dirOf_addLink).shrinks (.vput hrem)

end

end NamesOnce

theorem countP_dottedDir (ino up : Nat) {fname : List Char} (hne : fname ≠ []) :
    (dottedDir ino up).countP (fun e => e.rdName = fname) ≤ 1 := by
  have hrest : (replicate (ramfsMaxDirent - 2) (Dirent.mk 0 [])).countP (fun e =>
      e.rdName = fname) = 0 := by
    rw [countP_replicate, if_neg]
    simpa using hne.symm
  rw [dottedDir, countP_cons, countP_cons, hrest]
  by_cases hdot : ['.'] = fname
  · simp [← hdot]
  · simp only [hdot, decide_false, false_eq_true, if_false]
    split <;> decide

/-- The names given to the operations that make an entry are stored in full. -/
def RamfsOp.Fits : RamfsOp → Prop
  | .create _ name _ | .mknod _ name _ _ _ | .link _ _ name | .mkdir _ name _ => name.Fits
  | _ => True

/-- **With such names every operation keeps the names apart.** -/
theorem NamesOnce.step (h : NamesOnce s) (hl : ramfsLegal s op) (hfits : op.Fits)
    (hs : ramfsStep s op = .ok t) : NamesOnce t := by
  cases ramfsStep_effect hs with
  | same => exact h
  | ref hr => exact h.shrinks (.recounted (vref_eq_ok hr).2)
  | get hg => exact h.shrinks (.vget hg)
  | put hp => exact h.shrinks (.vput hp)
  | @create d i ino name room es v hnew hv =>
    have hi : NamesOnce (Vfs.install s ino ⟨0, zeroPage, 1⟩) := h.install (by rintro es ⟨⟩)
    exact (hi.shrinks (.vget hv)).setEntry hl hfits (hnew.dir_vget hv) hnew.room.absent
      hnew.room.free
  | @mknod d mode devid i ino name room es mem hnew hmem =>
    have hi : NamesOnce (Vfs.install s ino ⟨0, mem, 1⟩) := h.install (by
      rintro es hes
      rw [hmem] at hes
      cases hes)
    exact hi.setEntry hl hfits (hnew.dir_install _) hnew.room.absent hnew.room.free
  | link hroom _ =>
    exact (h.setEntry hl hfits hroom.dir hroom.absent hroom.free).congr dirOf_addLink
  | @mkdir d i ino name room es hnew =>
    have hi : NamesOnce (Vfs.install s ino ⟨2 * sizeofRamfsDirent, .dir (dottedDir ino d), 1⟩) :=
      h.install (by
        rintro es ⟨⟩ fname hne
        exact countP_dottedDir ino d hne)
    exact hi.setEntry hl hfits (hnew.dir_install _) hnew.room.absent hnew.room.free
  | unlink hfound _ hrem | rmdir _ _ hfound _ _ hrem =>
    exact (h.shrinks (.vget hfound.got)).removeEntry hfound.dir_got hfound.first hrem
  | refused hfound hput => exact (h.shrinks (.vget hfound.got)).shrinks (.vput hput)
  | write hw => exact h.congr (ramfsWrite_eq_ok hw).1

theorem NamesOnce.mount : NamesOnce ramfsMount := by
  intro d es hes fname hne
  obtain ⟨rfl, rfl⟩ := dirOf_ramfsMount_eq_some hes
  exact countP_dottedDir _ _ hne

/-! ## 3. Inodes that stay -/

/-- The inode is counted for more than its vnode. -/
def Durable (s : Ramfs) (x : Nat) : Prop := ∃ n, s.linkcount x = some n ∧ core s x < n

/-- The operations of a call that makes an entry. -/
def RamfsOp.Adds : RamfsOp → Prop
  | .vref _ | .vget _ | .vput _ | .lookup _ _ | .create _ _ _ | .mknod _ _ _ _ _ | .link _ _ _
  | .mkdir _ _ _ => True
  | _ => False

namespace Durable

theorem present (h : Durable s x) : s.linkcount x ≠ none := by
  obtain ⟨n, hn, -⟩ := h
  rw [hn]
  exact nofun

theorem congr (h : Durable s x) (hn : t.linkcount x = s.linkcount x)
    (hc : t.inCore x = s.inCore x) : Durable t x := by
  obtain ⟨n, hn', hlt⟩ := h
  exact ⟨n, hn.trans hn', by rwa [core, hc]⟩

theorem recounted (h : Durable s x) (hr : Recounted s t) : Durable t x :=
  have ⟨_, hn, hc, _⟩ := hr.views
  h.congr (congrFun hn x) (congrFun hc x)

theorem vget (h : Durable s x) (hg : vget s y = .ok t) : Durable t x := by
  obtain ⟨-, hr⟩ | hl := vget_eq_ok hg
  · exact h.recounted hr
  · obtain ⟨n, hn, hn'⟩ := hl.count
    obtain rfl | hne := eq_or_ne x y
    · obtain ⟨m, hm, hlt⟩ := h
      obtain rfl : n = m := some.inj (hn.symm.trans hm)
      rw [core, hl.out, if_neg Bool.false_ne_true] at hlt
      refine ⟨n + 1, by rw [hn', update_self], ?_⟩
      rw [core_update hl.inCore, if_pos rfl, if_pos rfl]
      omega
    · exact h.congr (by rw [hn', update_of_ne hne]) (by rw [hl.inCore, update_of_ne hne])

theorem vput (h : Durable s x) (hp : vput s y = .ok t) : Durable t x := by
  obtain ⟨hr, -⟩ | hu := vput_eq_ok hp
  · exact h.recounted hr
  · obtain ⟨n, hn, hn', -⟩ := hu.count
    obtain rfl | hne := eq_or_ne x y
    · obtain ⟨m, hm, hlt⟩ := h
      obtain rfl : n = m := some.inj (hn.symm.trans hm)
      rw [core, hu.core, if_pos rfl] at hlt
      refine ⟨n - 1, by rw [hn', update_self, if_neg (by omega)], ?_⟩
      rw [core_update hu.inCore, if_pos rfl, if_neg Bool.false_ne_true]
      omega
    · exact h.congr (by rw [hn', update_of_ne hne]) (by rw [hu.inCore, update_of_ne hne])

theorem install (h : Durable s x) (hnew : s.linkcount ino = none) (inode : Inode) :
    Durable (install s ino inode) x := by
  obtain ⟨-, hn, hc, -⟩ := install_views s ino inode
  have hne : x ≠ ino := by
    rintro rfl
    exact h.present hnew
  exact h.congr (by rw [hn, update_of_ne hne]) (congrFun hc x)

theorem setEntry (h : Durable s x) (hes : s.dirOf d = some es) :
    Durable (setEntry s d i ino name) x := by
  obtain ⟨-, hn, hc, -⟩ : _ ∧ _ ∧ _ ∧ (Vfs.setEntry s d i ino name).entered = _ :=
    setEntry_views hes
  exact h.congr (congrFun hn x) (congrFun hc x)

/-- One more link. -/
theorem addLink (h : Durable s x) : Durable (s.addLink y 1) x := by
  cases hy : s.linkcount y with
  | none =>
    unfold Ramfs.addLink
    rw [linkcount_eq_none.mp hy]
    exact h
  | some m =>
    obtain ⟨-, hn, hc, -⟩ := addLink_views (m := 1) hy
    obtain rfl | hne := eq_or_ne x y
    · obtain ⟨n, hn', hlt⟩ := h
      obtain rfl : m = n := some.inj (hy.symm.trans hn')
      exact ⟨m + 1, by rw [hn, update_self], by rw [core, hc]; rw [core] at hlt; omega⟩
    · exact h.congr (by rw [hn, update_of_ne hne]) (congrFun hc x)

/-- An operation that takes no link off leaves a durable inode durable. -/
theorem adds (h : Durable s x) (hop : op.Adds) (hs : ramfsStep s op = .ok t) : Durable t x := by
  cases ramfsStep_effect hs with
  | same => exact h
  | ref hr => exact h.recounted (vref_eq_ok hr).2
  | get hg => exact h.vget hg
  | put hp => exact h.vput hp
  | create hnew hv => exact ((h.install hnew.new _).vget hv).setEntry (hnew.dir_vget hv)
  | mknod hnew _ => exact (h.install hnew.new _).setEntry (hnew.dir_install _)
  | link hroom _ => exact (h.setEntry hroom.dir).addLink
  | mkdir hnew => exact (h.install hnew.new _).setEntry (hnew.dir_install _)
  | unlink | refused | rmdir | write => cases hop

end Durable

/-! ## 4. Vnodes -/

structure VnodeOk (s : Ramfs) (x : Nat) (vn : Vnode) : Prop where
  pos : 0 < vn.vnRefcount
  le : vn.vnNrespages ≤ vn.vnRefcount
  kept : vn.vnRefcount = vn.vnNrespages → Durable s x

def Held (s : Ramfs) : Prop := ∀ x vn, s.vnode x = some vn → VnodeOk s x vn

namespace Held

/-- The vnodes are as before. -/
theorem congr (h : Held s) (hv : t.vnode = s.vnode)
    (hd : ∀ x vn, s.vnode x = some vn → vn.vnRefcount = vn.vnNrespages → Durable s x →
      Durable t x) :
    Held t := by
  intro x vn hvn
  rw [hv] at hvn
  obtain ⟨hpos, hle, hkept⟩ := h x vn hvn
  exact ⟨hpos, hle, fun heq => hd x vn hvn heq (hkept heq)⟩

/-- One vnode has new counts, or is gone. -/
theorem update (h : Held s) {vn : Option Vnode} (hv : t.vnode = update s.vnode x vn)
    (hd : ∀ y ≠ x, Durable s y → Durable t y) (hx : ∀ v ∈ vn, VnodeOk t x v) : Held t := by
  intro y v hy
  obtain ⟨rfl, hy⟩ | ⟨hne, hy⟩ := of_update (hv ▸ hy)
  · exact hx v hy
  · obtain ⟨hpos, hle, hkept⟩ := h y v hy
    exact ⟨hpos, hle, fun heq => hd y hne (hkept heq)⟩

theorem vref (h : Held s) (hr : vref s x = .ok t) :
    Held t ∧ ∃ vn, t.vnode x = some vn ∧ vn.vnNrespages < vn.vnRefcount := by
  obtain ⟨-, hre⟩ := vref_eq_ok hr
  obtain ⟨vn, hvn, hr⟩ := bind_eq_ok hr
  obtain ⟨_, -, hr⟩ := bind_eq_ok hr
  cases hr
  have hok := h x vn (getVnode_eq_ok hvn)
  have hlt : vn.vnNrespages < vn.vnRefcount + 1 := by
    have := hok.le
    omega
  refine ⟨h.update rfl (fun y _ hd => hd.recounted hre) ?_, _, update_self .., hlt⟩
  rintro _ ⟨⟩
  refine ⟨?_, Int.le_of_lt hlt, fun heq => ?_⟩
  · have := hok.pos
    dsimp only
    omega
  · dsimp only at heq
    omega

theorem vget (h : Held s) (hg : vget s x = .ok t) :
    Held t ∧ ∃ vn, t.vnode x = some vn ∧ vn.vnNrespages < vn.vnRefcount := by
  have hd : ∀ y, Durable s y → Durable t y := fun y hy => hy.vget hg
  unfold Vfs.vget at hg
  split at hg
  · exact h.vref hg
  · split at hg
    · cases hg
      refine ⟨h.update rfl (fun y _ => hd y) ?_, _, update_self .., Int.one_pos⟩
      rintro _ ⟨⟩
      exact ⟨Int.one_pos, Int.le_of_lt Int.one_pos, fun heq => absurd heq Int.one_ne_zero⟩
    · cases hg

theorem vput (h : Held s) (hp : vput s x = .ok t) : Held t := by
  have hd : ∀ y, Durable s y → Durable t y := fun y hy => hy.vput hp
  obtain ⟨vn, inode, hvn, hi, hlt, ⟨hmany, hlink, rfl⟩ | ⟨-, rfl⟩⟩ := vput_cases hp
  · -- the vnode stays: with no reference but its pages', the inode has another link
    refine h.update rfl (fun y _ => hd y) ?_
    rintro _ ⟨⟩
    have hcore : core s x = 1 := by rw [core, inCore_of_vnode hvn, if_pos rfl]
    have hcount : s.linkcount x = some inode.rfLinkcount := by rw [linkcount, hi]; rfl
    refine ⟨Int.sub_pos_of_lt hmany, Int.le_sub_one_of_lt hlt, fun heq => hd x ⟨_, hcount, ?_⟩⟩
    rw [hcore]
    exact hlink heq.symm
  · exact h.update (vnode_ramfsDeleteVnode s x inode) (fun y _ => hd y) (by rintro _ ⟨⟩)

theorem install (h : Held s) (hnew : s.linkcount ino = none) (inode : Inode) :
    Held (install s ino inode) := h.congr rfl fun _ _ _ _ hd => hd.install hnew inode

theorem setEntry (h : Held s) (hes : s.dirOf d = some es) : Held (setEntry s d i ino name) :=
  h.congr vnode_editDir fun _ _ _ _ hd => hd.setEntry hes

/-- A link is taken off an inode whose vnode has a reference. -/
theorem removeEntry (h : Held s) (hes : s.dirOf d = some es)
    (href : ∃ vn, s.vnode x = some vn ∧ vn.vnNrespages < vn.vnRefcount)
    (hrem : removeEntry s d name x = .ok t) : Held t := by
  obtain ⟨vn, hvn, hlt⟩ := href
  obtain ⟨-, hn, hc, -⟩ : _ ∧ _ ∧ _ ∧ (clearEntry s d name).entered = _ := clearEntry_views hes
  refine Held.vput (h.congr ?_ fun y v hv heq hd => ?_) hrem
  · rw [vnode_addLink]
    exact vnode_editDir
  · have hne : y ≠ x := by
      rintro rfl
      obtain rfl : vn = v := some.inj (hvn.symm.trans hv)
      omega
    have hcore : ((clearEntry s d name).addLink x (-1)).inCore = s.inCore := by
      rw [← hc]
      funext z
      rw [inCore, inCore, vnode_addLink]
    refine hd.congr ?_ (congrFun hcore y)
    cases hx : (clearEntry s d name).linkcount x with
    | none =>
      unfold addLink
      rw [linkcount_eq_none.mp hx]
      exact congrFun hn y
    | some n => rw [(addLink_views hx).2.1, update_of_ne hne, hn]

end Held

/-! ## 5. The last entry made -/

/-- What a lookup of the last entry finds, if its directory is still there. -/
def Entered (s : Ramfs) : Prop := ∀ d name ino, s.entered = some (d, name, ino) →
  Durable s ino ∧ (s.linkcount d ≠ none → ∃ es, s.dirOf d = some es ∧
    es.find? (fun e => nameMatch e.rdName name) = if name.Fits then some ⟨ino, name.str⟩ else none)

namespace Entered

theorem nothing (h : s.entered = none) : Entered s := by
  intro d name ino he
  rw [h] at he
  cases he

theorem shrinks (h : Entered s) (hs : Shrinks s t) (hd : ∀ x, Durable s x → Durable t x) :
    Entered t := by
  intro d name ino he
  rw [hs.entered] at he
  obtain ⟨hino, hdir⟩ := h d name ino he
  refine ⟨hd ino hino, fun hn => ?_⟩
  obtain ⟨hs', heq⟩ := hs.kept d hn
  rw [heq]
  exact hdir hs'

theorem vget (h : Entered s) (hg : vget s x = .ok t) : Entered t :=
  h.shrinks (.vget hg) fun _ hd => hd.vget hg

theorem vput (h : Entered s) (hp : vput s x = .ok t) : Entered t :=
  h.shrinks (.vput hp) fun _ hd => hd.vput hp

theorem setEntry (hf : name.Final) (hes : s.dirOf d = some es)
    (habsent : ∀ e ∈ es, nameMatch e.rdName name = false)
    (hfree : ∃ e, es[i]? = some e ∧ e.rdName = [])
    (hino : Durable s ino) : Entered (setEntry s d i ino name) := by
  obtain ⟨hdir, -, -, hent⟩ : _ ∧ _ ∧ _ ∧ (Vfs.setEntry s d i ino name).entered = _ :=
    setEntry_views hes
  intro d' name' ino' he
  rw [hent] at he
  cases he
  refine ⟨hino.setEntry hes, fun _ => ⟨_, by rw [hdir, update_self], ?_⟩⟩
  obtain ⟨e, he, -⟩ := hfree
  rw [find?_set habsent he]
  by_cases hfits : name.Fits
  · rw [if_pos ((nameMatch_stored_iff hf).mpr hfits), if_pos hfits, stored_of_fits hf hfits]
  · rw [if_neg (mt (nameMatch_stored_iff hf).mp hfits), if_neg hfits]

end Entered

/-- What the operations keep, whatever the names are. -/
structure NamesInv (s : Ramfs) : Prop where
  books : ∃ debt, Books False s debt
  held : Held s
  entered : Entered s

theorem entered_removeEntry (hes : s.dirOf d = some es)
    (hrem : removeEntry s d name x = .ok t) : t.entered = none := by
  obtain ⟨-, -, -, hent⟩ : _ ∧ _ ∧ _ ∧ (clearEntry s d name).entered = _ := clearEntry_views hes
  rw [(Shrinks.vput hrem).entered, ← hent]
  unfold addLink
  split <;> rfl

theorem durable_install {debt : Nat → Int} (h : Books False s debt)
    (hnew : s.linkcount ino = none) (mem : RfMem) (size : Int) :
    Durable (install s ino ⟨size, mem, 1⟩) ino := by
  obtain ⟨-, hn, hc, -⟩ := install_views s ino ⟨size, mem, 1⟩
  refine ⟨1, by rw [hn, update_self], ?_⟩
  have hout : s.inCore ino = false := by
    by_contra hin
    exact h.inCore ino (by simpa using hin) hnew
  rw [core, hc, hout, if_neg Bool.false_ne_true]
  exact Int.one_pos

namespace NamesInv

theorem get (h : NamesInv s) (hg : vget s x = .ok t) : NamesInv t :=
  have ⟨debt, hb⟩ := h.books
  ⟨⟨debt, hb.get hg⟩, (h.held.vget hg).1, h.entered.vget hg⟩

theorem put (h : NamesInv s) (hp : vput s x = .ok t) : NamesInv t :=
  have ⟨_, hb⟩ := h.books
  have ⟨debt, hb', _⟩ := hb.put hp
  ⟨⟨debt, hb'⟩, h.held.vput hp, h.entered.vput hp⟩

/-- **Every operation.** -/
theorem step (h : NamesInv s) (hl : ramfsLegal s op) (hsafe : LinkSafe False s op)
    (hs : ramfsStep s op = .ok t) : NamesInv t := by
  obtain ⟨debt, hb⟩ := h.books
  have hbooks : ∃ debt, Books False t debt :=
    have ⟨debt', hb', _⟩ := hb.step hl hsafe hs; ⟨debt', hb'⟩
  cases ramfsStep_effect hs with
  | same => exact h
  | ref hr =>
    have hre := (vref_eq_ok hr).2
    exact ⟨hbooks, (h.held.vref hr).1, h.entered.shrinks (.recounted hre) fun _ hd =>
      hd.recounted hre⟩
  | get hg => exact h.get hg
  | put hp => exact h.put hp
  | create hnew hv =>
    have hes := hnew.dir_vget hv
    have hino := (durable_install hb hnew.new zeroPage 0).vget hv
    exact ⟨hbooks, ((h.held.install hnew.new _).vget hv).1.setEntry hes,
      .setEntry hl hes hnew.room.absent hnew.room.free hino⟩
  | @mknod d mode devid i ino name room es mem hnew =>
    have hes := hnew.dir_install ⟨0, mem, 1⟩
    exact ⟨hbooks, (h.held.install hnew.new _).setEntry hes,
      .setEntry hl hes hnew.room.absent hnew.room.free (durable_install hb hnew.new mem 0)⟩
  | @link old d i name es hroom hold =>
    obtain ⟨n, hn⟩ := ne_none_iff_exists'.mp (hb.inCore old hold)
    obtain ⟨hdir, hcount, hcore, -⟩ := addLink_views (m := 1) hn
    have hes : (s.addLink old 1).dirOf d = some es := (congrFun hdir d).trans hroom.dir
    have hino : Durable (s.addLink old 1) old := by
      have := hb.pos old n hn
      refine ⟨n + 1, by rw [hcount, update_self], ?_⟩
      rw [core, hcore, hold, if_pos rfl]
      omega
    rw [addLink_setEntry hroom.dir] at hbooks ⊢
    have hheld : Held (s.addLink old 1) := h.held.congr vnode_addLink fun _ _ _ _ hd => hd.addLink
    exact ⟨hbooks, hheld.setEntry hes, .setEntry hl hes hroom.absent hroom.free hino⟩
  | @mkdir d i ino name room es hnew =>
    have hes := hnew.dir_install ⟨2 * sizeofRamfsDirent, .dir (dottedDir ino d), 1⟩
    exact ⟨hbooks, (h.held.install hnew.new _).setEntry hes,
      .setEntry hl hes hnew.room.absent hnew.room.free (durable_install hb hnew.new _ _)⟩
  | unlink hfound _ hrem | rmdir _ _ hfound _ _ hrem =>
    have hes := hfound.dir_got
    obtain ⟨hheld, href⟩ := h.held.vget hfound.got
    exact ⟨hbooks, hheld.removeEntry hes href hrem, .nothing (entered_removeEntry hes hrem)⟩
  | refused hfound hput => exact (h.get hfound.got).put hput
  | @write file offset buf r t hr =>
    obtain ⟨hd, hn, hc, he, -⟩ := ramfsWrite_eq_ok hr
    have hdur : ∀ x, Durable s x → Durable t x :=
      fun x hx => hx.congr (congrFun hn x) (congrFun hc x)
    refine ⟨hbooks, ?_, h.entered.shrinks ⟨he, fun x hx => ⟨hn ▸ hx, congrFun hd x⟩⟩ hdur⟩
    obtain ⟨vn, len, hvn, hv⟩ := ramfsWrite_vnode hr
    refine h.held.update hv (fun y _ => hdur y) ?_
    rintro _ ⟨⟩
    obtain ⟨hpos, hle, hkept⟩ := h.held file vn hvn
    exact ⟨hpos, hle, fun heq => hdur file (hkept heq)⟩

end NamesInv

end Weenix.Vfs
