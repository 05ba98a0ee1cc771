/-
# The calls and the names of entries

A call that makes an entry looks the name up, finds nothing and passes it on: `open_namev` and
`do_mknod` take names of up to 32 characters, `do_mkdir` and `do_link` of up to 28 and the empty
one, and 27 are stored.  A following lookup finds the entry exactly if the name has between 1 and 27
characters, and as long as the names have no directory has a name twice.
-/
import Weenix.Fs.RamfsNames

namespace Weenix.Vfs

open Option Ramfs

open Fs (oCreat)

section
variable {s t u : Ramfs} {x d ino : Nat} {name : Name} {δ : Nat → Int}

/-! ## 1. A following lookup -/

/-- The operations of a call that makes an entry, as the call uses them. -/
def addsLegal (s : Ramfs) (op : RamfsOp) : Prop := ramfsLegal s op ∧ op.Adds

theorem allowsWalks_addsLegal : AllowsWalks addsLegal :=
  .of_ops (fun _ _ => ⟨trivial, trivial⟩) (fun _ _ => ⟨trivial, trivial⟩)
    (fun _ _ => ⟨trivial, trivial⟩)
    fun _ _ _ => ⟨trivial, trivial⟩

theorem NamesInv.adds (h : NamesInv s) (hrun : Lts.Run addsLegal ramfsStep s t) : NamesInv t := by
  refine hrun.invariant (I := NamesInv) h fun s op t hs hl ht => ?_
  refine hs.step hl.1 ?_ ht
  obtain ⟨-, hadds⟩ := hl
  cases op with
  | create d name room => exact False.elim
  | mknod d name mode devid room => exact False.elim
  | link old d name => exact False.elim
  | mkdir d name room => exact False.elim
  | unlink d name => cases hadds
  | _ => exact trivial

theorem Durable.run (h : Durable s x) (hrun : Lts.Run addsLegal ramfsStep s t) : Durable t x :=
  hrun.invariant (I := fun s => Durable s x) h fun _ _ _ hs hl ht => hs.adds hl.2 ht

/-- A vnode that is in memory before a call keeps its references, and an inode that stays without a
vnode stays: the directory of an entry is in the table after the call. -/
theorem present_of_made (h : NamesInv s) (hwalk : WalkRun s u)
    (hu : u.inCore d = true) (hdoes : Does addsLegal s t δ) (hδ : 0 ≤ δ d) :
    t.linkcount d ≠ none := by
  obtain ⟨debt, hb⟩ := h.books
  obtain ⟨debt', hb'⟩ := (h.adds hdoes.run).books
  obtain ⟨debtu, hbu⟩ := (h.adds (hwalk.mono fun s op hop => allowsWalks_addsLegal s op hop)).books
  obtain ⟨hs, -⟩ := (shrinks_of_walks hwalk).kept d (hbu.inCore d hu)
  obtain ⟨n, hn⟩ := ne_none_iff_exists'.mp hs
  by_cases hdur : Durable s d
  · exact (hdur.run hdoes.run).present
  · have hpos := hb.pos d n hn
    have hle : n ≤ core s d := Int.not_lt.mp fun hlt => hdur ⟨n, hn, hlt⟩
    have hcore : s.inCore d = true := by
      by_contra hout
      rw [core, if_neg hout] at hle
      omega
    obtain ⟨vn, hvn⟩ := isSome_iff_exists.mp hcore
    obtain ⟨-, hle', hkept⟩ := h.held d vn hvn
    have hrefs := hdoes.refs d
    rw [refs_of_vnode hvn] at hrefs
    have hne : vn.vnRefcount ≠ vn.vnNrespages := fun heq => hdur (hkept heq)
    refine hb'.inCore d ?_
    by_contra hout
    have hnone : t.vnode d = none := by simpa [inCore] using hout
    rw [refs, hnone] at hrefs
    dsimp only at hrefs
    omega

theorem vget_returns (h : Held s) (hx : s.linkcount x ≠ none) : ∃ t, vget s x = .ok t := by
  obtain ⟨n, hn⟩ := ne_none_iff_exists'.mp hx
  obtain ⟨inode, hi, -⟩ := map_eq_some_iff.mp hn
  cases hvn : s.vnode x with
  | none =>
    rw [vget]
    simp only [hvn, hi]
    exact ⟨_, rfl⟩
  | some vn =>
    have hpos := (h x vn hvn).pos
    rw [vget]
    simp only [hvn, vref, getVnode, ok_bind, kassert_of (decide_eq_true hpos), pure_eq_ok]
    exact ⟨_, rfl⟩

/-- The directory is read in again and the name looked up: the inode that was entered is found
exactly if the name was stored in full. -/
theorem lookup_entered (h : NamesInv t) (hf : name.Final) (hent : t.entered = some (d, name, ino))
    (hd : t.linkcount d ≠ none) :
    (∃ u v, vget t d = .ok u ∧ lookup u d name = .ok (.ok ino, v)) ↔ name.Fits := by
  obtain ⟨hino, hdir⟩ := h.entered d name ino hent
  obtain ⟨es, hes, hfind⟩ := hdir hd
  constructor
  · rintro ⟨u, v, hu, hl⟩
    by_contra hfits
    rw [if_neg hfits] at hfind
    obtain ⟨_, -, hl⟩ := bind_eq_ok hl
    split at hl
    · split at hl
      · cases hl
      · obtain ⟨es', e, hfound, -⟩ := ramfsLookup_ok_found hl
        obtain rfl : es = es' :=
          some_inj.mp (hes.symm.trans ((congrFun (vget_dirOf hu) d).symm.trans hfound.dir))
        rw [hfound.first] at hfind
        cases hfind
    · cases hl
  · intro hfits
    rw [if_pos hfits] at hfind
    obtain ⟨u, hu⟩ := vget_returns h.held hd
    obtain ⟨hheld, vn, hvn, -⟩ := h.held.vget hu
    have hesu : u.dirOf d = some es := (congrFun (vget_dirOf hu) d).trans hes
    obtain ⟨v, hv⟩ := vget_returns hheld (hino.vget hu).present
    have hlen : ¬ strMax < name.len := by
      have hne : name.str ≠ [] := List.length_pos_iff.mp hfits.1
      rw [Name.Final, if_neg hne] at hf
      have := hfits.2
      simp only [strMax, nameLen] at *
      omega
    refine ⟨u, v, hu, ?_⟩
    simp only [lookup, sIsdir, getVnode, hvn, ok_bind, pure_eq_ok, hesu, isSome_some,
      if_true, if_neg hlen, ramfsLookup, vnodeToDirent, hfind, hv]

end

/-! ## 2. The calls -/

variable {s t : VfsSys} {call : VfsCall} {path : Path} {r : Int}

/-- The path of the entry that a call may make. -/
def VfsCall.makes : VfsCall → Option Path
  | .open _ path oflags _ => if oflags &&& oCreat ≠ 0 then some path else none
  | .mknod _ path _ _ _ | .mkdir _ path _ => some path
  | .link _ _ target => some target
  | _ => none

/-- The same, and the second path of `do_rename`, which calls `do_link`. -/
def VfsCall.enters : VfsCall → Option Path
  | .rename _ _ newname => some newname
  | call => call.makes

/-- The path that a call unlinks. -/
def VfsCall.unlinks : VfsCall → Option Path
  | .unlink _ path => some path
  | .rename _ oldname _ => some oldname.after
  | _ => none

/-- How the calls must be used: entries are made for names of 1 to 27 characters, and '..' is not
unlinked. -/
def NamesCall (call : VfsCall) : Prop :=
  (∀ path ∈ call.enters, path.name.Fits) ∧ ∀ path ∈ call.unlinks, path.name.str ≠ ['.', '.']
deriving Decidable

/-- The operations of such calls. -/
def namesLegal (s : Ramfs) (op : RamfsOp) : Prop := ramfsLegal s op ∧ LinkSafe False s op ∧ op.Fits

theorem allowsWalks_namesLegal : AllowsWalks namesLegal :=
  .of_ops (fun _ _ => ⟨trivial, trivial, trivial⟩) (fun _ _ => ⟨trivial, trivial, trivial⟩)
    (fun _ _ => ⟨trivial, trivial, trivial⟩)
    fun _ _ _ => ⟨trivial, trivial, trivial⟩

theorem NamesCall.callOk (h : NamesCall call) : CallOk namesLegal s call := by
  obtain ⟨hfits, hdots⟩ := h
  cases call with
  | «open» p path oflags env =>
    intro hcreat _ _ _
    exact ⟨name_final path, False.elim, hfits path (if_pos hcreat)⟩
  | mknod p path mode devid room => exact fun _ _ _ => ⟨name_final path, False.elim, hfits path rfl⟩
  | mkdir p path room => exact fun _ _ _ _ _ => ⟨name_final path, False.elim, hfits path rfl⟩
  | rmdir p path null => exact fun _ _ _ _ _ => ⟨name_final path, trivial, trivial⟩
  | unlink p path => exact fun _ _ => ⟨name_final path, hdots path rfl, trivial⟩
  | link p source target => exact fun _ _ _ _ _ _ _ _ =>
    ⟨name_final target, False.elim, hfits target rfl⟩
  | rename p oldname newname =>
    exact ⟨fun _ _ _ _ _ _ _ _ => ⟨name_final newname, False.elim, hfits newname rfl⟩,
      fun _ _ => ⟨name_final _, hdots _ rfl, trivial⟩⟩
  | _ => exact trivial

/-- What holds between the calls. -/
structure NamesOk (s : Ramfs) : Prop where
  inv : NamesInv s
  once : NamesOnce s

namespace NamesOk

theorem run {s t : Ramfs} (h : NamesOk s) (hrun : Lts.Run namesLegal ramfsStep s t) : NamesOk t :=
  hrun.invariant (I := NamesOk) h fun _ _ _ hs hl ht =>
    ⟨hs.inv.step hl.1 hl.2.1 ht, hs.once.step hl.1 hl.2.2 ht⟩

/-- A call begins with no entry made. -/
theorem found (h : NamesOk s.ram) : NamesOk s.found := by
  obtain ⟨debt, hb⟩ := h.inv.books
  exact ⟨⟨⟨debt, hb.unchanged rfl rfl rfl id⟩, h.inv.held.congr rfl fun _ _ _ _ hd => hd,
    .nothing rfl⟩, h.once.congr rfl⟩

theorem setVnode {s : Ramfs} {x : Nat} {vn vn' : Vnode} (h : NamesOk s) (hvn : s.vnode x = some vn)
    (hok : VnodeOk s x vn') : NamesOk (s.setVnode x (some vn')) := by
  have hre : Recounted s (s.setVnode x (some vn')) := .setVnode hvn
  have hdur : ∀ y, Durable s y → Durable (s.setVnode x (some vn')) y := fun y hy => hy.recounted hre
  obtain ⟨debt, hb⟩ := h.inv.books
  refine ⟨⟨⟨debt, hb.recounted hre⟩, h.inv.held.update rfl (fun y _ => hdur y) ?_,
    h.inv.entered.shrinks (.recounted hre) hdur⟩, h.once.congr rfl⟩
  rintro _ ⟨⟩
  exact ⟨hok.pos, hok.le, fun heq => hdur x (hok.kept heq)⟩

theorem step (h : NamesOk s.ram) (hl : vfsLegal s call) (hc : NamesCall call)
    (hs : vfsStep s call = .ok t) : NamesOk t.ram := by
  obtain ⟨⟨r, t⟩, hcall, rfl⟩ := map_eq_ok hs
  have hone : ∀ (op : RamfsOp) {u v : Ramfs}, NamesOk u → op.Walks →
    ramfsStep u op = .ok v → NamesOk v :=
    fun op u v hu hw hs => hu.run (.tail .refl (allowsWalks_namesLegal u op hw) hs)
  cases call with
  | cachePage x =>
    obtain ⟨ram, hram, hcall⟩ := bind_eq_ok hcall
    obtain ⟨vn, hvn, hcall⟩ := bind_eq_ok hcall
    cases hcall
    have hvn := getVnode_eq_ok hvn
    have hram' := hone (.vref x) h.found trivial hram
    -- the page's reference is the one that was just taken
    obtain ⟨old, hold, href⟩ := bind_eq_ok hram
    obtain ⟨_, -, href⟩ := bind_eq_ok href
    cases href
    obtain ⟨hpos, hle, hkept⟩ := h.found.inv.held x old (getVnode_eq_ok hold)
    have hself : (s.found.setVnode x (some { old with vnRefcount := old.vnRefcount + 1 })).vnode x =
      some { old with vnRefcount := old.vnRefcount + 1 } := update_self ..
    obtain rfl := some.inj (hself.symm.trans hvn)
    refine hram'.setVnode hvn ⟨?_, ?_, fun heq => ?_⟩
    · exact Int.lt_add_one_of_le (Int.le_of_lt hpos)
    · exact Int.add_le_add_right hle 1
    · exact (hkept (by dsimp only at heq; omega)).recounted (.setVnode (getVnode_eq_ok hold))
  | freePage x =>
    obtain ⟨vn, hvn, hcall⟩ := bind_eq_ok hcall
    obtain ⟨ram, hram, hcall⟩ := bind_eq_ok hcall
    cases hcall
    have hvn := getVnode_eq_ok hvn
    obtain ⟨hpos, hle, -⟩ := h.found.inv.held x vn hvn
    have hless : NamesOk
        (s.found.setVnode x (some { vn with vnNrespages := vn.vnNrespages - 1 })) := by
      refine h.found.setVnode hvn ⟨hpos, ?_, fun heq => ?_⟩
      · dsimp only
        omega
      · dsimp only at heq
        omega
    exact hone (.vput x) hless trivial hram
  | _ => exact h.found.run (vfsCall_ram allowsWalks_namesLegal hc.callOk id hcall)

theorem boot : NamesOk vfsBoot.ram := by
  refine ⟨⟨⟨0, Books.mount⟩, fun x vn hvn => ?_, .nothing rfl⟩, .mount⟩
  have hvn : (if x = rootIno then some (Vnode.mk (2 * sizeofRamfsDirent) 1 0) else none) =
    some vn := hvn
  split at hvn
  · cases hvn
    exact ⟨Int.one_pos, Int.le_of_lt Int.one_pos, fun heq => absurd heq Int.one_ne_zero⟩
  · cases hvn

end NamesOk

/-- What a call that may make an entry at a path leaves behind. -/
structure Leaves (name : Name) (t : Ramfs) : Prop where
  inv : NamesInv t
  made : ∀ d name' ino, t.entered = some (d, name', ino) → name' = name ∧ t.linkcount d ≠ none

theorem Does.leaves {s t : Ramfs} {name : Name} {δ : Nat → Int} (h : NamesInv s)
    (hs : s.entered = none)
    (hdoes : Does addsLegal s t δ) (hδ : ∀ x, 0 ≤ δ x)
    (hmade : t.entered = s.entered ∨ Made s name t) :
    Leaves name t := by
  refine ⟨h.adds hdoes.run, fun d name' ino hent => ?_⟩
  obtain hsame | ⟨u, d', ino', hwalk, hcore, hent'⟩ := hmade
  · rw [hsame, hs] at hent
    cases hent
  · rw [hent'] at hent
    cases hent
    exact ⟨rfl, present_of_made h hwalk hcore hdoes (hδ _)⟩

/-- **A call that makes an entry.**  It makes one for the last component of its path, in a directory
that is still there when the call returns; `do_mknod`, `do_mkdir` and `do_link` make it when they
return 0. -/
theorem leaves_of_call (h : NamesInv s.found) (hmakes : call.makes = some path)
    (hcall : vfsCall s call = .ok (r, t)) :
    Leaves path.name t.ram ∧ ((∀ p path oflags env, call ≠ .open p path oflags env) → r = 0 →
      ∃ d ino, t.ram.entered = some (d, path.name, ino)) := by
  have hok := allowsWalks_addsLegal
  have hzero : ∀ x : Nat, 0 ≤ (0 : Nat → Int) x := fun _ => Int.le_refl 0
  have hmakesOne : ∀ {u : Ramfs}, Does addsLegal s.found u 0 → MakesOne s.found path.name r u →
      Leaves path.name u ∧ ((∀ p path oflags env, call ≠ .open p path oflags env) → r = 0 →
        ∃ d ino, u.entered = some (d, path.name, ino)) := by
    intro u hdoes hmade
    refine ⟨hdoes.leaves h rfl hzero (hmade.imp And.right And.right), fun _ hr => ?_⟩
    obtain ⟨hne, -⟩ | ⟨-, _, d, ino, -, -, hent⟩ := hmade
    · exact absurd hr hne
    · exact ⟨d, ino, hent⟩
  unfold vfsCall at hcall
  cases call with
  | «open» p path' oflags env =>
    obtain ⟨hcreat, rfl⟩ : oflags &&& oCreat ≠ 0 ∧ path' = path := by
      simpa [VfsCall.makes] using hmakes
    obtain ⟨cwd, -, hcall⟩ := bind_eq_ok hcall
    obtain ⟨⟨⟨r', opened⟩, ram⟩, hopen, hcall⟩ := bind_eq_ok hcall
    obtain ⟨hopens, hmade⟩ :=
      doOpen_does hok (fun _ _ _ _ _ => ⟨name_final path', trivial⟩) _ hopen
    have hleaves : Leaves path'.name ram := by
      obtain ⟨-, -, hdoes⟩ | ⟨f, x, -, -, -, hdoes⟩ := hopens
      · exact hdoes.leaves h rfl hzero hmade
      · exact hdoes.leaves h rfl (one_nonneg x) hmade
    have hram : t.ram = ram := by
      obtain _ | ⟨f, vn⟩ := opened
      · cases hcall
        rfl
      · cases hcall
        rfl
    rw [hram]
    exact ⟨hleaves, fun hno => absurd rfl (hno p path' oflags env)⟩
  | mknod p path' mode devid room =>
    cases hmakes
    obtain ⟨cwd, ram, -, hdo, rfl⟩ := onRam_eq_ok hcall
    rcases doMknod_does hok (fun _ _ _ _ => ⟨name_final path, trivial⟩) _ hdo with
      ⟨-, hr, hent, x, hopen⟩ | ⟨-, hdoes, hmade⟩
    · have hdoes := (openNamev_walked s.found cwd path false _ hopen).1.mono hok
      refine ⟨hdoes.leaves h rfl (one_nonneg x) (.inl hent), fun _ hzero => ?_⟩
      exact absurd (hzero.symm.trans hr) (by decide)
    · exact hmakesOne hdoes hmade
  | mkdir p path' room =>
    cases hmakes
    obtain ⟨cwd, ram, -, hdo, rfl⟩ := onRam_eq_ok hcall
    obtain ⟨hdoes, hmade⟩ := doMkdir_does hok (fun _ _ _ => ⟨name_final path, trivial⟩) _ hdo
    exact hmakesOne hdoes hmade
  | link p source target =>
    cases hmakes
    obtain ⟨cwd, ram, -, hdo, rfl⟩ := onRam_eq_ok hcall
    obtain ⟨hdoes, hmade⟩ := doLink_does hok (fun _ _ _ _ _ _ => ⟨name_final path, trivial⟩) _ hdo
    exact hmakesOne hdoes hmade
  | _ => cases hmakes

/-- **Names are honoured.**  After any calls that make entries for names of 1 to 27 characters only
and unlink no '..': no directory has two live entries with one name.  When such a state is followed
by `do_open` with `O_CREAT`, `do_mknod`, `do_mkdir` or `do_link`, with any name, and the call makes
an entry, a following lookup of the name in the directory returns the inode that was entered exactly
if the name has 1 to 27 characters. -/
theorem names_honoured (s : VfsSys)
    (hrun : Lts.Run (fun s call => vfsLegal s call ∧ NamesCall call) vfsStep vfsBoot s) :
    (∀ d es fname, s.ram.dirOf d = some es → fname ≠ [] →
      es.countP (fun e => e.rdName = fname) ≤ 1) ∧
    ∀ call path r t, call.makes = some path → vfsCall s call = .ok (r, t) →
      ((∀ p path oflags env, call ≠ .open p path oflags env) → r = 0 →
        ∃ d ino, t.ram.entered = some (d, path.name, ino)) ∧
      ∀ d name ino, t.ram.entered = some (d, name, ino) → name = path.name ∧
        ((∃ u v, vget t.ram d = .ok u ∧ lookup u d name = .ok (.ok ino, v)) ↔ name.Fits) := by
  have h : NamesOk s.ram := hrun.invariant (I := fun s => NamesOk s.ram) NamesOk.boot
    fun s call t hs hl ht => hs.step hl.1 hl.2 ht
  refine ⟨fun d es fname hes hne => h.once d es hes fname hne, fun call path r t hmakes hcall => ?_⟩
  obtain ⟨hleaves, hzero⟩ := leaves_of_call h.found.inv hmakes hcall
  refine ⟨hzero, fun d name ino hent => ?_⟩
  obtain ⟨rfl, hd⟩ := hleaves.made d name ino hent
  exact ⟨rfl, lookup_entered hleaves.inv (name_final path) hent hd⟩

/-- A directory is made, and a file in it; the file is found. -/
theorem names_honoured_found :
    ∃ s r t u v, Lts.Run (fun s call => vfsLegal s call ∧ NamesCall call) vfsStep vfsBoot s ∧
      vfsCall s (.mknod 1 ⟨['a', '/', 'f'], []⟩ 0x100 0 true) = .ok (r, t) ∧
      vget t.ram 1 = .ok u ∧ lookup u 1 ⟨['f'], 1⟩ = .ok (.ok 2, v) := by
  obtain ⟨s, hrun, htest⟩ :
    ∃ s, Lts.Run (fun s call => vfsLegal s call ∧ NamesCall call) vfsStep vfsBoot s ∧
      (vfsCall s (.mknod 1 ⟨['a', '/', 'f'], []⟩ 0x100 0 true)).toOption.any fun r =>
        r.2.ram.entered = some (1, ⟨['f'], 1⟩, 2) :=
    Lts.exists_run [.start 1, .mkdir 1 ⟨['a'], []⟩ true] (by decide +kernel)
  obtain ⟨⟨r, t⟩, hcall, hent⟩ := ok_of_any htest
  obtain ⟨-, hlookup⟩ := (names_honoured s hrun).2 _ _ r t rfl hcall
  obtain ⟨u, v, hu, hv⟩ := (hlookup _ _ _ (of_decide_eq_true hent)).2.mpr (by decide)
  exact ⟨s, r, t, u, v, hrun, hcall, hu, hv⟩

def longName : List Char := List.replicate 28 'a'

/-- `do_mkdir` with it succeeds; a following lookup fails; and it succeeds again, which leaves two
live entries with the same name. -/
theorem name_cut_short : ∃ s t, Lts.Run vfsLegal vfsStep vfsBoot s ∧
    s.ram.entered = some (rootIno, ⟨longName, 28⟩, 1) ∧
      (∃ u v, vget s.ram rootIno = .ok u ∧
        lookup u rootIno ⟨longName, 28⟩ = .ok (.error (-enoent), v)) ∧
      vfsCall s (.mkdir 1 ⟨longName, []⟩ true) = .ok (0, t) ∧
      ∃ es, t.ram.dirOf rootIno = some es ∧
        es.countP (fun e => e.rdName = List.replicate 27 'a') = 2 := by
  obtain ⟨s, hrun, hent, hlook, hmkdir⟩ : ∃ s, Lts.Run vfsLegal vfsStep vfsBoot s ∧
      s.ram.entered = some (rootIno, ⟨longName, 28⟩, 1) ∧
      ((vget s.ram rootIno).toOption.any fun u =>
        (lookup u rootIno ⟨longName, 28⟩).toOption.any fun r =>
        r.1 = .error (-enoent)) ∧
      (vfsCall s (.mkdir 1 ⟨longName, []⟩ true)).toOption.any fun r => r.1 = 0 ∧
        ∃ es ∈ r.2.ram.dirOf rootIno, es.countP (fun e => e.rdName = List.replicate 27 'a') = 2 :=
    Lts.exists_run [.start 1, .mkdir 1 ⟨longName, []⟩ true] (by decide +kernel)
  obtain ⟨u, hu, hlook⟩ := ok_of_any hlook
  obtain ⟨⟨a, v⟩, hv, ha⟩ := ok_of_any hlook
  obtain rfl : a = .error (-enoent) := of_decide_eq_true ha
  obtain ⟨⟨r, t⟩, ht, htest⟩ := ok_of_any hmkdir
  obtain ⟨rfl, es, hes, hcount⟩ : r = 0 ∧ _ := of_decide_eq_true htest
  exact ⟨s, t, hrun, hent, ⟨u, v, hu, hv⟩, ht, es, hes, hcount⟩

end Weenix.Vfs
