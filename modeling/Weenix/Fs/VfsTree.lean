/-
# The calls and the tree of directories

The calls on paths keep the tree of `RamfsTree.lean` as long as `do_link` and `do_rename` are not
given directories, `do_mkdir` no directory that was removed, and `do_rmdir` no directory that is
still the '..' of one that was removed.
-/
import Weenix.Fs.RamfsTree

namespace Weenix.Vfs

open Option

variable {s t : VfsSys} {call : VfsCall}

/-- Where a path led to, and the file system after it was followed. -/
def reached : Except Halt (Except Int Nat × Ramfs) → Option (Nat × Ramfs)
  | .ok (.ok x, ram) => some (x, ram)
  | _ => none

/-- How the calls must be used. -/
def TreeCall (s : VfsSys) : VfsCall → Prop
  | .mkdir p path room => ∀ cwd ∈ s.pCwd p, ∀ at_ ∈ reached (dirNamev s.found cwd path),
    TreeSafe at_.2 (.mkdir at_.1 path.name room)
  | .rmdir p path _ => ∀ cwd ∈ s.pCwd p, ∀ at_ ∈ reached (dirNamev s.found cwd path),
    TreeSafe at_.2 (.rmdir at_.1 path.name)
  | .link p source _ | .rename p source _ => ∀ cwd ∈ s.pCwd p,
    ∀ at_ ∈ reached (openNamev s.found cwd source 0 false), at_.2.dirOf at_.1 = none
  | _ => True

instance (s : Ramfs) : ∀ op, Decidable (TreeSafe s op)
  | .mkdir d _ _ => inferInstanceAs (Decidable (Linked s d))
  | .link old _ _ => inferInstanceAs (Decidable (s.dirOf old = none))
  | .rmdir d name => inferInstanceAs (Decidable (∀ y ∈ s.entryIno d name.str, ∀ es ∈ s.dirOf y,
      es.any Dirent.named = false → ∀ x < ramfsMaxFiles, dotdot s x ≠ some y))
  | .vref _ | .vget _ | .vput _ | .lookup .. | .create .. | .mknod .. | .unlink .. | .read ..
    | .write .. =>
    inferInstanceAs (Decidable True)

instance (s : VfsSys) : ∀ call, Decidable (TreeCall s call)
  | .mkdir p path room => inferInstanceAs (Decidable (∀ cwd ∈ s.pCwd p,
      ∀ at_ ∈ reached (dirNamev s.found cwd path), TreeSafe at_.2 (.mkdir at_.1 path.name room)))
  | .rmdir p path _ => inferInstanceAs (Decidable (∀ cwd ∈ s.pCwd p,
      ∀ at_ ∈ reached (dirNamev s.found cwd path), TreeSafe at_.2 (.rmdir at_.1 path.name)))
  | .link p source _ | .rename p source _ => inferInstanceAs (Decidable (∀ cwd ∈ s.pCwd p,
      ∀ at_ ∈ reached (openNamev s.found cwd source 0 false), at_.2.dirOf at_.1 = none))
  | .start _ | .fork .. | .exit _ | .open .. | .close _ | .mknod .. | .unlink ..
    | .chdir .. | .stat ..
  | .cachePage _ | .freePage _ => inferInstanceAs (Decidable True)

/-- What the operations of the calls satisfy. -/
def treeLegal (s : Ramfs) (op : RamfsOp) : Prop := ramfsLegal s op ∧ TreeSafe s op

theorem allowsWalks_treeLegal : AllowsWalks treeLegal :=
  .of_ops (fun _ _ => ⟨trivial, trivial⟩) (fun _ _ => ⟨trivial, trivial⟩)
    (fun _ _ => ⟨trivial, trivial⟩)
    fun _ _ _ => ⟨trivial, trivial⟩

/-- The operations of such a call are used as the tree needs. -/
theorem TreeCall.callOk (h : TreeCall s call) : CallOk treeLegal s call := by
  -- a file stays one while the second path is followed
  have hlink : ∀ {p : Nat} {source target : Path}, TreeCall s (.link p source target) →
      ∀ cwd ∈ s.pCwd p, ∀ old u t d, openNamev s.found cwd source 0 false = .ok (.ok old, u) →
      WalkRun u t → treeLegal t (.link old d target.name) := by
    intro p source target h cwd hcwd old u t d hopen hwalk
    have hold := h cwd hcwd (old, u) (by rw [hopen]; rfl)
    exact ⟨name_final target, (shrinks_of_walks hwalk).dirOf_eq_none hold⟩
  cases call with
  | «open» p path oflags env => exact fun _ _ _ _ => ⟨name_final path, trivial⟩
  | mknod p path mode devid room => exact fun _ _ _ => ⟨name_final path, trivial⟩
  | mkdir p path room =>
    exact fun cwd hcwd t d hd => ⟨name_final path, h cwd hcwd (d, t) (by rw [hd]; rfl)⟩
  | rmdir p path null =>
    exact fun cwd hcwd t d hd => ⟨name_final path, h cwd hcwd (d, t) (by rw [hd]; rfl)⟩
  | unlink p path => exact fun _ _ => ⟨name_final path, trivial⟩
  | link p source target => exact hlink h
  | rename p oldname newname => exact ⟨hlink h, fun _ _ => ⟨name_final _, trivial⟩⟩
  | _ => exact trivial

theorem Forest.run {s t : Ramfs} {debt : Nat → Int} (h : Forest s debt)
    (hrun : Lts.Run treeLegal ramfsStep s t) : ∃ debt', Forest t debt' :=
  hrun.invariant (I := fun s => ∃ debt, Forest s debt) ⟨debt, h⟩ fun _ _ _ ⟨_, hs⟩ hl ht =>
    hs.step hl.1 hl.2 ht

theorem forest_step (h : ∃ debt, Forest s.ram debt) (hc : TreeCall s call)
    (hs : vfsStep s call = .ok t) :
    ∃ debt, Forest t.ram debt := by
  obtain ⟨⟨r, t⟩, hcall, rfl⟩ := map_eq_ok hs
  obtain ⟨debt, h⟩ := h
  have hfound : Forest s.found debt := ⟨h.books.unchanged rfl rfl rfl id, h.tree.congr rfl⟩
  obtain ⟨u, v, hu, hrun, hv⟩ := vfsCall_run allowsWalks_treeLegal hc.callOk hcall
  obtain ⟨debt', hforest⟩ := (hfound.recounted hu).run hrun
  exact ⟨debt', hforest.recounted hv⟩

/-- **The directories form a tree.**  After any calls that give no directory a second name, make
no directory in one that was removed and remove none that is the '..' of another: a directory that
is linked, other than the root, is named by one entry; its '..' names the directory that has the
entry; no directory is its own ancestor; and the '.' and '..' of a directory in memory name inodes
in the table. -/
theorem directories_form_tree (s : VfsSys)
    (hrun : Lts.Run (fun s call => vfsLegal s call ∧ TreeCall s call) vfsStep vfsBoot s) :
    (∀ x, s.ram.dirOf x ≠ none → x ≠ rootIno → 0 < links s.ram x → links s.ram x = 1) ∧
    (∀ d x, Parent s.ram d x → s.ram.entryIno x ['.', '.'] = some d) ∧
    (∀ x, ¬ Relation.TransGen (Parent s.ram) x x) ∧
    (∀ x, s.ram.inCore x = true → s.ram.dirOf x ≠ none →
      ∃ self up, s.ram.entryIno x ['.'] = some self ∧ s.ram.entryIno x ['.', '.'] = some up ∧
        s.ram.rfsInodes self ≠ none ∧ s.ram.rfsInodes up ≠ none) := by
  obtain ⟨debt, hbooks, htree⟩ : ∃ debt, Forest s.ram debt :=
    hrun.invariant (I := fun s => ∃ debt, Forest s.ram debt) ⟨0,
      Forest.mount⟩ fun s call t hs hl ht =>
      forest_step hs hl.2 ht
  have hpresent : ∀ {x}, s.ram.dirOf x ≠ none → s.ram.rfsInodes x ≠ none := fun hx hnone =>
    hx (dirOf_of_linkcount_none (linkcount_eq_none.mpr hnone))
  refine ⟨fun x hx _ hpos => ?_, htree.back, htree.ranked.acyclic, fun x _ hx => ?_⟩
  · have := htree.single x hx
    omega
  · obtain ⟨up, hup, hdir, -⟩ := htree.up x hx
    refine ⟨x, up, ?_, hup, hpresent hx, hpresent hdir⟩
    obtain ⟨es, hes⟩ := ne_none_iff_exists'.mp hx
    obtain ⟨_, _, rfl⟩ := hbooks.dots x es hes
    rw [Ramfs.entryIno, hes]
    rfl

/-- Two directories, one in the other; the inner one is in use and removed. -/
theorem directories_form_tree_in_use : ∃ s,
    Lts.Run (fun s call => vfsLegal s call ∧ TreeCall s call) vfsStep vfsBoot s ∧
      s.ram.inCore 2 = true ∧ links s.ram 2 = 0 ∧ links s.ram 1 = 1 ∧
      ∃ self up, s.ram.entryIno 2 ['.'] = some self ∧ s.ram.entryIno 2 ['.', '.'] = some up ∧
        s.ram.rfsInodes self ≠ none ∧ s.ram.rfsInodes up ≠ none := by
  obtain ⟨s, hrun, hcore, hdir, hzero, hdir1, hpos⟩ :
    ∃ s, Lts.Run (fun s call => vfsLegal s call ∧ TreeCall s call)
      vfsStep vfsBoot s ∧
      s.ram.inCore 2 = true ∧ s.ram.dirOf 2 ≠ none ∧ links s.ram 2 = 0 ∧ s.ram.dirOf 1 ≠ none ∧
        0 < links s.ram 1 :=
    Lts.exists_run [.start 1, .mkdir 1 ⟨['a'], []⟩ true, .mkdir 1 ⟨['a', '/', 'b'], []⟩ true,
        .chdir 1 ⟨['a', '/', 'b'], []⟩,
          .rmdir 1 ⟨['/', 'a', '/', 'b'], []⟩ false] (by decide +kernel)
  have h := directories_form_tree s hrun
  exact ⟨s, hrun, hcore, hzero, h.1 1 hdir1 (by decide) hpos, h.2.2.2 2 hcore hdir⟩

/-- An entry for a directory. -/
theorem parent_of_entryIno {s : Ramfs} {d x : Nat} {fname : List Char}
    (h : s.entryIno d fname = some x)
    (hname : fname ≠ [] ∧ fname ≠ ['.'] ∧ fname ≠ ['.', '.']) (hx : s.dirOf x ≠ none) :
    Parent s d x := by
  obtain ⟨es, hes, hfind⟩ := bind_eq_some_iff.mp h
  obtain ⟨e, he, rfl⟩ := map_eq_some_iff.mp hfind
  obtain rfl : e.rdName = fname := by simpa using List.find?_some he
  exact ⟨hx, es, e, hes, List.mem_of_find?_eq_some he, names_iff.mpr ⟨named_iff.mpr hname, rfl⟩⟩

/-- `do_link` gives a directory a second name, and makes the root an entry of a directory in it;
`do_rmdir` removes the parent of a directory that was removed while in use, and so does leaving a
removed directory in which one was made. -/
theorem tree_broken :
    (∃ s, Lts.Run vfsLegal vfsStep vfsBoot s ∧ s.ram.dirOf 1 ≠ none ∧ links s.ram 1 = 2) ∧
    (∃ s, Lts.Run vfsLegal vfsStep vfsBoot s ∧ Relation.TransGen (Parent s.ram) rootIno rootIno) ∧
    (∃ s, Lts.Run vfsLegal vfsStep vfsBoot s ∧ s.ram.inCore 2 = true ∧
      s.ram.entryIno 2 ['.', '.'] = some 1 ∧ s.ram.linkcount 1 = none) ∧
    (∃ s, Lts.Run vfsLegal vfsStep vfsBoot s ∧ s.ram.inCore 2 = true ∧
      s.ram.entryIno 2 ['.', '.'] = some 1 ∧ s.ram.linkcount 1 = none) := by
  refine ⟨?_, ?_, ?_, ?_⟩
  · exact Lts.exists_run [.start 1, .mkdir 1 ⟨['a'], []⟩ true, .link 1 ⟨['a'], []⟩ ⟨['b'], []⟩]
      (by decide +kernel)
  · obtain ⟨s, hrun, hdown, hdir, hup, hroot⟩ : ∃ s, Lts.Run vfsLegal vfsStep vfsBoot s ∧
        s.ram.entryIno rootIno ['a'] = some 1 ∧ s.ram.dirOf 1 ≠ none ∧
          s.ram.entryIno 1 ['r'] = some rootIno ∧ s.ram.dirOf rootIno ≠ none :=
      Lts.exists_run [.start 1, .mkdir 1 ⟨['a'], []⟩ true,
        .link 1 ⟨['/'], []⟩ ⟨['a', '/', 'r'], []⟩] (by decide +kernel)
    exact ⟨s, hrun, .tail (.single (parent_of_entryIno hdown (by decide) hdir))
      (parent_of_entryIno hup (by decide) hroot)⟩
  · exact Lts.exists_run [.start 1, .mkdir 1 ⟨['a'], []⟩ true,
        .mkdir 1 ⟨['a', '/', 'b'], []⟩ true, .chdir 1 ⟨['a', '/', 'b'], []⟩,
        .rmdir 1 ⟨['/', 'a', '/', 'b'], []⟩ false,
          .rmdir 1 ⟨['/', 'a'], []⟩ false] (by decide +kernel)
  · exact Lts.exists_run [.start 1, .mkdir 1 ⟨['a'], []⟩ true,
        .chdir 1 ⟨['a'], []⟩, .rmdir 1 ⟨['/', 'a'], []⟩ false, .mkdir 1 ⟨['b'], []⟩ true,
        .chdir 1 ⟨['b'], []⟩] (by decide +kernel)

end Weenix.Vfs
