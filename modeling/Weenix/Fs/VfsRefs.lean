/-
# Who holds a reference to a vnode

Between two calls the references to a vnode are those of the open files, of the working directories,
of the mounted root and of its resident pages.  Every call on a path puts what it took, on its way
to an error as well, with one exception: `do_mknod` on a path that leads to something keeps the
reference that its lookup took.
-/
import Weenix.Fs.VfsRuns

namespace Weenix.Vfs

open Refcount

variable {f x : Nat} {ram : Ramfs} {call : VfsCall}

variable {s t : VfsSys} {p x y : Nat} {r : Int} {path : Path}

/-! ## 1. The calls -/

/-- Every operation is allowed. -/
abbrev anyOp (_ : Ramfs) (_ : RamfsOp) : Prop := True

theorem allowsWalks_any : AllowsWalks anyOp := fun _ _ _ => trivial

theorem callOk_any (s : VfsSys) (call : VfsCall) : CallOk anyOp s call := by
  cases call <;> simp [CallOk]

/-- No vnode gains or loses a reference; one that is not in memory has none. -/
def Balanced (s t : VfsSys) : Prop := ∀ x, refs t.ram x = refs s.ram x

instance (s : Ramfs) (cwd : Nat) (path : Path) : Decidable (PathExists s cwd path) :=
  match h : openNamev s cwd path 0 false with
  | .ok (.ok x, u) => .isTrue ⟨x, u, h⟩
  | .ok (.error _, _) => .isFalse fun ⟨x, u, h'⟩ => by cases h.symm.trans h'
  | .error _ => .isFalse fun ⟨x, u, h'⟩ => by cases h.symm.trans h'

instance (s : VfsSys) : ∀ call, Decidable (Leaks s call)
  | .mknod .. => inferInstanceAs (Decidable (_ ∧ _))
  | .start .. | .fork .. | .exit .. | .open .. | .close .. | .mkdir .. | .rmdir ..
    | .unlink .. | .link ..
  | .rename .. | .chdir .. | .stat .. | .cachePage .. | .freePage .. =>
    inferInstanceAs (Decidable False)

theorem refs_found (s : VfsSys) (x : Nat) : refs s.found x = refs s.ram x := rfl

theorem Does.balanced {legal : Ramfs → RamfsOp → Prop} (h : Does legal s.found ram 0) :
    Balanced s { s with ram := ram } := fun x => by
  have := h.refs x
  rw [refs_found] at this
  simpa using this

/-- The reference that `open_namev` returns is one too many. -/
theorem not_balanced_of_openNamev {cwd : Nat}
    (h : openNamev s.found cwd path 0 false = .ok (.ok x, ram)) :
    ¬ Balanced s { s with ram := ram } := by
  intro hb
  have hr := (openNamev_walked s.found cwd path false _ h).1.refs x
  have hbx : refs ram x = refs s.ram x := hb x
  simp only [gain_ok, one, if_true, refs_found] at hr
  omega

/-- **A call on a path leaves the references alone, unless it is `do_mknod` on something that
exists.** -/
theorem neutral_balanced_iff (hn : call.Neutral) (h : vfsCall s call = .ok (r, t)) :
    Balanced s t ↔ ¬ Leaks s call := by
  obtain ⟨ram, rfl, ⟨hleaks, cwd, path, x, hopen⟩ | ⟨hnot, hdoes⟩⟩ :=
    neutral_does allowsWalks_any (callOk_any s call) hn h
  · exact iff_of_false (not_balanced_of_openNamev hopen) (not_not_intro hleaks)
  · exact iff_of_true hdoes.balanced hnot

/-- What `do_chdir` does: the reference moves with the working directory, or nothing changes. -/
theorem chdir_cases (h : vfsCall s (.chdir p path) = .ok (r, t)) :
    (r < 0 ∧ Balanced s t ∧ ∃ ram, t = { s with ram := ram }) ∨
      (r = 0 ∧ ∃ old new ram, s.pCwd p = some old ∧
        t = { s with ram := ram, pCwd := update s.pCwd p (some new) } ∧
        ∀ x, refs ram x = refs s.ram x + one new x - one old x) := by
  obtain ⟨cwd, hcwd, h⟩ := bind_eq_ok h
  obtain ⟨⟨⟨r', new⟩, ram⟩, hcall, h⟩ := bind_eq_ok h
  obtain ⟨hneg, hnew, hw⟩ | ⟨new', hnew, hw⟩ := doChdir_walked s.found cwd path _ hcall
  · cases hnew
    cases h
    exact .inl ⟨hneg, hw.balanced, ram, rfl⟩
  · cases hnew
    cases h
    refine .inr ⟨rfl, cwd, new', ram, cwd_eq_ok hcwd, rfl, fun x => ?_⟩
    have := hw.refs x
    simp only [Pi.sub_apply, refs_found] at this
    omega

/-- What `do_open` does: the file holds the new reference, or nothing changes. -/
theorem open_cases {oflags : BitVec 32} {env : OpenEnv}
    (h : vfsCall s (.open p path oflags env) = .ok (r, t)) :
    (r < 0 ∧ Balanced s t ∧ ∃ ram, t = { s with ram := ram }) ∨
      (0 ≤ r ∧ ∃ f vn ram, env.file = some f ∧ t = { s with
          ram := ram, files := insert f s.files, fVnode := update s.fVnode f (some vn) } ∧
        ∀ x, refs ram x = refs s.ram x + one vn x) := by
  obtain ⟨cwd, hcwd, h⟩ := bind_eq_ok h
  obtain ⟨⟨⟨r', opened⟩, ram⟩, hcall, h⟩ := bind_eq_ok h
  rcases (doOpen_does allowsWalks_any (fun _ _ _ _ _ => trivial) _ hcall).1 with
    ⟨hneg, hnone, hw⟩ | ⟨f, vn, hpos, hf, hsome, hw⟩
  · cases hnone
    cases h
    exact .inl ⟨hneg, hw.balanced, ram, rfl⟩
  · cases hsome
    cases h
    exact .inr ⟨hpos, f, vn, ram, hf, rfl, hw.refs⟩

/-! ## 2. Quiescent states -/

/-- The open files, the working directories and the mounted file system that refer to a vnode. -/
def holders (s : VfsSys) (x : Nat) : Int :=
  census s.files s.fVnode x + census s.procs s.pCwd x + one rootIno x

/-- The references are those of the holders; what is not a process or an open file holds nothing. -/
structure HoldersInv (s : VfsSys) : Prop where
  refs : ∀ x, refs s.ram x = holders s x
  noProc : ∀ p ∉ s.procs, s.pCwd p = none
  noFile : ∀ f ∉ s.files, s.fVnode f = none

section
variable {places : Finset Nat} {table : Nat → Option Nat} {i a : Nat}

theorem one_eq (a b : Nat) : one a b = ((if a = b then 1 else 0 : Nat) : Int) := by
  unfold one
  obtain rfl | h := eq_or_ne b a
  · simp
  · rw [if_neg h, if_neg h.symm]
    rfl

theorem census_insert (hi : table i = none) (a b : Nat) :
    (census (insert i places) (update table i (some a)) b : Int) =
      census places table b + one a b := by
  have hplaces : census (insert i places) table b = census places table b := by
    refine census_congr (fun j c => ?_) b
    rw [Finset.mem_insert]
    constructor
    · rintro ⟨rfl | hj, hc⟩
      · rw [hi] at hc
        cases hc
      · exact ⟨hj, hc⟩
    · exact fun h => ⟨.inr h.1, h.2⟩
  rw [census_store (Finset.mem_insert_self ..) hi, hplaces, one_eq]
  exact Int.natCast_add _ _

/-- A holder lets go. -/
theorem census_erase (hi : i ∈ places) (ha : table i = some a) (b : Nat) :
    (census (places.erase i) (update table i none) b : Int) = census places table b - one a b := by
  have hplaces : census (places.erase i)
      (update table i none) b = census places (update table i none) b := by
    refine census_congr (fun j c => ?_) b
    rw [Finset.mem_erase]
    constructor
    · exact fun h => ⟨h.1.2, h.2⟩
    · rintro ⟨hj, hc⟩
      refine ⟨⟨?_, hj⟩, hc⟩
      rintro rfl
      rw [update_self] at hc
      cases hc
  rw [hplaces, census_clear hi ha b, one_eq]
  omega

/-- A holder takes something else. -/
theorem census_update (hi : i ∈ places) (ha : table i = some a) (b c : Nat) :
    (census places (update table i (some b)) c : Int) =
      census places table c + one b c - one a c := by
  have hidem : update table i (some b) = update (update table i none) i (some b) :=
    (update_idem ..).symm
  rw [hidem, census_store hi (update_self ..), census_clear hi ha c, one_eq, one_eq]
  omega

section
variable (h : ∀ j ∉ places, table j = none)
include h

theorem none_insert (a j : Nat) (hj : j ∉ insert i places) : update table i (some a) j = none := by
  rw [Finset.mem_insert, not_or] at hj
  exact (update_of_ne hj.1 _ _).trans (h j hj.2)

theorem none_erase (j : Nat) (hj : j ∉ places.erase i) : update table i none j = none := by
  obtain rfl | hne := eq_or_ne j i
  · exact update_self ..
  · rw [update_of_ne hne]
    exact h j fun hj' => hj (Finset.mem_erase.mpr ⟨hne, hj'⟩)

end

end

namespace HoldersInv

theorem boot : HoldersInv vfsBoot := by
  refine ⟨fun x => ?_, fun _ _ => rfl, fun _ _ => rfl⟩
  have hempty : ∀ table : Nat → Option Nat, census ∅ table x = 0 := fun table => rfl
  change Vfs.refs ramfsMount x = (census ∅ _ x : Int) + census ∅ _ x + one rootIno x
  rw [hempty, hempty]
  unfold one Vfs.refs ramfsMount
  dsimp only
  split
  · rename_i h
    split at h
    · cases h
      simp_all
    · cases h
  · rename_i h
    split at h
    · cases h
    · simp_all

section
variable (h : HoldersInv s)
include h

/-- The call leaves the holders alone. -/
theorem of_balanced (hb : Balanced s { s with ram := ram }) : HoldersInv { s with ram := ram } :=
  ⟨fun x => (hb x).trans (h.refs x), h.noProc, h.noFile⟩

/-- A process begins, with a working directory. -/
theorem begin (hp : p ∉ s.procs) (hr : ∀ y, Vfs.refs ram y = Vfs.refs s.ram y + one x y) :
    HoldersInv { s with
      ram := ram, procs := insert p s.procs, pCwd := update s.pCwd p (some x) } := by
  refine ⟨fun y => ?_, none_insert h.noProc x, h.noFile⟩
  have hinv := h.refs y
  unfold holders at hinv ⊢
  dsimp only
  rw [hr y, hinv, census_insert (h.noProc p hp)]
  omega

theorem exit (hp : p ∈ s.procs) (hx : s.pCwd p = some x)
    (hr : ∀ y, Vfs.refs ram y = Vfs.refs s.ram y - one x y) :
    HoldersInv { s with
      ram := ram, procs := s.procs.erase p, pCwd := update s.pCwd p none } := by
  refine ⟨fun y => ?_, none_erase h.noProc, h.noFile⟩
  have hinv := h.refs y
  unfold holders at hinv ⊢
  dsimp only
  rw [hr y, hinv, census_erase hp hx]
  omega

theorem chdir (hp : p ∈ s.procs) {old new : Nat}
    (hold : s.pCwd p = some old)
    (hr : ∀ y, Vfs.refs ram y = Vfs.refs s.ram y + one new y - one old y) :
    HoldersInv { s with ram := ram, pCwd := update s.pCwd p (some new) } := by
  refine ⟨fun y => ?_, fun q hq => ?_, h.noFile⟩
  · have hinv := h.refs y
    unfold holders at hinv ⊢
    dsimp only
    rw [hr y, hinv, census_update hp hold]
    omega
  · dsimp only
    rw [update_of_ne (by rintro rfl; exact hq hp)]
    exact h.noProc q hq

theorem openFile (hf : f ∉ s.files) (hr : ∀ y, Vfs.refs ram y = Vfs.refs s.ram y + one x y) :
    HoldersInv { s with
      ram := ram, files := insert f s.files, fVnode := update s.fVnode f (some x) } := by
  refine ⟨fun y => ?_, h.noProc, none_insert h.noFile x⟩
  have hinv := h.refs y
  unfold holders at hinv ⊢
  dsimp only
  rw [hr y, hinv, census_insert (h.noFile f hf)]
  omega

theorem close (hf : f ∈ s.files) (hx : s.fVnode f = some x)
    (hr : ∀ y, Vfs.refs ram y = Vfs.refs s.ram y - one x y) :
    HoldersInv { s with
      ram := ram, files := s.files.erase f, fVnode := update s.fVnode f none } := by
  refine ⟨fun y => ?_, h.noProc, none_erase h.noFile⟩
  have hinv := h.refs y
  unfold holders at hinv ⊢
  dsimp only
  rw [hr y, hinv, census_erase hf hx]
  omega

/-- **One call.** -/
theorem step (hl : vfsLegal s call) (hn : ¬ Leaks s call) (hcall : vfsCall s call = .ok (r, t)) :
    HoldersInv t := by
  by_cases hneutral : call.Neutral
  · have hb := (neutral_balanced_iff hneutral hcall).mpr hn
    obtain ⟨ram, rfl, -⟩ := neutral_does allowsWalks_any (callOk_any s call) hneutral hcall
    exact h.of_balanced hb
  cases call with
  | start p =>
    obtain ⟨ram, hram, hcall⟩ := bind_eq_ok hcall
    cases hcall
    exact h.begin hl (vref_refs s.found rootIno ram hram)
  | fork p child =>
    obtain ⟨x, hx, hcall⟩ := bind_eq_ok hcall
    obtain ⟨ram, hram, hcall⟩ := bind_eq_ok hcall
    cases hcall
    exact h.begin hl.2 (vref_refs s.found x ram hram)
  | exit p =>
    obtain ⟨x, hx, hcall⟩ := bind_eq_ok hcall
    obtain ⟨ram, hram, hcall⟩ := bind_eq_ok hcall
    cases hcall
    exact h.exit hl (cwd_eq_ok hx) (vput_refs s.found x ram hram)
  | «open» p path oflags env =>
    obtain ⟨-, hb, ram, rfl⟩ | ⟨-, f, vn, ram, hf, rfl, hr⟩ := open_cases hcall
    · exact h.of_balanced hb
    · exact h.openFile (hl.2 f hf) hr
  | close f =>
    simp only [vfsCall] at hcall
    split at hcall
    · rename_i x hx
      obtain ⟨ram, hram, hcall⟩ := bind_eq_ok hcall
      cases hcall
      exact h.close hl hx (vput_refs s.found x ram hram)
    · cases hcall
  | chdir p path =>
    obtain ⟨-, hb, ram, rfl⟩ | ⟨-, old, new, ram, hold, rfl, hr⟩ := chdir_cases hcall
    · exact h.of_balanced hb
    · exact h.chdir hl hold hr
  | cachePage x =>
    obtain ⟨ram, hram, hcall⟩ := bind_eq_ok hcall
    obtain ⟨vn, hvn, hcall⟩ := bind_eq_ok hcall
    cases hcall
    refine h.of_balanced fun y => ?_
    have hvn := refs_of_vnode (getVnode_eq_ok hvn)
    have hr := vref_refs _ _ _ hram y
    change Vfs.refs (ram.setVnode x _) y = _
    rw [refs_setVnode_some (n := -1) (by dsimp only; omega), hr, refs_found]
    omega
  | freePage x =>
    obtain ⟨vn, hvn, hcall⟩ := bind_eq_ok hcall
    obtain ⟨ram, hram, hcall⟩ := bind_eq_ok hcall
    cases hcall
    refine h.of_balanced fun y => ?_
    have hvn := refs_of_vnode (getVnode_eq_ok hvn)
    have hr := vput_refs _ _ _ hram y
    rw [refs_setVnode_some (n := 1) (by dsimp only; omega), refs_found] at hr
    change Vfs.refs ram y = _
    omega
  | _ => exact absurd trivial hneutral

end

end HoldersInv

/-- **Vnode references.**  In every state, a call on a path leaves the references to every vnode as
they were exactly if it is not `do_mknod` on a path that leads to something; so does a failing
`do_open` or `do_chdir`, and a `do_chdir` that succeeds moves one reference.  After any calls of
which none is such a `do_mknod`, the references to a vnode are those of the open files, the working
directories, the mounted root and its resident pages. -/
theorem references_of_path_calls (s t : VfsSys) (r : Int) :
    (∀ call : VfsCall, call.Neutral → vfsCall s call = .ok (r, t) →
      (Balanced s t ↔ ¬ Leaks s call)) ∧
    (∀ p path oflags env, vfsCall s (.open p path oflags env) = .ok (r, t) → r < 0 → Balanced s t) ∧
    (∀ p path, vfsCall s (.chdir p path) = .ok (r, t) → (r ≠ 0 → Balanced s t) ∧
      (r = 0 → ∃ old new, s.pCwd p = some old ∧ t.pCwd p = some new ∧
        ∀ x, refs t.ram x = refs s.ram x + one new x - one old x)) ∧
    (Lts.Run (fun s call => vfsLegal s call ∧ ¬ Leaks s call) vfsStep vfsBoot s →
      ∀ x, (∀ vn, s.ram.vnode x = some vn → vn.vnRefcount = holders s x + vn.vnNrespages) ∧
        (s.ram.vnode x = none → holders s x = 0)) := by
  refine ⟨fun call hn h => neutral_balanced_iff hn h, fun p path oflags env h hr => ?_,
    fun p path h => ⟨fun hr => ?_, fun hr => ?_⟩, fun hrun x => ?_⟩
  · obtain ⟨-, hb, -⟩ | ⟨hpos, -⟩ := open_cases h
    · exact hb
    · omega
  · obtain ⟨-, hb, -⟩ | ⟨hzero, -⟩ := chdir_cases h
    · exact hb
    · exact absurd hzero hr
  · obtain ⟨hneg, -⟩ | ⟨-, old, new, ram, hold, rfl, hrefs⟩ := chdir_cases h
    · omega
    · exact ⟨old, new, hold, update_self .., hrefs⟩
  · have hinv : HoldersInv s :=
      hrun.invariant (I := HoldersInv) HoldersInv.boot fun s call t hs hl ht => by
        obtain ⟨⟨r, t'⟩, hcall, rfl⟩ := map_eq_ok ht
        exact hs.step hl.1 hl.2 hcall
    have hr := hinv.refs x
    refine ⟨fun vn hvn => ?_, fun hnone => ?_⟩
    · rw [refs_of_vnode hvn] at hr
      omega
    · rw [← hr, refs, hnone]

/-- A process makes a directory and moves into it. -/
theorem references_of_path_calls_moved :
    ∃ s t, Lts.Run (fun s call => vfsLegal s call ∧ ¬ Leaks s call) vfsStep vfsBoot s ∧
      vfsCall s (.mkdir 1 ⟨['b'], []⟩ true) = .ok (0, t) ∧ Balanced s t ∧
      ∃ vn, s.ram.vnode 1 = some vn ∧ vn.vnRefcount = holders s 1 + vn.vnNrespages := by
  obtain ⟨s, hrun, hcore, hcall⟩ :
    ∃ s, Lts.Run (fun s call => vfsLegal s call ∧ ¬ Leaks s call) vfsStep vfsBoot s ∧
      s.ram.inCore 1 ∧ (vfsCall s (.mkdir 1 ⟨['b'], []⟩ true)).toOption.any fun r => r.1 = 0 :=
    Lts.exists_run [.start 1, .mkdir 1 ⟨['a'], []⟩ true, .chdir 1 ⟨['/', 'a'], []⟩]
      (by decide +kernel)
  obtain ⟨⟨r, t⟩, hcall, hr⟩ := ok_of_any hcall
  obtain ⟨vn, hvn⟩ := Option.isSome_iff_exists.mp hcore
  obtain rfl : r = 0 := of_decide_eq_true hr
  obtain ⟨hneutral, -, -, hholders⟩ := references_of_path_calls s t 0
  have hbal := hneutral (.mkdir 1 ⟨['b'], []⟩ true) trivial hcall
  exact ⟨s, t, hrun, hcall, hbal.mpr id, vn, hvn, (hholders hrun 1).1 vn hvn⟩

/-- `do_mknod` on a directory that exists: it fails, and one more reference is held. -/
theorem mknod_keeps_reference : ∃ s t, Lts.Run vfsLegal vfsStep vfsBoot s ∧
      vfsCall s (.mknod 1 ⟨['a'], []⟩ 0x100 0 true) = .ok (-eexist, t) ∧
      refs s.ram 1 = 0 ∧ refs t.ram 1 = 1 := by
  obtain ⟨s, hrun, hzero, hcall⟩ : ∃ s, Lts.Run vfsLegal vfsStep vfsBoot s ∧ refs s.ram 1 = 0 ∧
      (vfsCall s (.mknod 1 ⟨['a'], []⟩ 0x100 0 true)).toOption.any fun r =>
        r.1 = -eexist ∧ refs r.2.ram 1 = 1 :=
    Lts.exists_run [.start 1, .mkdir 1 ⟨['a'], []⟩ true] (by decide +kernel)
  obtain ⟨⟨r, t⟩, hcall, hr⟩ := ok_of_any hcall
  obtain ⟨hr, hone⟩ := of_decide_eq_true hr
  obtain rfl : r = -eexist := hr
  exact ⟨s, t, hrun, hcall, hzero, hone⟩

end Weenix.Vfs
