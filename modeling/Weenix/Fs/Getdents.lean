/-
# Reading a directory while it changes (`do_getdent`, `ramfs_readdir`)

The position of an open directory is the offset of the slot at which the next search begins.
Entries do not move, so that a scan passes every slot once, whatever happens to the slots in
the meantime.
-/
import Weenix.Fs.Position
import Weenix.Fs.Ramfs
import Weenix.Lib.Run

namespace Weenix.Vfs

open List Option

open Fs (FileSys OpenAt doGetdent sIfdir wrap32 wrap32_of_nonneg landed_pos)

/-! ## 1. The call -/

/-- The first slot from `i` on that has a name. -/
def nextLive (es : List Dirent) (i : Nat) : Option Nat :=
  ((es.drop i).findIdx? fun e => e.rdName ≠ []).map (i + ·)

/-- `ramfs_readdir`, with the slot whose entry is copied to the caller. -/
def ramfsReaddir (es : List Dirent) (offset : Int) : Except Halt (Int × Option Nat) := do
  kassert (offset % sizeofRamfsDirent = 0) "0 == offset % sizeof(ramfs_dirent_t)"
  let i := (offset / sizeofRamfsDirent).toNat
  match nextLive es i with
  | none => return (0, none)
  | some j => return (sizeofRamfsDirent + (j - i) * sizeofRamfsDirent, some j)

/-- A scan of a directory with the descriptor `fd`.  `kept` are the entries that have been there
from the beginning, `given` the slots and entries that were returned, `calls` counts, and `ended`
says that a call returned 0. -/
structure Scan where
  files : FileSys
  dir : List Dirent
  kept : Nat → Option Dirent
  given : List (Nat × Dirent)
  calls : Nat
  ended : Bool

/-- Others change the directory in any way, or the next entry is asked for. -/
inductive ScanStep where
  | others (es : List Dirent)
  | getdent

def scanStep (p : Nat) (fd : Int) (f : Nat) (s : Scan) : ScanStep → Except Halt Scan
  | .others es =>
    .ok { s with dir := es, kept := fun i => if es[i]? = s.kept i then s.kept i else none }
  | .getdent => do
    let (got, slot) ← ramfsReaddir s.dir (s.files.file f).fPos
    let (files, r) ← doGetdent s.files p fd got
    let entry := slot.bind fun j => s.dir[j]?.map fun e => (j, e)
    return { s with files := files, given := s.given ++
      entry.toList, calls := s.calls + 1, ended := r = 0 }

/-- A directory keeps its 128 slots, and the scan ends with the first 0. -/
def scanLegal (s : Scan) : ScanStep → Prop
  | .others es => es.length = ramfsMaxDirent
  | .getdent => s.ended = false

instance (s : Scan) : (c : ScanStep) → Decidable (scanLegal s c)
  | .others _ | .getdent => inferInstanceAs (Decidable (_ = _))

/-! ## 2. One call -/

section
variable {es : List Dirent} {i j : Nat}

theorem nextLive_eq_some (h : nextLive es i = some j) :
    i ≤ j ∧ (∃ e, es[j]? = some e ∧ e.rdName ≠ []) ∧ ∀ k, i ≤ k → k < j → ∀ e, es[k]? = some e →
      e.rdName = [] := by
  obtain ⟨n, hn, rfl⟩ := map_eq_some_iff.mp h
  obtain ⟨hlt, hlive, hbefore⟩ := findIdx?_eq_some_iff_getElem.mp hn
  have hlt' : i + n < es.length := by
    rw [length_drop] at hlt
    omega
  refine ⟨Nat.le_add_right i n, ⟨es[i + n], getElem?_eq_getElem hlt', by simpa using hlive⟩, ?_⟩
  intro k hik hkn e he
  have hk := hbefore (k - i) (by omega)
  simp only [getElem_drop, Nat.add_sub_cancel' hik] at hk
  rw [getElem?_eq_getElem (by omega), some_inj] at he
  simpa [he] using hk

theorem nextLive_eq_none (h : nextLive es i = none) {k : Nat} (hk : i ≤ k) {e : Dirent}
    (he : es[k]? = some e) :
    e.rdName = [] := by
  have hall := findIdx?_eq_none_iff.mp (map_eq_none_iff.mp h)
  have hmem : e ∈ es.drop i := mem_iff_getElem?.mpr ⟨k - i, by
    rw [getElem?_drop, Nat.add_sub_cancel' hk, he]⟩
  simpa using hall e hmem

theorem readdir_eq {n : Nat} :
    ramfsReaddir es (n * sizeofRamfsDirent) = .ok (match nextLive es n with
    | none => (0, none) | some j => (sizeofRamfsDirent + (j - n) * sizeofRamfsDirent, some j)) := by
  have hmod : (n : Int) * sizeofRamfsDirent % sizeofRamfsDirent = 0 := Int.mul_emod_left ..
  have hdiv : (n : Int) * sizeofRamfsDirent / sizeofRamfsDirent = n :=
    Int.mul_ediv_cancel _ (by decide)
  unfold ramfsReaddir
  rw [hmod, hdiv, kassert_of (by rfl), ok_bind]
  dsimp only [Int.toNat_natCast]
  cases nextLive es n <;> rfl

theorem doGetdent_open {s : FileSys} {p f v : Nat} {fd got : Int} (h : OpenAt s p fd f v)
    (hdir : (s.vnode v).isType sIfdir = true) (hop : (s.vnode v).readdir = true)
    (hgot : 0 ≤ got ∧ got < 2 ^ 31) :
    doGetdent s p fd got = .ok (if got ≠ 0
      then (s.landed f (wrap32 ((s.file f).fPos + got)), Fs.sizeofDirent)
      else (s.landed f (s.vnode v).vnLen, 0)) := by
  have hfd := h.valid
  unfold Fs.validFd at hfd
  unfold doGetdent
  rw [if_neg (by omega), h.fget, ok_bind]
  dsimp only
  rw [Fs.vnodeOf_open h.take, ok_bind]
  simp only [show (s.take f).vnode = s.vnode from rfl, hdir, hop, Bool.not_true, Bool.false_eq_true,
    if_false, h.fput, ok_bind]
  rw [if_neg (by omega)]
  split
  · rw [Fs.doLseek_open h hgot.2 (.inr (.inr rfl)), ok_bind]
    rfl
  · next hzero =>
    rw [Fs.doLseek_end h, ok_bind, of_not_not hzero]
    rfl

end

/-! ## 3. Every scan -/

/-- The scan has passed the first `n` slots. -/
structure Passed (s : Scan) (n : Nat) : Prop where
  length : s.dir.length = ramfsMaxDirent
  kept : ∀ i e, s.kept i = some e → s.dir[i]? = some e ∧ e.rdName ≠ []
  sorted : (s.given.map Prod.fst).Pairwise (· < ·)
  below : ∀ x ∈ s.given, x.1 < n
  found : ∀ i e, i < n → s.kept i = some e → (i, e) ∈ s.given

/-- The descriptor is open on the directory, and the position is behind the slots that
were passed. -/
structure ScanInv (p : Nat) (fd : Int) (f v : Nat) (s : Scan) : Prop where
  opened : OpenAt s.files p fd f v
  isDir : (s.files.vnode v).isType sIfdir = true
  readdir : (s.files.vnode v).readdir = true
  passed : ∃ n ≤ ramfsMaxDirent, Passed s n ∧ if s.ended then n = ramfsMaxDirent ∧ s.calls ≤ n + 1
    else (s.files.file f).fPos = n * sizeofRamfsDirent ∧ s.calls ≤ n

section
variable {p f v n : Nat} {fd : Int} {s t : Scan}

theorem Passed.others (h : Passed s n) {es : List Dirent} (hes : es.length = ramfsMaxDirent) :
    Passed { s with dir := es, kept := fun i => if es[i]? = s.kept i then s.kept i
      else none } n where
  length := hes
  kept i e he := by
    dsimp only at he ⊢
    split at he
    · next heq => exact ⟨heq.trans he, (h.kept i e he).2⟩
    · cases he
  sorted := h.sorted
  below := h.below
  found i e hi he := by
    dsimp only at he
    split at he
    · exact h.found i e hi he
    · cases he

theorem Passed.give (h : Passed s n) {j : Nat} (hj : nextLive s.dir n = some j) :
    ∃ e, s.dir[j]? = some e ∧ e.rdName ≠ [] ∧ n ≤ j ∧ j < ramfsMaxDirent ∧
      Passed { s with given := s.given ++ [(j, e)] } (j + 1) := by
  obtain ⟨hnj, ⟨e, he, hlive⟩, hskip⟩ := nextLive_eq_some hj
  have hlt := (List.getElem?_eq_some_iff.mp he).1
  refine ⟨e, he, hlive, hnj, h.length ▸ hlt, h.length, h.kept, ?_, fun x hx => ?_,
    fun i e' hi he' => ?_⟩
  · rw [map_append, pairwise_append]
    refine ⟨h.sorted, pairwise_singleton .., fun a ha b hb => ?_⟩
    obtain ⟨x, hx, rfl⟩ := mem_map.mp ha
    rw [map_singleton, mem_singleton] at hb
    have := h.below x hx
    omega
  · obtain hx | hx := mem_append.mp hx
    · have := h.below x hx
      omega
    · rw [mem_singleton] at hx
      rw [hx]
      exact Nat.lt_succ_self j
  · obtain ⟨hdir, hname⟩ := h.kept i e' he'
    obtain hi | rfl | hi := Nat.lt_trichotomy i j
    · by_cases hin : i < n
      · exact mem_append_left _ (h.found i e' hin he')
      · exact absurd (hskip i (by omega) hi e' hdir) hname
    · rw [he, some_inj] at hdir
      exact mem_append_right _ (by rw [hdir]; exact mem_singleton_self _)
    · omega

theorem Passed.finish (h : Passed s n) (hn : n ≤ ramfsMaxDirent) (hj : nextLive s.dir n = none) :
    Passed s ramfsMaxDirent where
  __ := h
  below x hx := (h.below x hx).trans_le hn
  found i e _ he := by
    by_cases hin : i < n
    · exact h.found i e hin he
    · obtain ⟨hdir, hname⟩ := h.kept i e he
      exact absurd (nextLive_eq_none hj (by omega) hdir) hname

/-- A call returns; the entry that it gives is there at that moment. -/
theorem ScanInv.getdent (h : ScanInv p fd f v s) (hover : s.ended = false) :
    ∃ t, scanStep p fd f s .getdent = .ok t ∧ ScanInv p fd f v t ∧
      (t.given = s.given ∧ t.ended = true ∨ ∃ j e, t.given = s.given ++ [(j, e)] ∧ t.ended = false ∧
        s.dir[j]? = some e ∧ e.rdName ≠ []) := by
  obtain ⟨n, hn, hp, hpos⟩ := h.passed
  rw [if_neg (by simp [hover])] at hpos
  have hmax : (ramfsMaxDirent : Int) = 128 := rfl
  have hsize : sizeofRamfsDirent = 32 := rfl
  unfold scanStep
  rw [hpos.1, readdir_eq, ok_bind]
  cases hj : nextLive s.dir n with
  | none =>
    dsimp only
    rw [doGetdent_open h.opened h.isDir h.readdir (by decide), if_neg (by simp), ok_bind]
    refine ⟨_, rfl,
      ⟨h.opened.landed f h.opened.len.2, by simpa using h.isDir, by simpa using h.readdir,
      ramfsMaxDirent, le_rfl, ?_, ?_⟩, .inl ⟨append_nil _, by simp⟩⟩
    · obtain ⟨hl, hk, hs, hb, hf⟩ := hp.finish hn hj
      exact ⟨hl, hk, by simpa using hs, by simpa using hb, by simpa using hf⟩
    · rw [if_pos (by simp)]
      dsimp only
      omega
  | some j =>
    obtain ⟨e, he, hlive, hnj, hlt, hgive⟩ := hp.give hj
    have hgot : sizeofRamfsDirent + ((j : Int) - n) * sizeofRamfsDirent = (j + 1 - n) * 32 := by
      rw [hsize]
      omega
    dsimp only
    rw [hgot, doGetdent_open h.opened h.isDir h.readdir (by omega), if_pos (by omega), ok_bind]
    refine ⟨_, rfl,
      ⟨h.opened.landed f (Fs.wrap32_lt _), by simpa using h.isDir, by simpa using h.readdir, j + 1,
      hlt, ?_, ?_⟩, .inr ⟨j, e, ?_, rfl, he, hlive⟩⟩
    · obtain ⟨hl, hk, hs, hb, hf⟩ := hgive
      exact ⟨hl, hk, by simpa [he] using hs, by simpa [he] using hb, by simpa [he] using hf⟩
    · rw [if_neg (by simp [Fs.sizeofDirent])]
      dsimp only
      rw [landed_pos, hpos.1, hsize, wrap32_of_nonneg (by omega) (by omega), if_neg (by omega)]
      omega
    · simp [he]

theorem ScanInv.step (h : ScanInv p fd f v s) {c : ScanStep} (hl : scanLegal s c)
    (hs : scanStep p fd f s c = .ok t) :
    ScanInv p fd f v t := by
  cases c with
  | others es =>
    cases hs
    obtain ⟨n, hn, hp, hpos⟩ := h.passed
    exact ⟨h.opened, h.isDir, h.readdir, n, hn, hp.others hl, hpos⟩
  | getdent =>
    obtain ⟨u, hu, hinv, -⟩ := h.getdent hl
    cases hs.symm.trans hu
    exact hinv

/-- The beginning of a scan: a descriptor that was just opened. -/
def Scan.start (files : FileSys) (dir : List Dirent) : Scan :=
  ⟨files, dir, fun i => dir[i]?.filter fun e => e.rdName ≠ [], [], 0, false⟩

/-- In every scan, no slot is given twice, there are at most 129 calls, each call returns and gives
an entry that is there, and at the end every entry that was there all the time has been given. -/
theorem scan_complete {files : FileSys} {dir : List Dirent} (ho : OpenAt files p fd f v)
    (hpos : (files.file f).fPos = 0) (hdir : (files.vnode v).isType sIfdir = true)
    (hop : (files.vnode v).readdir = true) (hlen : dir.length = ramfsMaxDirent)
    (hrun : Lts.Run scanLegal (scanStep p fd f) (Scan.start files dir) s) :
    (s.given.map Prod.fst).Nodup ∧ s.calls ≤ ramfsMaxDirent + 1 ∧
      (s.ended = true → ∀ i e, s.kept i = some e → (i, e) ∈ s.given) ∧
      (s.ended = false → ∃ t, scanStep p fd f s .getdent = .ok t ∧
        (t.given = s.given ∧ t.ended = true ∨ ∃ j e, t.given = s.given ++ [(j, e)] ∧
          t.ended = false ∧
          s.dir[j]? = some e ∧ e.rdName ≠ [])) := by
  have hinv : ScanInv p fd f v s := by
    refine Lts.Run.invariant (I := ScanInv p fd f v) ⟨ho, hdir, hop, 0, Nat.zero_le _, ?_, ?_⟩
      (fun _ _ _ h hl hs => h.step hl hs) hrun
    · refine ⟨hlen, fun i e he =>
        ?_, List.Pairwise.nil, nofun, fun i e hi => absurd hi (Nat.not_lt_zero i)⟩
      obtain ⟨he, hname⟩ := filter_eq_some_iff.mp he
      exact ⟨he, of_decide_eq_true hname⟩
    · exact ⟨hpos, le_rfl⟩
  obtain ⟨n, hn, hp, hn'⟩ := hinv.passed
  refine ⟨hp.sorted.imp Nat.ne_of_lt, ?_, fun hover i e he => ?_, fun hover => ?_⟩
  · split at hn' <;> omega
  · rw [if_pos hover] at hn'
    have hlt := (List.getElem?_eq_some_iff.mp (hp.kept i e he).1).1
    exact hp.found i e (by rw [hn'.1, ← hp.length]; exact hlt) he
  · obtain ⟨t, ht, -, hgiven⟩ := hinv.getdent hover
    exact ⟨t, ht, hgiven⟩

/-- A directory with '.' and '..', just opened as descriptor 0. -/
def dottedFiles : FileSys :=
  { Fs.threeBytes 0 with vnode := fun _ => ⟨sIfdir, 64, 1, 0, false, true, true, true, true⟩ }

/-- After the first call '..' is removed and an entry is made behind it; the scan goes on
to its end. -/
theorem scan_complete_changed : ∃ s,
    Lts.Run scanLegal (scanStep 0 0 0) (Scan.start dottedFiles (dottedDir 1 0)) s ∧
      s.ended = true ∧ s.calls = 3 ∧ s.given.map Prod.fst = [0, 2] ∧
      (s.given.map Prod.fst).Nodup ∧ (0, ⟨1, ['.']⟩) ∈ s.given := by
  obtain ⟨s, hrun, hended, hcalls, hslots, hkept⟩ : ∃ s,
      Lts.Run scanLegal (scanStep 0 0 0) (Scan.start dottedFiles (dottedDir 1 0)) s ∧
        s.ended = true ∧ s.calls = 3 ∧ s.given.map Prod.fst = [0, 2] ∧
        s.kept 0 = some ⟨1, ['.']⟩ :=
    Lts.exists_run [.getdent,
      .others (⟨1, ['.']⟩ :: ⟨0, []⟩ :: ⟨3, ['a']⟩ :: replicate 125 ⟨0, []⟩),
      .getdent, .getdent] (by decide +kernel)
  have ho : OpenAt dottedFiles 0 0 0 0 :=
    ⟨by decide, rfl, rfl, (by decide : 0 ≤ Fs.fmodeRead.toInt ∧ _ < (8 : Int)),
      (by decide : (0 : Int) < 1), (by decide : (0 : Int) ≤ 0 ∧ (0 : Int) < 2 ^ 31),
      (by decide : (0 : Int) ≤ 64 ∧ (64 : Int) < 2 ^ 31)⟩
  have hdir : (dottedFiles.vnode 0).isType sIfdir = true :=
    (by decide : Fs.Vnode.isType ⟨sIfdir, 64, 1, 0, false, true, true, true, true⟩ sIfdir = true)
  have hlen : (dottedDir 1 0).length = ramfsMaxDirent := by simp [dottedDir, ramfsMaxDirent]
  obtain ⟨hnodup, -, hfound, -⟩ := scan_complete ho rfl hdir rfl hlen hrun
  exact ⟨s, hrun, hended, hcalls, hslots, hnodup, hfound hended 0 _ hkept⟩

end

end Weenix.Vfs
