/-
# References to open files

The invariant behind the counts: every `file_t` that is allocated carries as many references as
there are descriptor slots that point to it, over all processes, plus those that the call under way
holds. The list of the latter is a parameter of `FileInv`: `fget` adds to it, `fput` takes from it,
and every function that returns to its caller leaves it as it was.

The same invariant carries the history.  As long as a file is allocated its log is the lookup of its
vnode and then slots that were cleared while others remained; the entry for the last slot is
followed by the release of the vnode and the end of the file.  Since `FileInv` knows the number of
slots, the entry with 0 in it is there exactly when no slot is left.

`do_open` is the one call in which a file without a vnode exists.  Its branches are settled from the
state before the call (`FileInv.opened`, `FileInv.failed`).
-/
import Weenix.Fs.FileCalls
import Weenix.Lib.Yields

namespace Weenix.Fs

variable {x : File} {s₀ : FileSys} {fd : Int} {es : List FileEvent} {held' : List Nat}
  {k n nbytes p v : Nat}

open Refcount List FileSys

/-! ## 1. Histories -/

/-- The part of the log that is about the file with the number `k`. -/
def FileSys.events (s : FileSys) (k : Nat) : List FileEvent :=
  s.log.filter fun e => e.serial = k

/-- Slots were cleared, and others remained each time. -/
def Clears (k : Nat) (es : List FileEvent) : Prop := ∀ e ∈ es, ∃ n, 0 < n ∧ e = .cleared k n

/-- The history of a file with the vnode `v` to which `n` slots point. -/
def Live (es : List FileEvent) (k v n : Nat) : Prop :=
  ∃ pre, Clears k pre ∧ es = .found k v :: pre ++ if n = 0 then [.cleared k 0] else []

/-- The history of a file that is gone.  There was no vnode; or there was one, and the file was
opened and closed, or is a directory that was to be written; or the device of its vnode was
missing. -/
def Over (es : List FileEvent) (k : Nat) : Prop :=
  es = [.cleared k 0, .freed k] ∨
  (∃ v pre, Clears k pre ∧ es = .found k v :: pre ++ [.cleared k 0, .vput k v, .freed k]) ∨
  ∃ v, es = [.found k v, .cleared k 0, .freed k, .vput k v]

theorem Live.last (h : Live es k v 0) : Over (es ++ [.vput k v, .freed k]) k := by
  obtain ⟨pre, hpre, rfl⟩ := h
  exact .inr (.inl ⟨v, pre, hpre, by simp⟩)

theorem Live.clear (h : Live es k v (n + 1)) : Live (es ++ [.cleared k n]) k v n := by
  obtain ⟨pre, hpre, rfl⟩ := h
  cases n with
  | zero => exact ⟨pre, hpre, by simp⟩
  | succ n =>
    refine ⟨pre ++ [.cleared k (n + 1)], fun e he => ?_, by simp⟩
    obtain he | he := mem_append.mp he
    · exact hpre e he
    · exact ⟨n + 1, Nat.succ_pos n, mem_singleton.mp he⟩

theorem Live.store (h : Live es k v n) (hn : 0 < n) : Live es k v (n + 1) := by
  obtain ⟨pre, hpre, rfl⟩ := h
  exact ⟨pre, hpre, by simp [hn.ne']⟩

/-! ## 2. The invariant -/

structure FileInv (held : List Nat) (s : FileSys) : Prop where
  counted : Counted s.places s.pFiles held s.allocated fun f => (s.file f).fRefcount
  zombies : ∀ p ∈ s.dead, ∀ i < nfiles, s.pFiles (p, i) = none
  serialInj : ∀ f ∈ s.allocated, ∀ g ∈ s.allocated, s.serial f = s.serial g → f = g
  serialLt : ∀ f ∈ s.allocated, s.serial f < s.nserial
  logLt : ∀ e ∈ s.log, e.serial < s.nserial
  lives : ∀ f ∈ s.allocated, ∃ v, (s.file f).fVnode = some v ∧
    Live (s.events (s.serial f)) (s.serial f) v (s.slots f)
  overs : ∀ k < s.nserial, (∀ f ∈ s.allocated, s.serial f ≠ k) → Over (s.events k) k

/-- What the calls on an open descriptor leave alone. -/
structure Same (s s' : FileSys) : Prop where
  procs : s'.procs = s.procs
  dead : s'.dead = s.dead
  pFiles : s'.pFiles = s.pFiles

/-- What every call but fork and exit leaves alone. -/
structure Kept (s s' : FileSys) : Prop where
  procs : s'.procs = s.procs
  dead : s'.dead = s.dead

section
variable {s s' s'' : FileSys}

theorem Same.rfl : Same s s := ⟨Eq.refl _, Eq.refl _, Eq.refl _⟩

theorem Same.trans (h : Same s s') (h' : Same s' s'') : Same s s'' :=
  ⟨h'.procs.trans h.procs, h'.dead.trans h.dead, h'.pFiles.trans h.pFiles⟩

theorem Same.kept (h : Same s s') : Kept s s' := { h with }

theorem Kept.running (h : Kept s s') (hp : s.running p) : s'.running p :=
  ⟨h.procs ▸ hp.1, h.dead ▸ hp.2⟩

theorem Kept.trans (h : Kept s s') (h' : Kept s' s'') : Kept s s'' :=
  ⟨h'.procs.trans h.procs, h'.dead.trans h.dead⟩

theorem pFilesAt_of_valid (hfd : validFd fd) :
    pFilesAt s p fd = .ok (s.pFiles (p, fd.toNat)) := if_pos hfd

theorem setPFiles_of_valid (hfd : validFd fd) (x : Option Nat) :
    setPFiles s p fd x = .ok (s.setSlot (p, fd.toNat) x) := if_pos hfd

theorem mem_places (hp : p ∈ s.procs) (hfd : validFd fd) : (p, fd.toNat) ∈ s.places := by
  obtain ⟨h0, h1⟩ := hfd
  exact Finset.mem_product.mpr ⟨hp, Finset.mem_range.mpr (by omega)⟩

end

section
variable {s s' : FileSys} {held : List Nat} {f : Nat} {i : Nat × Nat}

theorem update_fRefcount_ne (g : Nat) (hne : g ≠ f) :
    (update s.file f x g).fRefcount = (s.file g).fRefcount := by
  rw [update_of_ne hne]

/-- The events of one file, after more events of another or of the same. -/
theorem events_append (hlog : s'.log = s.log ++ es) {j : Nat}
    (hes : ∀ e ∈ es, e.serial = j) (k : Nat) :
    s'.events k = s.events k ++ if k = j then es else [] := by
  unfold events
  rw [hlog, filter_append]
  congr 1
  split
  · exact filter_eq_self.mpr fun e he => by simp [hes e he, *]
  · exact filter_eq_nil_iff.mpr fun e he => by simpa [hes e he] using Ne.symm ‹_›

section
variable (h : FileInv held s)
include h

theorem FileInv.perm (hp : held'.Perm held) : FileInv held' s :=
  { h with counted := h.counted.congr_held hp }

/-- The invariant does not look at vnodes, working directories and the allocator. -/
theorem FileInv.world (vnode : Nat → Vnode) (pCwd : Nat → Option Nat) (slab : Slab) :
    FileInv held { s with vnode := vnode, pCwd := pCwd, slab := slab } :=
  { h with }

theorem FileInv.setVnode (v : Nat) (x : Vnode) : FileInv held (s.setVnode v x) := h.world _ _ _

/-- An assignment to fields of a file that keeps its vnode. -/
theorem FileInv.setFile (hv : x.fVnode = (s.file f).fVnode)
    (hc : Counted s.places s.pFiles held' s.allocated fun g => (update s.file f x g).fRefcount) :
    FileInv held' (s.setFile f x) := by
  refine { h with counted := hc, lives g hg := ?_ }
  obtain ⟨v, hgv, hlive⟩ := h.lives g hg
  refine ⟨v, ?_, hlive⟩
  obtain rfl | hne := eq_or_ne g f
  · simp [setFile, hv, hgv]
  · simp [FileSys.setFile, hne, hgv]

theorem FileInv.setFile_same (hv : x.fVnode = (s.file f).fVnode)
    (hc : x.fRefcount = (s.file f).fRefcount) :
    FileInv held (s.setFile f x) := by
  refine h.setFile hv (h.counted.congr_count fun g _ => ?_)
  obtain rfl | hne := eq_or_ne g f
  · simp [hc]
  · exact update_fRefcount_ne g hne

/-- A slot that points to a file is cleared, and the caller has the reference. -/
theorem FileInv.clear (hi : i ∈ s.places) (hf : s.pFiles i = some f) :
    FileInv (f :: held) (s.setSlot i none) := by
  have hfa : f ∈ s.allocated := h.counted.placed i hi f hf
  have hcensus := census_clear hi hf
  have hlog : (s.setSlot i none).log = s.log ++
      [.cleared (s.serial f) (census s.places (update s.pFiles i none) f)] := by
    simp [setSlot, hf]
  have hev := events_append hlog (j := s.serial f) (by simp [FileEvent.serial])
  refine ⟨h.counted.clear hi hf, fun p hp j hj => ?_, h.serialInj, h.serialLt, fun e he => ?_,
    fun g hg => ?_, fun k hk hnone => ?_⟩
  · simp only [setSlot, update_apply]
    split
    · rfl
    · exact h.zombies p hp j hj
  · rw [hlog] at he
    obtain he | he := mem_append.mp he
    · exact h.logLt e he
    · rw [mem_singleton.mp he]
      exact h.serialLt f hfa
  · obtain ⟨v, hv, hlive⟩ := h.lives g hg
    refine ⟨v, hv, ?_⟩
    change Live ((s.setSlot i none).events (s.serial g)) (s.serial g) v
      (census s.places (update s.pFiles i none) g)
    rw [hev]
    have hcg := hcensus g
    obtain rfl | hne := eq_or_ne g f
    · rw [if_pos rfl] at hcg ⊢
      rw [slots, hcg] at hlive
      exact hlive.clear
    · rw [if_neg hne.symm, Nat.add_zero] at hcg
      rw [if_neg fun he => hne (h.serialInj g hg f hfa he), append_nil, ← hcg]
      exact hlive
  · rw [hev, if_neg fun he => hnone f hfa he.symm, append_nil]
    exact h.overs k hk hnone

end

/-- A reference that the caller has is stored in an empty slot, next to others. -/
theorem FileInv.store (h : FileInv (f :: held) s) (hi : i ∈ s.places) (hnone : s.pFiles i = none)
    (hlive : i.1 ∉ s.dead) (hslots : 0 < s.slots f) : FileInv held (s.setSlot i (some f)) := by
  have hcensus := census_store hi hnone f
  have hlog : (s.setSlot i (some f)).log = s.log := by
    simp [setSlot, hnone]
  have hev : ∀ k, (s.setSlot i (some f)).events k = s.events k := fun k => by
    rw [events, hlog]
    rfl
  refine ⟨h.counted.store hi hnone, fun p hp j hj => ?_, h.serialInj, h.serialLt, fun e he => ?_,
    fun g hg => ?_, fun k hk hk' => ?_⟩
  · have hne : (p, j) ≠ i := fun he => hlive (he ▸ hp)
    simpa [setSlot, hne] using h.zombies p hp j hj
  · rw [hlog] at he
    exact h.logLt e he
  · obtain ⟨v, hv, hl⟩ := h.lives g hg
    refine ⟨v, hv, ?_⟩
    change Live ((s.setSlot i (some f)).events (s.serial g)) (s.serial g) v
      (census s.places (update s.pFiles i (some f)) g)
    rw [hev, hcensus]
    obtain rfl | hne := eq_or_ne g f
    · rw [if_pos rfl]
      exact hl.store hslots
    · rw [if_neg hne.symm, Nat.add_zero]
      exact hl
  · rw [hev]
    exact h.overs k hk hk'

/-- The last reference to a file goes, after its last slot: the vnode is released and the file
freed. -/
theorem FileInv.free (h : FileInv (f :: held) s) (hone : (s.file f).fRefcount = 1)
    (hv : (s.file f).fVnode = some v) (x : File) (vnode : Nat → Vnode) :
    FileInv held { s with
      file := update s.file f x
      allocated := s.allocated.erase f
      vnode := vnode
      log := s.log ++ [.vput (s.serial f) v, .freed (s.serial f)] } := by
  set t : FileSys := { s with
    file := update s.file f x
    allocated := s.allocated.erase f
    vnode := vnode
    log := s.log ++ [.vput (s.serial f) v, .freed (s.serial f)] } with ht
  have hfa : f ∈ s.allocated := h.counted.heldLive f (.head _)
  have hcounted : Counted t.places t.pFiles held t.allocated fun g => (t.file g).fRefcount :=
    h.counted.dropLast hone fun g hne => update_fRefcount_ne g hne
  have hev : ∀ k, t.events k = s.events k ++ _ :=
    events_append (show t.log = s.log ++ _ from rfl) (j := s.serial f) (by simp [FileEvent.serial])
  have hslots : s.slots f = 0 := by
    have hrefs := h.counted.exact f hfa
    rw [hone, count_cons_self] at hrefs
    unfold slots
    omega
  refine ⟨hcounted, h.zombies, fun g hg g' hg' => ?_, fun g hg => ?_, fun e he => ?_,
    fun g hg => ?_, fun k hk hnone => ?_⟩
  · exact h.serialInj g (Finset.mem_of_mem_erase hg) g' (Finset.mem_of_mem_erase hg')
  · exact h.serialLt g (Finset.mem_of_mem_erase hg)
  · obtain he | he := mem_append.mp he
    · exact h.logLt e he
    · have hk := h.serialLt f hfa
      simp only [mem_cons, not_mem_nil, or_false] at he
      obtain rfl | rfl := he
      · exact hk
      · exact hk
  · obtain ⟨hne, hga⟩ := Finset.mem_erase.mp hg
    obtain ⟨w, hw, hlive⟩ := h.lives g hga
    refine ⟨w, by rw [ht]; simpa [hne] using hw, ?_⟩
    change Live (t.events (s.serial g)) (s.serial g) w (s.slots g)
    rw [hev, if_neg fun he => hne (h.serialInj g hga f hfa he), append_nil]
    exact hlive
  · rw [hev]
    by_cases hkf : k = s.serial f
    · obtain ⟨w, hw, hlive⟩ := h.lives f hfa
      cases hv.symm.trans hw
      rw [hslots] at hlive
      rw [if_pos hkf, hkf]
      exact hlive.last
    · rw [if_neg hkf, append_nil]
      refine h.overs k hk fun g hg he => ?_
      refine hnone g (Finset.mem_erase.mpr ⟨fun hgf => hkf ?_, hg⟩) he
      rw [← he, hgf]

end

/-! ## 3. Taking and dropping references -/

section
variable {s : FileSys} {held : List Nat} {p f : Nat} {fd : Int}

/-- One more reference to `f`. -/
def FileSys.take (s : FileSys) (f : Nat) : FileSys :=
  s.setFile f { s.file f with fRefcount := (s.file f).fRefcount + 1 }

theorem FileInv.take (h : FileInv held s) (hf : f ∈ s.allocated) :
    FileInv (f :: held) (s.take f) := by
  refine h.setFile rfl (h.counted.take hf ?_ fun g hne => update_fRefcount_ne g hne)
  simp

theorem fref_take (s : FileSys) (f : Nat) : Yields (fref s f) (· = s.take f) :=
  .seq fun _ => .seq fun _ => .seq fun _ => .seq fun _ => .pure rfl

theorem fref_yields (h : FileInv held s) (hf : f ∈ s.allocated) :
    Yields (fref s f) fun s' => FileInv (f :: held) s' ∧ Same s s' := by
  refine (fref_take s f).imp ?_
  rintro s' rfl
  exact ⟨h.take hf, rfl, rfl, rfl⟩

theorem vput_yields (s : FileSys) (v : Nat) :
    Yields (vput s v) fun s' => ∃ vnode, s' = { s with vnode := vnode } := by
  refine .seq fun _ => .seq fun _ => .seq fun _ => ?_
  exact .ite (fun _ => .pure ⟨_, rfl⟩) fun _ => .pure ⟨_, rfl⟩

theorem vref_yields (s : FileSys) (v : Nat) :
    Yields (vref s v) fun s' => ∃ vnode, s' = { s with vnode := vnode } :=
  .seq fun _ => .pure ⟨_, rfl⟩

theorem vputFor_yields (s : FileSys) (f v : Nat) : Yields (vputFor s f v) fun s' =>
    ∃ vnode, s' = { s with vnode := vnode, log := s.log ++ [.vput (s.serial f) v] } := by
  refine (vput_yields s v).bind ?_
  rintro s' ⟨vnode, rfl⟩
  exact .pure ⟨vnode, rfl⟩

theorem fput_yields (h : FileInv (f :: held) s) : Yields (fput s (some f)) fun s' => FileInv
    held s' ∧ Same s s' := by
  refine .seq fun _ => .seq fun _ => .seq fun _ => .seq fun _ =>
    .ite (fun hone => ?_) fun hmore => ?_
  · obtain ⟨v, hv, -⟩ := h.lives f (h.counted.heldLive f (.head _))
    simp only [hv]
    refine .bind (vputFor_yields _ f v) ?_
    rintro s' ⟨vnode, rfl⟩
    refine .pure ⟨?_, rfl, rfl, rfl⟩
    have hfree := h.free (by omega) hv { s.file f
      with fRefcount := (s.file f).fRefcount - 1, fVnode := some v } vnode
    simpa [free, setFile] using hfree
  · refine .pure ⟨h.setFile rfl (h.counted.drop (by omega) ?_ fun g hne =>
      update_fRefcount_ne g hne), rfl, rfl, rfl⟩
    simp

/-- `fget` of a descriptor: nothing, or the file of the slot with one more reference. -/
theorem fget_yields (h : FileInv held s) (hp : p ∈ s.procs) (hfd : fd ≠ -1) :
    Yields (fget s p fd) fun r =>
      r.2 = none ∧ r.1 = s ∧ (validFd fd → s.pFiles (p, fd.toNat) = none) ∨
      ∃ f, r.2 = some f ∧ validFd fd ∧ s.pFiles (p, fd.toNat) = some f ∧ FileInv (f :: held) r.1 ∧
        Same s r.1 := by
  unfold fget
  rw [if_neg hfd]
  unfold validFd
  refine .ite (fun hout => .ok (.inl ⟨rfl, rfl, fun hin => ?_⟩)) fun hrange => ?_
  · omega
  have hvalid : validFd fd := by unfold validFd; omega
  rw [pFilesAt_of_valid hvalid, ok_bind]
  cases hslot : s.pFiles (p, fd.toNat) with
  | none => exact .pure (.inl ⟨rfl, rfl, fun _ => rfl⟩)
  | some f =>
    have hf := h.counted.placed _ (mem_places hp hvalid) f hslot
    exact (fref_yields h hf).bind fun s' hs' => .pure (.inr ⟨f, rfl, hvalid, rfl, hs'⟩)

end

/-! ## 4. Calls on an open descriptor -/

section
variable {s : FileSys} {held : List Nat} {p f : Nat} {fd : Int}

/-- The invariant for a call that leaves the tables alone. -/
def KeepsFiles (held : List Nat) (s : FileSys) (r : FileSys × Int) : Prop :=
  FileInv held r.1 ∧ Same s r.1

/-- `fput` and return. -/
theorem fput_return (h : FileInv (f :: held) s) (hs : Same s₀ s) (ret : Int) :
    Yields (do let s ← fput s (some f); pure (s, ret)) (KeepsFiles held s₀) :=
  (fput_yields h).bind fun _ h' => .pure ⟨h'.1, hs.trans h'.2⟩

theorem doWriteEnd_yields (h : FileInv (f :: held) s) (hs : Same s₀ s) (put : Int) :
    Yields (doWrite.doWriteEnd s f put) (KeepsFiles held s₀) :=
  (fput_yields h).bind fun _ h' => .seq fun _ => .seq fun _ => .pure ⟨h'.1, hs.trans h'.2⟩

variable (h : FileInv held s) (hp : p ∈ s.procs)
include h hp

theorem doLseek_yields (offset whence : Int) :
    Yields (doLseek s p fd offset whence) (KeepsFiles held s) := by
  refine .ite (fun _ => .pure ⟨h, .rfl⟩) fun hrange => .ite (fun _ => .pure ⟨h, .rfl⟩) fun _ => ?_
  refine (fget_yields h hp (by omega)).bind ?_
  rintro ⟨s₁, f⟩ (⟨rfl, rfl, -⟩ | ⟨f, rfl, -, -, h₁, hs₁⟩)
  · exact .pure ⟨h, .rfl⟩
  · refine .seq fun pos => .ite (fun _ => fput_return h₁ hs₁ _) fun _ => fput_return ?_ ?_ _
    · exact h₁.setFile_same rfl rfl
    · exact hs₁.trans ⟨rfl, rfl, rfl⟩

theorem doRead_yields (got : Int) : Yields (doRead s p fd nbytes got) (KeepsFiles held s) := by
  refine .ite (fun _ => .pure ⟨h, .rfl⟩) fun hrange => ?_
  refine (fget_yields h hp (by omega)).bind ?_
  rintro ⟨s₁, f⟩ (⟨rfl, rfl, -⟩ | ⟨f, rfl, -, -, h₁, hs₁⟩)
  · -- with no file, a read of nothing stops in `fput`
    exact .ite (fun _ => .error _) fun _ => .pure ⟨h, .rfl⟩
  · have hp₁ : p ∈ s₁.procs := hs₁.procs ▸ hp
    refine .ite (fun _ => fput_return h₁ hs₁ _) fun _ =>
      .ite (fun _ => fput_return h₁ hs₁ _) fun _ => ?_
    refine .seq fun v => .ite (fun _ => fput_return h₁ hs₁ _) fun _ =>
      .ite (fun _ => fput_return h₁ hs₁ _) fun _ => ?_
    refine .bind (.ite (fun _ => doLseek_yields h₁ hp₁ _ _) fun _ => doLseek_yields h₁ hp₁ _ _) ?_
    rintro ⟨s₂, r₂⟩ ⟨h₂, hs₂⟩
    exact fput_return h₂ (hs₁.trans hs₂) _

theorem doWrite_yields (put len : Int) :
    Yields (doWrite s p fd nbytes put len) (KeepsFiles held s) := by
  refine .ite (fun _ => .pure ⟨h, .rfl⟩) fun hrange => ?_
  refine (fget_yields h hp (by omega)).bind ?_
  rintro ⟨s₁, f⟩ (⟨rfl, rfl, -⟩ | ⟨f, rfl, -, -, h₁, hs₁⟩)
  · exact .pure ⟨h, .rfl⟩
  · have hp₁ : p ∈ s₁.procs := hs₁.procs ▸ hp
    refine .ite (fun _ => fput_return h₁ hs₁ _) fun _ => .seq fun v =>
      .ite (fun _ => fput_return h₁ hs₁ _) fun _ => .ite (fun _ => fput_return h₁ hs₁ _) fun _ =>
      .ite (fun _ => ?_) fun _ => ?_
    · refine (doLseek_yields h₁ hp₁ _ _).bind ?_
      rintro ⟨s₂, r⟩ ⟨h₂, hs₂⟩
      refine .ite (fun _ => fput_return h₂ (hs₁.trans hs₂) _) fun _ => ?_
      refine (doLseek_yields (h₂.setVnode v _) (hs₂.procs ▸ hp₁) _ _).bind ?_
      rintro ⟨s₃, r₃⟩ ⟨h₃, hs₃⟩
      exact doWriteEnd_yields h₃ ((hs₁.trans hs₂).trans { hs₃ with }) _
    · refine (doLseek_yields (h₁.setVnode v _) hp₁ _ _).bind ?_
      rintro ⟨s₂, r₂⟩ ⟨h₂, hs₂⟩
      exact doWriteEnd_yields h₂ (hs₁.trans { hs₂ with }) _

theorem doGetdent_yields (got : Int) : Yields (doGetdent s p fd got) (KeepsFiles held s) := by
  refine .ite (fun _ => .pure ⟨h, .rfl⟩) fun hrange => ?_
  refine (fget_yields h hp (by omega)).bind ?_
  rintro ⟨s₁, f⟩ (⟨rfl, rfl, -⟩ | ⟨f, rfl, -, -, h₁, hs₁⟩)
  · exact .pure ⟨h, .rfl⟩
  · refine .seq fun v => .ite (fun _ => fput_return h₁ hs₁ _) fun _ =>
      .ite (fun _ => fput_return h₁ hs₁ _) fun _ => (fput_yields h₁).bind fun s₂ h₂ => ?_
    have hs₂ := hs₁.trans h₂.2
    have hp₂ : p ∈ s₂.procs := hs₂.procs ▸ hp
    refine .ite (fun _ => .pure ⟨h₂.1, hs₂⟩) fun _ => .ite (fun _ => ?_) fun _ => ?_
    · exact (doLseek_yields h₂.1 hp₂ _ _).bind fun r hr => .pure ⟨hr.1, hs₂.trans hr.2⟩
    · exact (doLseek_yields h₂.1 hp₂ _ _).bind fun r hr => .pure ⟨hr.1, hs₂.trans hr.2⟩

end

/-! ## 5. Calls on the table -/

section
variable {s : FileSys} {held : List Nat} {p f : Nat} {fd : Int}

/-- The invariant for a call that changes one table. -/
def KeepsTable (held : List Nat) (s : FileSys) (r : FileSys × Int) : Prop :=
  FileInv held r.1 ∧ Kept s r.1

theorem KeepsFiles.table {r : FileSys × Int} (h : KeepsFiles held s r) : KeepsTable held s r :=
  ⟨h.1, h.2.kept⟩

theorem doClose_yields (h : FileInv held s) (hp : p ∈ s.procs) :
    Yields (doClose s p fd) fun r => FileInv held r.1 ∧ Kept s r.1 ∧
      (validFd fd → r.1.pFiles = update s.pFiles (p, fd.toNat) none) := by
  refine .ite (fun hout => .pure ⟨h, Same.rfl.kept, fun hin => ?_⟩) fun hrange => ?_
  · unfold validFd at hin
    omega
  refine (fget_yields h hp (by omega)).bind ?_
  rintro ⟨s₁, f⟩ (⟨rfl, rfl, hnone⟩ | ⟨f, rfl, hvalid, hslot, h₁, hs₁⟩)
  · refine .pure ⟨h, Same.rfl.kept, fun hin => ?_⟩
    rw [← hnone hin, update_eq_self]
  · refine (fput_yields h₁).bind fun s₂ ⟨h₂, hs₂⟩ => ?_
    have hs := hs₁.trans hs₂
    rw [setPFiles_of_valid hvalid, ok_bind]
    have hclear := h₂.clear (mem_places (hs.procs ▸ hp) hvalid) (by rw [hs.pFiles, hslot])
    refine (fput_yields hclear).bind fun s₃ ⟨h₃, hs₃⟩ => .pure ⟨h₃, ?_, fun _ => ?_⟩
    · exact hs.kept.trans { hs₃ with }
    · rw [hs₃.pFiles, ← hs.pFiles]
      rfl

theorem getEmptyFd_spec (hfd : getEmptyFd s p ≠ -emfile) :
    validFd (getEmptyFd s p) ∧ s.pFiles (p, (getEmptyFd s p).toNat) = none := by
  unfold getEmptyFd at hfd ⊢
  split at hfd
  next fd hfind =>
    have hmem := mem_range.mp (mem_of_find?_eq_some hfind)
    have hnone := find?_some hfind
    exact ⟨⟨by simp, by exact_mod_cast hmem⟩, by simpa using hnone⟩
  next => exact absurd rfl hfd

/-- A reference that the caller has is stored in an empty slot of its process. -/
theorem setPFiles_yields (h : FileInv (f :: held) s) (hrun : s.running p) (hvalid : validFd fd)
    (hnone : s.pFiles (p, fd.toNat) = none) (hslots : 0 < s.slots f) :
    Yields (setPFiles s p fd (some f)) fun s' => FileInv held s' ∧ Kept s s' := by
  rw [setPFiles_of_valid hvalid]
  exact .ok ⟨h.store (mem_places hrun.1 hvalid) hnone hrun.2 hslots, rfl, rfl⟩

theorem slots_pos {i : Nat × Nat} (hi : i ∈ s.places) (hf : s.pFiles i = some f) :
    0 < s.slots f := census_pos.mpr ⟨i, hi, hf⟩

theorem doDup_yields (h : FileInv held s) (hrun : s.running p) :
    Yields (doDup s p fd) (KeepsTable held s) := by
  refine .ite (fun _ => .pure ⟨h, Same.rfl.kept⟩) fun hrange => ?_
  refine (fget_yields h hrun.1 (by omega)).bind ?_
  rintro ⟨s₁, f⟩ (⟨rfl, rfl, -⟩ | ⟨f, rfl, hvalid, hslot, h₁, hs₁⟩)
  · exact .pure ⟨h, Same.rfl.kept⟩
  have hrun₁ : s₁.running p := hs₁.kept.running hrun
  refine .ite (fun _ => (fput_return h₁ hs₁ _).imp fun _ => KeepsFiles.table) fun hfd => ?_
  obtain ⟨hnew, hnone⟩ := getEmptyFd_spec hfd
  have hslots := slots_pos (mem_places hrun₁.1 hvalid) (by rw [hs₁.pFiles, hslot])
  exact (setPFiles_yields h₁ hrun₁ hnew hnone hslots).bind fun s₂ h₂ =>
    .pure ⟨h₂.1, hs₁.kept.trans h₂.2⟩

theorem doDup2_yields {ofd nfd : Int} (h : FileInv held s) (hrun : s.running p) :
    Yields (doDup2 s p ofd nfd) (KeepsTable held s) := by
  refine .ite (fun _ => .pure ⟨h, Same.rfl.kept⟩) fun hrange => ?_
  refine .ite (fun _ => .pure ⟨h, Same.rfl.kept⟩) fun hrange' => ?_
  refine (fget_yields h hrun.1 (by omega)).bind ?_
  rintro ⟨s₁, f⟩ (⟨rfl, rfl, -⟩ | ⟨f, rfl, hvalid, hslot, h₁, hs₁⟩)
  · exact .pure ⟨h, Same.rfl.kept⟩
  have hrun₁ : s₁.running p := hs₁.kept.running hrun
  rw [← hs₁.pFiles] at hslot
  refine .ite (fun _ => (fput_return h₁ hs₁ _).imp fun _ => KeepsFiles.table) fun hne => ?_
  unfold pFilesAt
  by_cases hnew : validFd nfd
  swap
  · rw [if_neg hnew]
    exact .error _
  rw [if_pos hnew, ok_bind]
  cases hold : s₁.pFiles (p, nfd.toNat) with
  | none =>
    have hslots := slots_pos (mem_places hrun₁.1 hvalid) hslot
    exact (setPFiles_yields h₁ hrun₁ hnew hold hslots).bind fun s₂ h₂ =>
      .pure ⟨h₂.1, hs₁.kept.trans h₂.2⟩
  | some g =>
    refine (doClose_yields h₁ hrun₁.1).bind ?_
    rintro ⟨s₂, r₂⟩ ⟨h₂, hk₂, htable⟩
    have hrun₂ : s₂.running p := hk₂.running hrun₁
    have htable := htable hnew
    -- the old descriptor is another slot, so it still points to the file
    have hofd : (p, ofd.toNat) ≠ (p, nfd.toNat) := fun he => by
      have := (Prod.mk.inj he).2
      omega
    have hslots : 0 < s₂.slots f := slots_pos (mem_places hrun₂.1 hvalid) (by
      rw [htable, update_of_ne hofd, hslot])
    refine (setPFiles_yields h₂ hrun₂ hnew (by rw [htable, update_self]) hslots).bind
      fun s₃ h₃ => .pure ⟨h₃.1, (hs₁.kept.trans hk₂).trans h₃.2⟩

end

end Weenix.Fs
