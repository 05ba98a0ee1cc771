/-
# Counts of open files over whole runs

`do_open` first: between `fget(-1)` and its end there is a `file_t` in the table that has no vnode,
and the invariant does not hold.  `Opening` says how far such a state is from the one before the
call, and each of the four ways in which the call ends leads back to `FileInv`.  The loader, fork
and exit then only put calls together, and `file_refcounts` is what they are for.

The counts are settled by the census alone.  Nothing is assumed of the file systems, which may
answer every call with anything, nor of the order in which processes call.
-/
import Weenix.Fs.FileInv
import Weenix.Lib.Run

namespace Weenix.Fs

open Refcount List FileSys

/-! ## 1. Opening -/

/-- `s` differs from `s₀` by a new number for `f`, by the slot `i`, and by the events `es`. -/
structure Around (s₀ : FileSys) (i : Nat × Nat) (f : Nat) (slot : Option Nat)
    (es : List FileEvent) (s : FileSys) : Prop where
  file : ∀ g, g ≠ f → s.file g = s₀.file g
  procs : s.procs = s₀.procs
  dead : s.dead = s₀.dead
  pFiles : s.pFiles = update s₀.pFiles i slot
  serial : s.serial = update s₀.serial f s₀.nserial
  nserial : s.nserial = s₀.nserial + 1
  log : s.log = s₀.log ++ es
  about : ∀ e ∈ es, e.serial = s₀.nserial

/-- And `f` is allocated, with one reference and no vnode. -/
structure Opening (s₀ : FileSys) (i : Nat × Nat) (f : Nat) (slot : Option Nat)
    (es : List FileEvent) (s : FileSys) : Prop extends Around s₀ i f slot es s where
  allocated : s.allocated = insert f s₀.allocated
  count : (s.file f).fRefcount = 1
  noVnode : (s.file f).fVnode = none

section
variable {s₀ s : FileSys} {held : List Nat} {i : Nat × Nat} {f v : Nat} {slot : Option Nat}
  {es : List FileEvent}

theorem Around.serial_self (h : Around s₀ i f slot es s) : s.serial f = s₀.nserial := by
  rw [h.serial, update_self]

theorem Around.places (h : Around s₀ i f slot es s) : s.places = s₀.places := by
  rw [FileSys.places, h.procs]
  rfl

theorem about_append {k : Nat} {e : FileEvent} (h : ∀ e ∈ es, e.serial = k) (he : e.serial = k) :
    ∀ e' ∈ es ++ [e], e'.serial = k := by
  intro e' he'
  obtain he' | he' := mem_append.mp he'
  · exact h e' he'
  · rw [mem_singleton.mp he', he]

theorem fgetNew_yields (hnone : s₀.pFiles i = none) : Yields (fgetNew s₀) fun r =>
    r = (s₀, none) ∨ ∃ f, r.2 = some f ∧ f ∉ s₀.allocated ∧ Opening s₀ i f none [] r.1 := by
  unfold fgetNew
  cases hslab : s₀.slab.alloc s₀.allocated with
  | none => exact .ok (.inl rfl)
  | some f =>
    refine .bind (Q := fun s => Opening s₀ i f none [] s) ?_ fun s hs =>
      .pure (.inr ⟨f, rfl, s₀.slab.fresh _ _ hslab, hs⟩)
    refine .seq fun _ => .seq fun _ => .seq fun _ => .seq fun _ => .pure ?_
    refine ⟨⟨fun g hg => ?_, rfl, rfl, ?_, rfl, rfl, ?_, fun e he => (nomatch he)⟩, rfl, ?_, ?_⟩
    · simp [setFile, hg]
    · rw [← hnone, update_eq_self]
      rfl
    · simp [setFile]
    · simp [setFile]
    · simp [setFile]

theorem Opening.store (h : Opening s₀ i f none es s) :
    Opening s₀ i f (some f) es (s.setSlot i (some f)) := by
  refine { h with pFiles := ?_, log := ?_ }
  · simp [setSlot, h.pFiles]
  · simp [setSlot, h.pFiles, h.log]

theorem Around.vputFor (h : Around s₀ i f slot es s) (v : Nat) :
    Yields (vputFor s f v) fun s' => Around s₀ i f slot (es ++ [.vput s₀.nserial v]) s' ∧
      s'.allocated = s.allocated ∧ s'.file = s.file := by
  refine (vputFor_yields s f v).imp ?_
  rintro s' ⟨vnode, rfl⟩
  refine ⟨{ h with log := ?_, about := about_append h.about rfl }, rfl, rfl⟩
  simp [h.log, h.serial_self]

section
variable (h : Opening s₀ i f slot es s)
include h

theorem Opening.setFile {x : File} (hc : x.fRefcount = 1) (hv : x.fVnode = none) :
    Opening s₀ i f slot es (s.setFile f x) := by
  refine { h with file g hg := ?_, count := ?_, noVnode := ?_ }
  · simpa [FileSys.setFile, hg] using h.file g hg
  · simpa [FileSys.setFile] using hc
  · simpa [FileSys.setFile] using hv

theorem Opening.found (v : Nat) :
    Opening s₀ i f slot (es ++ [.found s₀.nserial v]) (s.found f v) := by
  refine { h with log := ?_, about := about_append h.about rfl }
  simp [FileSys.found, h.log, h.serial_self]

theorem Opening.vputFor (v : Nat) :
    Yields (vputFor s f v) (Opening s₀ i f slot (es ++ [.vput s₀.nserial v])) := by
  refine (h.toAround.vputFor v).imp fun s' ⟨h', ha, hf⟩ => ⟨h', ha.trans h.allocated, ?_, ?_⟩
  · rw [hf]
    exact h.count
  · rw [hf]
    exact h.noVnode

theorem Opening.fput (hfresh : f ∉ s₀.allocated) : Yields (fput s (some f)) fun s' =>
      Around s₀ i f slot (es ++ [.freed s₀.nserial]) s' ∧ s'.allocated = s₀.allocated := by
  refine .seq fun _ => .seq fun _ => .seq fun _ => .seq fun _ => .ite (fun _ => ?_) fun hne => ?_
  · simp only [h.noVnode]
    refine .pure ⟨{ h with file g hg := ?_, log := ?_, about := about_append h.about rfl }, ?_⟩
    · simpa [FileSys.setFile, FileSys.free, hg] using h.file g hg
    · simp [FileSys.setFile, FileSys.free, h.log, h.serial_self]
    · simp [FileSys.setFile, FileSys.free, h.allocated, hfresh]
  · rw [h.count] at hne
    exact absurd rfl hne

end

theorem FileInv.events_nserial (h : FileInv held s) : s.events s.nserial = [] :=
  filter_eq_nil_iff.mpr fun e he => by
    simpa using (h.logLt e he).ne

variable (h₀ : FileInv held s₀) (hfresh : f ∉ s₀.allocated) (hnone : s₀.pFiles i = none)
include h₀ hfresh hnone

theorem Opening.clear (h : Opening s₀ i f (some f) es s) :
    Opening s₀ i f none (es ++ [.cleared s₀.nserial 0]) (s.setSlot i none) := by
  have hback : update s.pFiles i none = s₀.pFiles := by
    rw [h.pFiles, update_idem, ← hnone, update_eq_self]
  have hcensus : census s.places s₀.pFiles f = 0 := by
    by_contra hpos
    obtain ⟨j, hj, hjf⟩ := census_pos.mp (Nat.pos_of_ne_zero hpos)
    exact hfresh (h₀.counted.placed j (h.places ▸ hj) f hjf)
  refine { h with pFiles := ?_, log := ?_, about := about_append h.about rfl }
  · exact hback.trans (by rw [← hnone, update_eq_self])
  · have hslot : s.pFiles i = some f := by rw [h.pFiles, update_self]
    simp [setSlot, hslot, hback, hcensus, h.log, h.serial_self]

/-- An open that failed leaves nothing but its history. -/
theorem FileInv.failed (h : Around s₀ i f none es s) (halloc : s.allocated = s₀.allocated)
    (hover : Over es s₀.nserial) : FileInv held s ∧ Kept s₀ s := by
  have hpf : s.pFiles = s₀.pFiles := by rw [h.pFiles, ← hnone, update_eq_self]
  have hne : ∀ g ∈ s.allocated, g ≠ f := fun g hg hgf => hfresh (halloc ▸ hgf ▸ hg)
  have hserial : ∀ g ∈ s.allocated, s.serial g = s₀.serial g := fun g hg => by
    rw [h.serial, update_of_ne (hne g hg)]
  have hev := events_append h.log h.about
  refine ⟨⟨?_, ?_, fun g hg g' hg' he => ?_, fun g hg => ?_, fun e he => ?_, fun g hg => ?_,
    fun k hk hkn => ?_⟩, h.procs, h.dead⟩
  · rw [h.places, hpf, halloc]
    refine h₀.counted.congr_count fun g hg => ?_
    rw [h.file g (hne g (halloc ▸ hg))]
  · rw [h.dead, hpf]
    exact h₀.zombies
  · rw [hserial g hg, hserial g' hg'] at he
    exact h₀.serialInj g (halloc ▸ hg) g' (halloc ▸ hg') he
  · rw [hserial g hg, h.nserial]
    exact Nat.lt_succ_of_lt (h₀.serialLt g (halloc ▸ hg))
  · rw [h.nserial]
    rw [h.log] at he
    obtain he | he := mem_append.mp he
    · exact Nat.lt_succ_of_lt (h₀.logLt e he)
    · rw [h.about e he]
      exact Nat.lt_succ_self _
  · obtain ⟨w, hw, hlive⟩ := h₀.lives g (halloc ▸ hg)
    have hlt := h₀.serialLt g (halloc ▸ hg)
    refine ⟨w, by rw [h.file g (hne g hg), hw], ?_⟩
    rw [hserial g hg, hev, if_neg hlt.ne, append_nil, slots, h.places, hpf]
    exact hlive
  · rw [hev]
    by_cases hks : k = s₀.nserial
    · rw [if_pos hks, hks, h₀.events_nserial, nil_append]
      exact hover
    · rw [if_neg hks, append_nil]
      rw [h.nserial] at hk
      refine h₀.overs k (by omega) fun g hg => ?_
      rw [← hserial g (halloc ▸ hg)]
      exact hkn g (halloc ▸ hg)

/-- An open that succeeds: one more file, with the slot that points to it. -/
theorem FileInv.opened (h : Opening s₀ i f (some f) [.found s₀.nserial v] s) (hi : i ∈ s₀.places)
    (hlive : i.1 ∉ s₀.dead) :
    FileInv held (s.setFile f { s.file f with fPos := 0, fVnode := some v }) := by
  set t := s.setFile f { s.file f with fPos := 0, fVnode := some v }
  have hfile : ∀ g, g ≠ f → t.file g = s₀.file g := fun g hg =>
    (update_of_ne hg ..).trans (h.file g hg)
  have hself : t.file f = { s.file f with fPos := 0, fVnode := some v } :=
    update_self ..
  have hserial : ∀ g ∈ s₀.allocated, t.serial g = s₀.serial g := fun g hg => by
    have hgf : g ≠ f := fun hgf => hfresh (hgf ▸ hg)
    exact (congrFun h.serial g).trans (update_of_ne hgf ..)
  have hserial_self : t.serial f = s₀.nserial := h.serial_self
  have hcounted : Counted s₀.places (update s₀.pFiles i (some f)) held
      (insert f s₀.allocated) fun g => (t.file g).fRefcount :=
    (h₀.counted.new hfresh (by rw [hself]; exact h.count) fun g hg => by rw [hfile g hg]).store hi
      hnone
  have hslots : ∀ g, t.slots g = s₀.slots g + if f = g then 1 else 0 := fun g => by
    change census s.places s.pFiles g = _
    rw [h.pFiles, h.places]
    exact census_store hi hnone f g
  have hev : ∀ k, t.events k = s₀.events k ++ if k = s₀.nserial
    then [.found s₀.nserial v] else [] :=
    events_append h.log h.about
  refine ⟨?_, fun p hp j hj => ?_, fun g hg g' hg' he => ?_, fun g hg => ?_, fun e he => ?_,
    fun g hg => ?_, fun k hk hkn => ?_⟩
  · change Counted s.places s.pFiles held s.allocated _
    rw [h.places, h.pFiles, h.allocated]
    exact hcounted
  · have hp : p ∈ s₀.dead := h.dead ▸ hp
    have hne : (p, j) ≠ i := fun he => hlive (he ▸ hp)
    change s.pFiles (p, j) = none
    rw [h.pFiles, update_of_ne hne]
    exact h₀.zombies p hp j hj
  · change g ∈ s.allocated at hg
    change g' ∈ s.allocated at hg'
    rw [h.allocated, Finset.mem_insert] at hg hg'
    obtain rfl | hg := hg <;> rcases hg' with rfl | hg'
    · rfl
    · rw [hserial_self, hserial g' hg'] at he
      exact absurd he (h₀.serialLt g' hg').ne'
    · rw [hserial_self, hserial g hg] at he
      exact absurd he (h₀.serialLt g hg).ne
    · rw [hserial g hg, hserial g' hg'] at he
      exact h₀.serialInj g hg g' hg' he
  · change g ∈ s.allocated at hg
    change t.serial g < s.nserial
    rw [h.allocated, Finset.mem_insert] at hg
    rw [h.nserial]
    obtain rfl | hg := hg
    · rw [hserial_self]
      exact Nat.lt_succ_self _
    · rw [hserial g hg]
      exact Nat.lt_succ_of_lt (h₀.serialLt g hg)
  · change e ∈ s.log at he
    change e.serial < s.nserial
    rw [h.log] at he
    rw [h.nserial]
    obtain he | he := mem_append.mp he
    · exact Nat.lt_succ_of_lt (h₀.logLt e he)
    · rw [h.about e he]
      exact Nat.lt_succ_self _
  · change g ∈ s.allocated at hg
    rw [h.allocated, Finset.mem_insert] at hg
    obtain rfl | hgf := eq_or_ne g f
    · refine ⟨v, by rw [hself], [], fun e he => (nomatch he), ?_⟩
      rw [hserial_self, hev, hslots, h₀.events_nserial]
      simp
    · have hg := hg.resolve_left hgf
      obtain ⟨w, hw, hl⟩ := h₀.lives g hg
      refine ⟨w, by rw [hfile g hgf, hw], ?_⟩
      rw [hserial g hg, hev, if_neg (h₀.serialLt g hg).ne, append_nil, hslots,
        if_neg hgf.symm, Nat.add_zero]
      exact hl
  · change ∀ g ∈ s.allocated, t.serial g ≠ k at hkn
    change k < s.nserial at hk
    rw [h.allocated] at hkn
    rw [h.nserial] at hk
    have hks : k ≠ s₀.nserial := fun he =>
      hkn f (Finset.mem_insert_self ..) (hserial_self.trans he.symm)
    rw [hev, if_neg hks, append_nil]
    refine h₀.overs k (by omega) fun g hg => ?_
    rw [← hserial g hg]
    exact hkn g (Finset.mem_insert_of_mem hg)

end

theorem doOpen_yields {s : FileSys} {held : List Nat} {p : Nat} (h : FileInv held s)
    (hrun : s.running p) (oflags : BitVec 32) (w : Namev) :
    Yields (doOpen s p oflags w) (KeepsTable held s) := by
  refine .ite (fun _ => .pure ⟨h, Same.rfl.kept⟩) fun _ =>
    .ite (fun _ => .pure ⟨h, Same.rfl.kept⟩) fun hfd => ?_
  obtain ⟨hvalid, hnone⟩ := getEmptyFd_spec hfd
  have hi := mem_places hrun.1 hvalid
  refine .bind (fgetNew_yields hnone) ?_
  rintro ⟨s₁, f⟩ (⟨rfl, rfl⟩ | ⟨f, rfl, hfresh, h₁⟩)
  · exact .pure ⟨h, Same.rfl.kept⟩
  simp only [setPFiles_of_valid hvalid, ok_bind]
  have h₂ := h₁.store.setFile (x := { (s₁.setSlot (p, (getEmptyFd s p).toNat) (some f)).file f with
    fMode := openMode oflags }) h₁.count h₁.noVnode
  refine .ite (fun _ => ?_) fun _ => .ite (fun _ => ?_) fun _ => .ite (fun _ => ?_) fun _ => ?_
  · -- `open_namev` failed
    refine ((h₂.clear h hfresh hnone).fput hfresh).bind fun s₃ ⟨h₃, ha⟩ => .pure ?_
    exact h.failed hfresh hnone h₃ ha (.inl rfl)
  · -- a directory that was to be written
    refine (((h₂.found _).clear h hfresh hnone).vputFor _).bind fun s₃ h₃ =>
      (h₃.fput hfresh).bind fun s₄ ⟨h₄, ha⟩ => .pure ?_
    exact h.failed hfresh hnone h₄ ha (.inr (.inl ⟨_, [], fun _ he => (nomatch he), rfl⟩))
  · -- a special file without its device
    refine (((h₂.found _).clear h hfresh hnone).fput hfresh).bind fun s₃ ⟨h₃, ha⟩ =>
      (h₃.vputFor _).bind fun s₄ ⟨h₄, ha', _⟩ => .pure ?_
    exact h.failed hfresh hnone h₄ (ha'.trans ha) (.inr (.inr ⟨_, rfl⟩))
  · have h₃ := h₂.found w.pVnode
    exact .pure ⟨h.opened hfresh hnone h₃ hi hrun.2, h₃.procs, h₃.dead⟩

/-! ## 2. Program loading -/

section
variable {s s₀ : FileSys} {held : List Nat} {p file : Nat} {fd interpfd : Int}

section
variable (h : FileInv held s) (hp : p ∈ s.procs)
include h hp

theorem elf32LoadEhdr_yields (e : ElfImage) :
    Yields (elf32LoadEhdr s p fd e) (KeepsFiles held s) := by
  refine (doRead_yields h hp _).bind fun r hr => ?_
  exact .ite (fun _ => .pure hr) fun _ => .pure hr

theorem elf32LoadPhtable_yields (e : ElfImage) :
    Yields (elf32LoadPhtable s p fd e) (KeepsFiles held s) := by
  refine (doLseek_yields h hp _ _).bind fun r hr => .ite (fun _ => .pure hr) fun _ => ?_
  refine (doRead_yields hr.1 (hr.2.procs ▸ hp) _).bind fun r' hr' => ?_
  have hk : KeepsFiles held s r' := ⟨hr'.1, hr.2.trans hr'.2⟩
  exact .ite (fun _ => .pure hk) fun _ => .seq fun _ => .ite (fun _ => .pure hk) fun _ => .pure hk

theorem elf32LoadInterp_yields (i : Interp) (rest : Except Halt Int) :
    Yields (elf32LoadInterp s p fd i rest) (KeepsFiles held s) := by
  refine (elf32LoadEhdr_yields h hp _).bind fun r hr => .ite (fun _ => .pure hr) fun _ =>
    .ite (fun _ => .pure hr) fun _ => ?_
  refine (elf32LoadPhtable_yields hr.1 (hr.2.procs ▸ hp) _).bind fun r' hr' => ?_
  have hk : ∀ ret, KeepsFiles held s (r'.1, ret) := fun _ => ⟨hr'.1, hr.2.trans hr'.2⟩
  exact .ite (fun _ => .pure (hk _)) fun _ => .ite (fun _ => .pure (hk _)) fun _ =>
    .ite (fun _ => .pure (hk _)) fun _ => .ite (fun _ => .pure (hk _)) fun _ =>
    .ite (fun _ => .pure (hk _)) fun _ => .ite (fun _ => .pure (hk _)) fun _ =>
    .seq fun _ => .pure (hk _)

end

/-- The end of the loader drops the reference to the program and, if there is one, closes the
interpreter and drops the reference to it. -/
theorem elf32Done_yields {interpfile : Option Nat}
    (h : FileInv (file :: (interpfile.toList ++ held)) s) (hp : p ∈ s.procs) :
    Yields (elf32Done s p file interpfd interpfile) fun s' => FileInv held s' ∧ Kept s s' := by
  refine (fput_yields h).bind fun s₁ ⟨h₁, hs₁⟩ => ?_
  refine .bind (Q := fun s' => FileInv (interpfile.toList ++ held) s' ∧ Kept s s') ?_ ?_
  · refine .ite (fun _ => .map ?_) fun _ => .ok ⟨h₁, hs₁.kept⟩
    exact (doClose_yields h₁ (hs₁.procs ▸ hp)).imp fun r hr => ⟨hr.1, hs₁.kept.trans hr.2.1⟩
  · rintro s₂ ⟨h₂, hk₂⟩
    cases interpfile with
    | none => exact .pure ⟨h₂, hk₂⟩
    | some f => exact (fput_yields h₂).imp fun s₃ h₃ => ⟨h₃.1, hk₂.trans h₃.2.kept⟩

/-- `goto done` before there is an interpreter. -/
theorem done_return (h : FileInv (file :: held) s) (hp : p ∈ s.procs) (hk : Kept s₀ s) (err : Int) :
    Yields (do let s' ← elf32Done s p file interpfd none; pure (s', err)) (KeepsTable held s₀) :=
  (elf32Done_yields h hp).bind fun _ h' => .pure ⟨h'.1, hk.trans h'.2⟩

theorem elf32FindInterp_yields (h : FileInv (file :: held) s) (hrun : s.running p) (i : Interp)
    (rest : Except Halt Int) : Yields (elf32FindInterp s p fd file i rest) (KeepsTable held s) := by
  refine (doLseek_yields h hrun.1 _ _).bind ?_
  rintro ⟨s₁, err⟩ ⟨h₁, hs₁⟩
  have hrun₁ := hs₁.kept.running hrun
  refine .ite (fun _ => done_return h₁ hrun₁.1 hs₁.kept _) fun _ =>
    .ite (fun _ => done_return h₁ hrun₁.1 hs₁.kept _) fun _ => ?_
  refine (doRead_yields h₁ hrun₁.1 _).bind ?_
  rintro ⟨s₂, err⟩ ⟨h₂, hs₂⟩
  have hk₂ := (hs₁.trans hs₂).kept
  have hrun₂ := hk₂.running hrun
  refine .ite (fun _ => done_return h₂ hrun₂.1 hk₂ _) fun _ =>
    .ite (fun _ => done_return h₂ hrun₂.1 hk₂ _) fun _ => ?_
  refine (doOpen_yields h₂ hrun₂ _ _).bind ?_
  rintro ⟨s₃, interpfd⟩ ⟨h₃, hs₃⟩
  have hk₃ := hk₂.trans hs₃
  have hrun₃ := hk₃.running hrun
  refine .ite (fun _ => done_return h₃ hrun₃.1 hk₃ _) fun hfd => ?_
  refine (fget_yields h₃ hrun₃.1 (by omega)).bind ?_
  rintro ⟨s₄, f⟩ (⟨rfl, rfl, -⟩ | ⟨f, rfl, -, -, h₄, hs₄⟩)
  · exact .error _
  have hk₄ := hk₃.trans hs₄.kept
  refine (elf32LoadInterp_yields h₄ (hk₄.running hrun).1 _ _).bind ?_
  rintro ⟨s₅, err⟩ ⟨h₅, hs₅⟩
  have hk₅ := hk₄.trans hs₅.kept
  -- the program was taken before its interpreter, and is dropped first
  have h₆ : FileInv (file :: ((some f).toList ++ held)) s₅ := h₅.perm (.swap ..)
  exact (elf32Done_yields h₆ (hk₅.running hrun).1).bind fun _ h' =>
    .pure ⟨h'.1, hk₅.trans h'.2⟩

theorem elf32Load_yields (h : FileInv held s) (hrun : s.running p) (hfd : fd ≠ -1) (w : Elf) :
    Yields (elf32Load s p fd w) (KeepsTable held s) := by
  refine (fget_yields h hrun.1 hfd).bind ?_
  rintro ⟨s₁, f⟩ (⟨rfl, rfl, -⟩ | ⟨f, rfl, -, -, h₁, hs₁⟩)
  · exact .error _
  refine (elf32LoadEhdr_yields h₁ (hs₁.kept.running hrun).1 _).bind ?_
  rintro ⟨s₂, err⟩ ⟨h₂, hs₂⟩
  have hk₂ := (hs₁.trans hs₂).kept
  have hp₂ := (hk₂.running hrun).1
  refine .ite (fun _ => done_return h₂ hp₂ hk₂ _) fun _ =>
    .ite (fun _ => done_return h₂ hp₂ hk₂ _) fun _ =>
    .ite (fun _ => done_return h₂ hp₂ hk₂ _) fun _ => ?_
  refine (elf32LoadPhtable_yields h₂ hp₂ _).bind ?_
  rintro ⟨s₃, err⟩ ⟨h₃, hs₃⟩
  have hk₃ := hk₂.trans hs₃.kept
  have hrun₃ := hk₃.running hrun
  refine .ite (fun _ => done_return h₃ hrun₃.1 hk₃ _) fun _ =>
    .ite (fun _ => done_return h₃ hrun₃.1 hk₃ _) fun _ =>
    .ite (fun _ => done_return h₃ hrun₃.1 hk₃ _) fun _ => ?_
  cases w.interp with
  | some i => exact (elf32FindInterp_yields h₃ hrun₃ i _).imp fun r hr => ⟨hr.1, hk₃.trans hr.2⟩
  | none => exact .seq fun err => done_return h₃ hrun₃.1 hk₃ _

theorem close_return (h : FileInv held s) (hp : p ∈ s.procs) (hk : Kept s₀ s) (ret : Int) :
    Yields (do let (s', _) ← doClose s p fd; pure (s', ret)) (KeepsTable held s₀) :=
  (doClose_yields h hp).bind fun _ hr => .pure ⟨hr.1, hk.trans hr.2.1⟩

theorem binfmtLoad_yields (h : FileInv held s) (hrun : s.running p) (namev : Namev) (w : Elf) :
    Yields (binfmtLoad s p namev w) (KeepsTable held s) := by
  refine (doOpen_yields h hrun _ _).bind ?_
  rintro ⟨s₁, fd⟩ ⟨h₁, hk₁⟩
  refine .ite (fun _ => .pure ⟨h₁, hk₁⟩) fun hfd => ?_
  refine (fget_yields h₁ (hk₁.running hrun).1 (by omega)).bind ?_
  rintro ⟨s₂, f⟩ (⟨rfl, rfl, -⟩ | ⟨f, rfl, -, -, h₂, hs₂⟩)
  · exact .error _
  have hk₂ := hk₁.trans hs₂.kept
  have hclose :
    ∀ ret, Yields (do let s' ← fput s₂ (some f); let (s', _) ← doClose s' p fd; pure (s', ret))
      (KeepsTable held s) := fun ret =>
    (fput_yields h₂).bind fun s₃ h₃ =>
      close_return h₃.1 ((hk₂.trans h₃.2.kept).running hrun).1 (hk₂.trans h₃.2.kept) ret
  refine .seq fun v => .ite (fun _ => hclose _) fun _ => .ite (fun _ => hclose _) fun _ => ?_
  refine (fput_yields h₂).bind fun s₃ ⟨h₃, hs₃⟩ => ?_
  have hk₃ := hk₂.trans hs₃.kept
  refine (elf32Load_yields h₃ (hk₃.running hrun) (by omega) w).bind fun r hr => ?_
  have hk₄ := hk₃.trans hr.2
  exact close_return hr.1 (hk₄.running hrun).1 hk₄ _

end

/-! ## 3. Processes -/

section
variable {s : FileSys} {held : List Nat} {p child : Nat}

/-- The slots of the child are filled one by one.  Those that are still to come are empty. -/
theorem forkFiles_yields (is : List Nat) (hnodup : is.Nodup) (hlt : ∀ i ∈ is, i < nfiles)
    (h : FileInv held s) (hp : p ∈ s.procs) (hrun : s.running child)
    (hempty : ∀ i ∈ is, s.pFiles (child, i) = none) :
    Yields (forkFiles p child is s) fun s' => FileInv held s' ∧ Kept s s' := by
  induction is generalizing s with
  | nil => exact .ok ⟨h, Same.rfl.kept⟩
  | cons i is ih =>
    obtain ⟨hi, hnodup⟩ := nodup_cons.mp hnodup
    have hnone := hempty i (.head _)
    have hmem : ∀ q ∈ s.procs, (q, i) ∈ s.places := fun q hq =>
      Finset.mem_product.mpr ⟨hq, Finset.mem_range.mpr (hlt i (.head _))⟩
    have hlater : ∀ x, ∀ j ∈ is, (s.setSlot (child, i) x).pFiles (child, j) = none :=
      fun x j hj => by
      have hji : (child, j) ≠ (child, i) := fun he => hi ((Prod.mk.inj he).2 ▸ hj)
      simpa [setSlot, hji] using hempty j (.tail _ hj)
    have ih := fun {t : FileSys} (ht : FileInv held t) (hk : Kept s t) he =>
      ih (s := t) hnodup (fun j hj => hlt j (.tail _ hj)) ht (hk.procs ▸ hp)
        (hk.running hrun) he
    unfold forkFiles
    cases hslot : s.pFiles (p, i) with
    | none =>
      have hsame : s.setSlot (child, i) none = s := by
        unfold setSlot
        rw [← hnone, update_eq_self, hnone, append_nil]
      simp only [hsame, hnone]
      exact ih h Same.rfl.kept fun j hj => hempty j (.tail _ hj)
    | some f =>
      have hself : (s.setSlot (child, i) (some f)).pFiles (child, i) = some f :=
        update_self ..
      simp only [hself]
      refine (fref_take _ f).bind ?_
      rintro s' rfl
      -- taking the reference first leads to the same state
      have htake : FileInv (f :: held) (s.take f) :=
        h.take (h.counted.placed _ (hmem p hp) f hslot)
      have hstore : FileInv held ((s.take f).setSlot (child, i) (some f)) :=
        htake.store (hmem child hrun.1) hnone hrun.2 (slots_pos (hmem p hp) hslot)
      exact (ih hstore ⟨rfl, rfl⟩ (hlater _)).imp fun s' h' => ⟨h'.1, h'.2.procs, h'.2.dead⟩

/-- Whatever is open in the list is closed, and what is closed stays closed. -/
theorem closeAll_yields (fds : List Nat) (hlt : ∀ fd ∈ fds, fd < nfiles) (h : FileInv held s)
    (hp : p ∈ s.procs) :
    Yields (closeAll p (fun fd => fd) fds s) fun s' => FileInv held s' ∧ Kept s s' ∧
      (∀ i, s.pFiles i = none → s'.pFiles i = none) ∧ ∀ fd ∈ fds, s'.pFiles (p, fd) = none := by
  induction fds generalizing s with
  | nil => exact .ok ⟨h, Same.rfl.kept, fun _ hi => hi, fun _ hfd => (nomatch hfd)⟩
  | cons fd fds ih =>
    have hlt' := fun j hj => hlt j (.tail _ hj)
    unfold closeAll
    cases hslot : s.pFiles (p, fd) with
    | none =>
      refine (ih hlt' h hp).imp fun s' ⟨h', hk, hstay, hclosed⟩ => ⟨h', hk, hstay, ?_⟩
      exact forall_mem_cons.mpr ⟨hstay _ hslot, hclosed⟩
    | some f =>
      refine (doClose_yields h hp).bind ?_
      rintro ⟨s₁, r₁⟩ ⟨h₁, hk₁, htable⟩
      have hvalid : validFd fd := ⟨by omega, by exact_mod_cast hlt fd (.head _)⟩
      have htable : s₁.pFiles = update s.pFiles (p, fd) none := htable hvalid
      refine (ih hlt' h₁ (hk₁.procs ▸ hp)).imp fun s' ⟨h', hk, hstay, hclosed⟩ =>
        ⟨h', hk₁.trans hk, fun i hi => hstay i ?_, ?_⟩
      · rw [htable, update_apply]
        split
        · rfl
        · exact hi
      · refine forall_mem_cons.mpr ⟨hstay _ ?_, hclosed⟩
        rw [htable, update_self]

variable (h : FileInv held s)
include h

theorem FileInv.congr_places {s' : FileSys} (hfile : s'.file = s.file)
    (halloc : s'.allocated = s.allocated)
    (hserial : s'.serial = s.serial) (hnserial : s'.nserial = s.nserial) (hlog : s'.log = s.log)
    (hplaces : ∀ i f, i ∈ s'.places ∧ s'.pFiles i = some f ↔ i ∈ s.places ∧ s.pFiles i = some f)
    (hzombies : ∀ p ∈ s'.dead, ∀ i < nfiles, s'.pFiles (p, i) = none) : FileInv held s' := by
  have hslots : ∀ f, s'.slots f = s.slots f := census_congr hplaces
  refine ⟨?_, hzombies, ?_, ?_, ?_, ?_, ?_⟩
  · rw [hfile, halloc]
    exact h.counted.congr_places hplaces
  · rw [halloc, hserial]
    exact h.serialInj
  · rw [halloc, hserial, hnserial]
    exact h.serialLt
  · rw [hlog, hnserial]
    exact h.logLt
  · simp only [halloc, hfile, hserial, hslots, events, hlog]
    exact h.lives
  · simp only [halloc, hserial, hnserial, events, hlog]
    exact h.overs

theorem FileInv.procCreate (hc : child ∉ s.procs) : FileInv held (procCreate s child) := by
  refine h.congr_places rfl rfl rfl rfl rfl (fun i f => ?_) fun q hq i hi => ?_
  · simp only [places, Fs.procCreate, Finset.mem_product, Finset.mem_insert]
    by_cases hi : i.1 = child
    · simp [hi, hc]
    · simp [hi]
  · simp only [Fs.procCreate]
    split
    · rfl
    · exact h.zombies q (Finset.mem_of_mem_erase hq) i hi

theorem doFork_yields (hp : p ∈ s.procs) {c : Option Nat}
    (hc : ∀ child ∈ c, child ∉ s.procs) (pid : Int) :
    Yields (doFork s p c pid) fun r => FileInv held r.1 := by
  cases c with
  | none => exact .ok h
  | some child =>
    have hfresh := hc child rfl
    have hrun : (procCreate s child).running child :=
      ⟨Finset.mem_insert_self .., Finset.notMem_erase _ _⟩
    refine (forkFiles_yields (range nfiles) nodup_range (fun i => mem_range.mp)
      (h.procCreate hfresh) (Finset.mem_insert_of_mem hp) hrun fun i _ => if_pos rfl).bind ?_
    rintro s₁ ⟨h₁, -⟩
    cases s₁.pCwd p with
    | none => exact .error _
    | some v =>
      refine .bind (vref_yields _ v) ?_
      rintro s₂ ⟨vnode, rfl⟩
      exact .pure (h₁.world _ _ _)

theorem procCleanup_yields (hp : p ∈ s.procs) : Yields (procCleanup s p) (FileInv held) := by
  refine .bind (Q := fun s' => ∃ vnode, s' = { s with vnode := vnode }) ?_ ?_
  · cases s.pCwd p with
    | none => exact .ok ⟨_, rfl⟩
    | some v => exact vput_yields s v
  · rintro s₁ ⟨vnode, rfl⟩
    refine (closeAll_yields (range nfiles) (fun i => mem_range.mp) (h.world vnode _ _)
      hp).bind fun s₂ ⟨h₂, _, _, hclosed⟩ => .pure ?_
    refine { h₂ with zombies q hq i hi := ?_ }
    obtain rfl | hq := Finset.mem_insert.mp hq
    · exact hclosed i (mem_range.mpr hi)
    · exact h₂.zombies q hq i hi

/-- A process that has exited has no open descriptors, and is not missed. -/
theorem FileInv.reap (hp : p ∈ s.dead) :
    FileInv held { s with procs := s.procs.erase p, dead := s.dead.erase p } := by
  refine h.congr_places rfl rfl rfl rfl rfl (fun i f => ?_) fun q hq i hi =>
    h.zombies q (Finset.mem_of_mem_erase hq) i hi
  simp only [places, Finset.mem_product, Finset.mem_erase, Finset.mem_range]
  constructor
  · rintro ⟨⟨⟨-, hi⟩, hlt⟩, hf⟩
    exact ⟨⟨hi, hlt⟩, hf⟩
  · rintro ⟨⟨hi, hlt⟩, hf⟩
    refine ⟨⟨⟨fun he => ?_, hi⟩, hlt⟩, hf⟩
    have := h.zombies p hp i.2 hlt
    rw [← he, hf] at this
    cases this

end

/-! ## 4. Runs -/

theorem fsStep_yields {s : FileSys} (h : FileInv [] s) {c : FsCall} (hc : FsLegal s c) :
    Yields (fsStep s c) (FileInv []) := by
  cases c with
  | open_ p oflags namev => exact .map ((doOpen_yields h hc _ _).imp fun _ hr => hr.1)
  | close p fd => exact .map ((doClose_yields h hc.1.1).imp fun _ hr => hr.1)
  | dup p fd => exact .map ((doDup_yields h hc.1).imp fun _ hr => hr.1)
  | dup2 p ofd nfd => exact .map ((doDup2_yields h hc.1).imp fun _ hr => hr.1)
  | read p fd nbytes got => exact .map ((doRead_yields h hc.1.1 _).imp fun _ hr => hr.1)
  | write p fd nbytes put len => exact .map ((doWrite_yields h hc.1.1 _ _).imp fun _ hr => hr.1)
  | lseek p fd offset whence => exact .map ((doLseek_yields h hc.1.1 _ _).imp fun _ hr => hr.1)
  | getdent p fd got => exact .map ((doGetdent_yields h hc.1.1 _).imp fun _ hr => hr.1)
  | fork p child pid => exact .map (doFork_yields h hc.1.1 hc.2 pid)
  | load p namev w => exact .map ((binfmtLoad_yields h hc _ _).imp fun _ hr => hr.1)
  | exit p => exact procCleanup_yields h hc.1
  | reap p => exact .ok (h.reap hc)
  | world vnode pCwd slab => exact .ok (h.world ..)

theorem FileInv.boot (procs : Finset Nat) (vnode : Nat → Vnode) (pCwd : Nat → Option Nat)
    (slab : Slab) : FileInv [] (bootFiles procs vnode pCwd slab) := by
  refine ⟨⟨?_, ?_, ?_, ?_⟩, ?_, ?_, ?_, ?_, ?_, ?_⟩ <;> simp [bootFiles]

/-- Counts, files and vnodes between system calls. -/
structure FilesExact (s : FileSys) : Prop where
  counted : ∀ f ∈ s.allocated, (s.file f).fRefcount = s.slots f
  freed : ∀ f, f ∈ s.allocated ↔ 0 < s.slots f
  open_ : ∀ f ∈ s.allocated, ∃ v pre, (s.file f).fVnode = some v ∧ Clears (s.serial f) pre ∧
    s.events (s.serial f) = .found (s.serial f) v :: pre
  gone : ∀ k < s.nserial, (∀ f ∈ s.allocated, s.serial f ≠ k) → Over (s.events k) k

theorem FileInv.exact {s : FileSys} (h : FileInv [] s) : FilesExact s where
  counted _ hf := h.counted.count_eq_census hf
  freed _ := h.counted.census_pos_iff.symm
  open_ f hf := by
    obtain ⟨v, hv, pre, hpre, hev⟩ := h.lives f hf
    have hpos : s.slots f ≠ 0 := (h.counted.census_pos_iff.mpr hf).ne'
    exact ⟨v, pre, hv, hpre, by rw [hev, if_neg hpos, append_nil]⟩
  gone := h.overs

/-- **Open files.**  In every state between system calls, of every run from a state without open
files, each `file_t` that is allocated has as many references as slots that point to it, one at
least; every `file_t` that ever was is either one of those, or was freed when its last slot was
cleared, and its vnode was released once, then. -/
theorem file_refcounts {procs : Finset Nat} {vnode : Nat → Vnode} {pCwd : Nat → Option Nat}
    {slab : Slab} {s : FileSys}
    (hr : Lts.Run FsLegal fsStep (bootFiles procs vnode pCwd slab) s) : FilesExact s :=
  FileInv.exact (hr.invariant (FileInv.boot ..) fun _ _ _ h hc hs => fsStep_yields h hc _ hs)

def plainFile : Vnode := ⟨sIfreg, 100, 1, 0, false, true, true, true, false⟩

def twoFiles : Slab where
  alloc := fun A => if 100 ∉ A then some 100 else if 101 ∉ A then some 101 else none
  fresh := fun A a h => by
    split at h
    · cases h; assumption
    · split at h
      · cases h; assumption
      · cases h

/-- The process 1 opens a file, duplicates the descriptor, fails to open another one, and forks; it
reads and closes its two descriptors, and the child moves one of its own. -/
theorem file_refcounts_fork : ∃ s,
    Lts.Run FsLegal fsStep (bootFiles {1} (fun _ => plainFile) (fun _ => some 9) twoFiles) s ∧
    s.pFiles (1, 0) = none ∧ s.pFiles (1, 1) = none ∧
    s.pFiles (2, 0) = some 100 ∧ s.pFiles (2, 1) = none ∧ s.pFiles (2, 5) = some 100 ∧
    (s.file 100).fRefcount = 2 ∧ s.nserial = 2 ∧ FilesExact s := by
  obtain ⟨s, hs, h1, h2, h3, h4, h5, h6, h7⟩ : ∃ s, Lts.Run FsLegal fsStep
      (bootFiles {1} (fun _ => plainFile) (fun _ => some 9) twoFiles) s ∧
      s.pFiles (1, 0) = none ∧ s.pFiles (1, 1) = none ∧
        s.pFiles (2, 0) = some 100 ∧ s.pFiles (2, 1) = none ∧ s.pFiles (2, 5) = some 100 ∧
        (s.file 100).fRefcount = 2 ∧ s.nserial = 2 :=
    Lts.exists_run [.open_ 1 oRdwr ⟨0, 7, true⟩, .dup 1 0, .open_ 1 oRdonly ⟨-2, 0, true⟩,
      .fork 1 (some 2) 3, .read 1 1 10 10, .close 1 0, .close 1 1, .dup2 2 1 5,
      .close 2 1] (by decide +kernel)
  exact ⟨s, hs, h1, h2, h3, h4, h5, h6, h7, file_refcounts hs⟩

end Weenix.Fs
