/-
# One vnode per file

In every interleaving of threads in `vget` and `vput` there is at most one vnode on the in-use list
for a file, and the file system sees its `read_vnode` and `delete_vnode` in turn.

**The invariant** (`VnodeInv`).  A vnode on the list is in one of three stages.  While it is `live`
it is not busy and its reference count is the number of references and resident pages; while a
thread loads it or tears it down it is busy and has neither.  The stage names that thread, so there
is one; and the number of calls and returns that the file system has seen for the file, modulo four,
is the stage (`LogOk`).

**The steps.**  All but two of them change one vnode that is on the list and leave the others alone:
`VnodeInv.change` is the frame for these.  The other two put a vnode on the list (`VnodeInv.load`)
and take it off (`VnodeInv.free`).
-/
import Mathlib.Data.List.Nodup
import Weenix.Lib.Run
import Weenix.Fs.Vnode

namespace Weenix.VnodeTable

open List

variable {e : FsEvent} {id : Ident} {n : Nat} {v : Vnode} {c : VnodeCall}

/-! ## 1. References -/

/-- The active references to a vnode. -/
def refsTo (refs : List (Option Nat × Nat)) (vn : Nat) : Nat := refs.countP fun r => r.2 = vn

section
variable {refs : List (Option Nat × Nat)} {vn b : Nat} {o : Option Nat}

theorem refsTo_cons (o : Option Nat) (vn b : Nat) (refs : List (Option Nat × Nat)) :
    refsTo ((o, vn) :: refs) b = refsTo refs b + if vn = b then 1 else 0 := by
  simp [refsTo, countP_cons]

theorem refsTo_erase (hmem : (o, vn) ∈ refs) (b : Nat) :
    refsTo (refs.erase (o, vn)) b + (if vn = b then 1 else 0) = refsTo refs b := by
  rw [refsTo, refsTo, (perm_cons_erase hmem).countP_eq, countP_cons]
  simp

theorem refsTo_pos (hmem : (o, vn) ∈ refs) : 0 < refsTo refs vn :=
  countP_pos_iff.mpr ⟨(o, vn), hmem, by simp⟩

end

/-! ## 2. The log -/

/-- What the file system has seen of a file. -/
def events (log : List (Ident × FsEvent)) (id : Ident) : List FsEvent :=
  (log.filter fun e => e.1 = id).map Prod.snd

/-- `read_vnode` and `delete_vnode` in turn. -/
def fsCycle (i : Nat) : FsEvent :=
  match i % 4 with
  | 0 => .readCall
  | 1 => .readRet
  | 2 => .deleteCall
  | _ => .deleteRet

/-- Calls and returns come in the order of `fsCycle`. -/
def Alternating (l : List FsEvent) : Prop := l = (List.range l.length).map fsCycle

theorem Alternating.push {l : List FsEvent} (h : Alternating l) (he : e = fsCycle l.length) :
    Alternating (l ++ [e]) := by
  rw [Alternating, length_append, length_singleton, range_succ, map_append, ← h, he]
  rfl

theorem events_push (log : List (Ident × FsEvent)) (id : Ident) (e : FsEvent) (id' : Ident) :
    events (log ++ [(id, e)]) id' = events log id' ++ if id = id' then [e] else [] := by
  unfold events
  by_cases hid : id = id' <;> simp [filter_append, hid]

theorem fsCycle_mod (i : Nat) : fsCycle i = fsCycle (i % 4) := by
  unfold fsCycle
  rw [Nat.mod_mod]

/-- The number of events in a round that have been at this stage. -/
def Stage.no : Stage → Nat
  | .loading _ => 1
  | .live => 2
  | .dying _ => 3

theorem Stage.no_lt (st : Stage) : st.no < 4 := by
  cases st <;> simp [Stage.no]

structure LogOk (inuse : List Nat) (vnode : Nat → Vnode) (log : List (Ident × FsEvent)) : Prop where
  alternating : ∀ id, Alternating (events log id)
  on : ∀ a ∈ inuse, (events log (vnode a).ident).length % 4 = (vnode a).stage.no
  off : ∀ id, (∀ a ∈ inuse, (vnode a).ident ≠ id) → (events log id).length % 4 = 0

section
variable {inuse : List Nat} {vnode : Nat → Vnode} {log : List (Ident × FsEvent)}
  {a : Nat} {v : Vnode}

theorem LogOk.push_alternating (h : LogOk inuse vnode log)
    (he : e = fsCycle ((events log id).length % 4)) (id' : Ident) :
    Alternating (events (log ++ [(id, e)]) id') := by
  rw [events_push]
  split
  · rename_i hid
    subst hid
    exact (h.alternating id).push (by rw [he, ← fsCycle_mod])
  · rw [append_nil]
    exact h.alternating id'

theorem update_ident (hident : v.ident = (vnode a).ident) (b : Nat) :
    (update vnode a v b).ident = (vnode b).ident := by
  obtain rfl | hne := eq_or_ne b a
  · rw [update_self, hident]
  · rw [update_of_ne hne]

section
variable (h : LogOk inuse vnode log)
include h

theorem LogOk.edit (hident : v.ident = (vnode a).ident) (hstage : v.stage = (vnode a).stage) :
    LogOk inuse (update vnode a v) log where
  alternating := h.alternating
  on b hb := by
    rw [update_ident hident, h.on b hb]
    obtain rfl | hne := eq_or_ne b a
    · rw [update_self, hstage]
    · rw [update_of_ne hne]
  off id hid := by
    simp only [update_ident hident] at hid
    exact h.off id hid

/-- The first event of a vnode, with which it is put on the list. -/
theorem LogOk.load (hnew : a ∉ inuse) (hid : ∀ b ∈ inuse, (vnode b).ident ≠ v.ident)
    (hstage : v.stage.no = 1) :
    LogOk (a :: inuse) (update vnode a v) (log ++ [(v.ident, .readCall)]) where
  alternating := h.push_alternating (by rw [h.off _ hid]; rfl)
  on b hb := by
    obtain rfl | hb := mem_cons.mp hb
    · have hoff := h.off _ hid
      rw [update_self, events_push, if_pos rfl, length_append, length_singleton]
      omega
    · have hne : b ≠ a := fun heq => hnew (heq ▸ hb)
      rw [update_of_ne hne, events_push, if_neg (hid b hb).symm, append_nil]
      exact h.on b hb
  off id hoff := by
    have ha := hoff a (.head _)
    rw [update_self] at ha
    rw [events_push, if_neg ha, append_nil]
    refine h.off id fun b hb => ?_
    have hne : b ≠ a := fun heq => hnew (heq ▸ hb)
    have hb' := hoff b (.tail _ hb)
    rwa [update_of_ne hne] at hb'

variable (hunique : ∀ a ∈ inuse, ∀ b ∈ inuse, (vnode a).ident = (vnode b).ident → a = b)
  (ha : a ∈ inuse)
include hunique ha

theorem LogOk.advance (hident : v.ident = (vnode a).ident) (he : e = fsCycle (vnode a).stage.no)
    (hno : v.stage.no = (vnode a).stage.no + 1) :
    LogOk inuse (update vnode a v) (log ++ [((vnode a).ident, e)]) where
  alternating := h.push_alternating (by rw [h.on a ha, he])
  on b hb := by
    have hon := h.on b hb
    rw [update_ident hident, events_push]
    obtain rfl | hne := eq_or_ne b a
    · have hlt := v.stage.no_lt
      rw [update_self, if_pos rfl, length_append, length_singleton]
      omega
    · rw [update_of_ne hne, if_neg fun heq => hne (hunique a ha b hb heq).symm, append_nil, hon]
  off id hid := by
    simp only [update_ident hident] at hid
    rw [events_push, if_neg (hid a ha), append_nil]
    exact h.off id hid

/-- The last event of a vnode, with which it is taken off the list. -/
theorem LogOk.free (hnodup : inuse.Nodup) (hstage : (vnode a).stage.no = 3) :
    LogOk (inuse.erase a) vnode (log ++ [((vnode a).ident, .deleteRet)]) where
  alternating := h.push_alternating (by rw [h.on a ha, hstage]; rfl)
  on b hb := by
    obtain ⟨hne, hb⟩ := hnodup.mem_erase_iff.mp hb
    rw [events_push, if_neg fun heq => hne (hunique a ha b hb heq).symm, append_nil]
    exact h.on b hb
  off id hoff := by
    have hon := h.on a ha
    rw [events_push]
    split
    · rename_i hid
      subst hid
      rw [length_append, length_singleton]
      omega
    · rename_i hid
      rw [append_nil]
      refine h.off id fun b hb => ?_
      obtain rfl | hne := eq_or_ne b a
      · exact hid
      · exact hoff b (hnodup.mem_erase_iff.mpr ⟨hne, hb⟩)

end

end

/-! ## 3. The invariant -/

structure VnodeOk (v : Vnode) (n : Nat) : Prop where
  nrespages : 0 ≤ v.vnNrespages
  live : v.stage = .live → v.busy = false ∧ v.vnRefcount = n + v.vnNrespages ∧ 0 < v.vnRefcount
  busy : v.stage ≠ .live → v.busy = true ∧ v.vnRefcount = 0 ∧ v.vnNrespages = 0 ∧ n = 0

theorem VnodeOk.stage_of_not_busy (h : VnodeOk v n) (hbusy : v.busy = false) : v.stage = .live := by
  by_contra hne
  rw [(h.busy hne).1] at hbusy
  cases hbusy

theorem VnodeOk.stage_of_pos (h : VnodeOk v n) (hpos : 0 < n ∨ 0 < v.vnNrespages) :
    v.stage = .live := by
  by_contra hne
  obtain ⟨-, -, hpages, hn⟩ := h.busy hne
  omega

/-- What a thread's place says about the vnode it is at. -/
def ThreadOk (inuse : List Nat) (vnode : Nat → Vnode) (refs : List (Option Nat × Nat)) (t : Nat) :
    Thread → Prop
  | .reading vn => vn ∈ inuse ∧ (vnode vn).stage = .loading t
  | .deleting vn => vn ∈ inuse ∧ (vnode vn).stage = .dying t
  | .uncaching vn => (some t, vn) ∈ refs
  | _ => True

/-- The last step did not end a `vget`, or it returned a vnode of this file that is not busy. -/
def RetOk (inuse : List Nat) (vnode : Nat → Vnode) (ret : Option (Ident × Nat)) : Prop :=
  ∀ id vn, ret = some (id, vn) → vn ∈ inuse ∧ (vnode vn).busy = false ∧ (vnode vn).ident = id

structure VnodeInv (s : VnodeSys) : Prop where
  nodup : s.vnodeInuseList.Nodup
  unique : ∀ a ∈ s.vnodeInuseList, ∀ b ∈ s.vnodeInuseList,
    (s.vnode a).ident = (s.vnode b).ident → a = b
  vnodes : ∀ a ∈ s.vnodeInuseList, VnodeOk (s.vnode a) (refsTo s.refs a)
  refs : ∀ r ∈ s.refs, r.2 ∈ s.vnodeInuseList
  threads : ∀ t, ThreadOk s.vnodeInuseList s.vnode s.refs t (s.thread t)
  log : LogOk s.vnodeInuseList s.vnode s.log
  ret : RetOk s.vnodeInuseList s.vnode s.ret

theorem retOk_none {inuse : List Nat} {vnode : Nat → Vnode} : RetOk inuse vnode none := by
  intro id vn h
  cases h

theorem vnodeInv_init : VnodeInv vnodeInit where
  nodup := .nil
  unique := by intro a ha; cases ha
  vnodes := by intro a ha; cases ha
  refs := by intro r hr; cases hr
  threads _ := trivial
  log := ⟨fun _ => rfl, (by intro a ha; cases ha), fun _ _ => rfl⟩
  ret := retOk_none

section
variable {inuse inuse' : List Nat} {vnode vnode' : Nat → Vnode}
  {refs refs' : List (Option Nat × Nat)} {t : Nat}
  {th : Thread}

/-- A thread's place is not affected by what happens to vnodes that it neither loads nor
tears down. -/
theorem ThreadOk.frame (h : ThreadOk inuse vnode refs t th)
    (hvn : ∀ b ∈ inuse, (vnode b).stage = .loading t ∨ (vnode b).stage = .dying t →
      b ∈ inuse' ∧ (vnode' b).stage = (vnode b).stage)
    (hrefs : ∀ b, (some t, b) ∈ refs → (some t, b) ∈ refs') :
    ThreadOk inuse' vnode' refs' t th := by
  cases th with
  | reading vn =>
    obtain ⟨hin, hstage⟩ := hvn vn h.1 (.inl h.2)
    exact ⟨hin, hstage.trans h.2⟩
  | deleting vn =>
    obtain ⟨hin, hstage⟩ := hvn vn h.1 (.inr h.2)
    exact ⟨hin, hstage.trans h.2⟩
  | uncaching vn => exact hrefs vn h
  | idle | finding _ | waiting _ _ => trivial

end

/-! ## 4. Changes to the list -/

section
variable {s : VnodeSys} {a t : Nat} {v : Vnode} {refs : List (Option Nat × Nat)}
  {log : List (Ident × FsEvent)}
  {ret : Option (Ident × Nat)}

variable (h : VnodeInv s) (waitq : Nat → List Nat)
include h

/-- The step of a thread at a vnode `a` on the list: `a` becomes `v`, and the thread
goes to `th`. -/
theorem VnodeInv.change (ha : a ∈ s.vnodeInuseList) (hv : VnodeOk v (refsTo refs a))
    (hident : v.ident = (s.vnode a).ident) (hother : ∀ b ≠ a, refsTo refs b = refsTo s.refs b)
    (hstage : v.stage = (s.vnode a).stage ∨ (s.vnode a).stage = .live ∨
      (s.vnode a).stage = .loading t)
    (hkept : ∀ t' ≠ t, ∀ b, (some t', b) ∈ s.refs → (some t', b) ∈ refs)
    (hlog : LogOk s.vnodeInuseList (update s.vnode a v) log) (th : Thread)
    (hth : ThreadOk s.vnodeInuseList (update s.vnode a v) refs t th)
    (hret : RetOk s.vnodeInuseList (update s.vnode a v) ret) :
    VnodeInv { s with
      vnode := update s.vnode a v
      thread := update s.thread t th
      refs := refs
      log := log
      ret := ret } where
  nodup := h.nodup
  unique b hb c hc := by
    simp only [update_ident hident]
    exact h.unique b hb c hc
  vnodes b hb := by
    dsimp only
    obtain rfl | hne := eq_or_ne b a
    · rw [update_self]
      exact hv
    · rw [update_of_ne hne, hother b hne]
      exact h.vnodes b hb
  refs := by
    rintro ⟨o, b⟩ hr
    obtain rfl | hne := eq_or_ne b a
    · exact ha
    · have hpos : 0 < refsTo s.refs b := by
        rw [← hother b hne]
        exact refsTo_pos hr
      obtain ⟨r, hmem, hb⟩ := countP_pos_iff.mp hpos
      have hin := h.refs r hmem
      rwa [of_decide_eq_true hb] at hin
  threads t' := by
    dsimp only
    obtain rfl | hne := eq_or_ne t' t
    · rw [update_self]
      exact hth
    · rw [update_of_ne hne]
      refine (h.threads t').frame (fun b hb hbusy => ⟨hb, ?_⟩) (hkept t' hne)
      obtain rfl | hba := eq_or_ne b a
      · rw [update_self]
        -- what `t'` is at is not `live`, and not loaded by `t`
        obtain heq | heq | heq := hstage
        · exact heq
        · simp [heq] at hbusy
        · simp [heq, hne.symm] at hbusy
      · rw [update_of_ne hba]
  log := hlog
  ret := hret

theorem VnodeInv.load (hnew : a ∉ s.vnodeInuseList)
    (hid : ∀ b ∈ s.vnodeInuseList, (s.vnode b).ident ≠ id) :
    VnodeInv { s with
      vnodeInuseList := a :: s.vnodeInuseList
      vnode := update s.vnode a ⟨id, true, 0, 0, .loading t⟩
      vnWaitq := waitq
      thread := update s.thread t (.reading a)
      log := s.log ++ [(id, .readCall)]
      ret := none } := by
  have hne : ∀ b ∈ s.vnodeInuseList, b ≠ a := fun b hb heq => hnew (heq ▸ hb)
  refine ⟨nodup_cons.mpr ⟨hnew, h.nodup⟩, ?_, ?_, fun r hr => mem_cons_of_mem a (h.refs r hr), ?_,
    h.log.load hnew hid rfl, retOk_none⟩
  · intro b hb c hc hbc
    dsimp only at hbc
    obtain rfl | hb' := mem_cons.mp hb <;> obtain rfl | hc' := mem_cons.mp hc
    · rfl
    · rw [update_self, update_of_ne (hne c hc')] at hbc
      exact absurd hbc.symm (hid c hc')
    · rw [update_self, update_of_ne (hne b hb')] at hbc
      exact absurd hbc (hid b hb')
    · rw [update_of_ne (hne b hb'), update_of_ne (hne c hc')] at hbc
      exact h.unique b hb' c hc' hbc
  · intro b hb
    dsimp only
    obtain rfl | hb := mem_cons.mp hb
    · rw [update_self]
      have hnone : refsTo s.refs b = 0 := by
        refine countP_eq_zero.mpr fun r hr heq => hnew ?_
        have hin := h.refs r hr
        rwa [of_decide_eq_true heq] at hin
      exact ⟨Int.le_refl 0, nofun, fun _ => ⟨rfl, rfl, rfl, hnone⟩⟩
    · rw [update_of_ne (hne b hb)]
      exact h.vnodes b hb
  · intro t'
    dsimp only
    obtain rfl | hne' := eq_or_ne t' t
    · rw [update_self]
      exact ⟨.head _, by rw [update_self]⟩
    · rw [update_of_ne hne']
      refine (h.threads t').frame (fun b hb _ => ⟨mem_cons_of_mem a hb, ?_⟩) fun b hb => hb
      rw [update_of_ne (hne b hb)]

/-- A vnode is taken off the list, and some threads are made runnable. -/
theorem VnodeInv.free (ha : a ∈ s.vnodeInuseList) (hstage : (s.vnode a).stage = .dying t)
    (woken : List Nat) :
    VnodeInv { s with
      vnodeInuseList := s.vnodeInuseList.erase a
      vnWaitq := waitq
      thread := update (fun t' => if t' ∈ woken then wake (s.thread t') else s.thread t') t .idle
      log := s.log ++ [((s.vnode a).ident, .deleteRet)]
      ret := none } := by
  have hdying : (s.vnode a).stage ≠ .live := by rw [hstage]; nofun
  obtain ⟨-, -, -, hnone⟩ := (h.vnodes a ha).busy hdying
  refine ⟨h.nodup.erase a, fun b hb c hc =>
    h.unique b (mem_of_mem_erase hb) c (mem_of_mem_erase hc),
    fun b hb => h.vnodes b (mem_of_mem_erase hb), fun r hr => ?_, fun t' => ?_,
    h.log.free h.unique ha h.nodup (by rw [hstage]; rfl), retOk_none⟩
  · refine h.nodup.mem_erase_iff.mpr ⟨fun heq => ?_, h.refs r hr⟩
    exact countP_eq_zero.mp hnone r hr (decide_eq_true heq)
  · dsimp only
    obtain rfl | hne := eq_or_ne t' t
    · rw [update_self]
      trivial
    · rw [update_of_ne hne]
      have hkept : ThreadOk (s.vnodeInuseList.erase a) s.vnode s.refs t' (s.thread t') := by
        refine (h.threads t').frame (fun b hb hbusy => ⟨?_, rfl⟩) fun b hb => hb
        refine h.nodup.mem_erase_iff.mpr ⟨?_, hb⟩
        rintro rfl
        simp [hstage, hne.symm] at hbusy
      split
      · revert hkept
        cases s.thread t' <;> exact fun hk => hk
      · exact hkept

/-- No vnode changes: a thread goes to another place, or a reference changes hands. -/
theorem VnodeInv.quiet {refs : List (Option Nat × Nat)} {thread : Nat → Thread}
    (hrefs : ∀ b, refsTo refs b = refsTo s.refs b)
    (hth : ∀ t, ThreadOk s.vnodeInuseList s.vnode refs t (thread t)) :
    VnodeInv { s with thread := thread, refs := refs, vnWaitq := waitq, ret := none } := by
  refine ⟨h.nodup, h.unique, fun a ha => ?_, fun r hr => ?_, hth, h.log, retOk_none⟩
  · rw [show refsTo refs a = refsTo s.refs a from hrefs a]
    exact h.vnodes a ha
  · have hpos : 0 < refsTo s.refs r.2 := by
      rw [← hrefs]
      exact refsTo_pos (o := r.1) hr
    obtain ⟨r', hmem, hb⟩ := countP_pos_iff.mp hpos
    have hin := h.refs r' hmem
    rwa [of_decide_eq_true hb] at hin

/-- A thread that holds nothing goes to another place. -/
theorem VnodeInv.goto (th : Thread) (hth : ThreadOk s.vnodeInuseList s.vnode s.refs t th) :
    VnodeInv { s with thread := update s.thread t th, vnWaitq := waitq, ret := none } := by
  refine h.quiet waitq (fun b => rfl) (fun t' => ?_)
  obtain rfl | hne := eq_or_ne t' t
  · rwa [update_self]
  · rw [update_of_ne hne]
    exact h.threads t'

end

/-! ## 5. The steps -/

section
variable {s : VnodeSys} {t vn : Nat}

theorem vref_eq (hpos : 0 < (s.vnode vn).vnRefcount) :
    vref s vn = .ok (s.setVnode vn { s.vnode vn with vnRefcount := (s.vnode vn).vnRefcount +
      1 }) := by
  rw [vref, kassert_of (by simpa using hpos), ok_bind]
  rfl

theorem vputAsserts_eq (h0 : 0 ≤ v.vnNrespages) (h1 : v.vnNrespages < v.vnRefcount)
    (h2 : v.busy = false) : vputAsserts v = .ok () := by
  rw [vputAsserts, kassert_of (by simpa using h0), ok_bind, kassert_of (by simpa using h1), ok_bind,
    kassert_of (by rw [h2]; rfl)]

section
variable (h : VnodeInv s)
include h

theorem VnodeInv.live_of_ref {o : Option Nat} (hmem : (o, vn) ∈ s.refs) :
    vn ∈ s.vnodeInuseList ∧ (s.vnode vn).stage = .live := by
  have hin := h.refs _ hmem
  exact ⟨hin, (h.vnodes vn hin).stage_of_pos (.inl (refsTo_pos hmem))⟩

theorem VnodeInv.addRef (hin : vn ∈ s.vnodeInuseList)
    (hlive : (s.vnode vn).stage = .live) (th : Thread)
    (hth : ThreadOk s.vnodeInuseList s.vnode s.refs t th) {ret : Option (Ident × Nat)}
    (hret : ∀ id b, ret = some (id, b) → b = vn ∧ (s.vnode vn).ident = id) :
    VnodeInv { s with
      vnode := update s.vnode vn { s.vnode vn with vnRefcount := (s.vnode vn).vnRefcount + 1 }
      thread := update s.thread t th
      refs := (none, vn) :: s.refs
      ret := ret } := by
  have hok := h.vnodes vn hin
  obtain ⟨hbusy, hcount, hpos⟩ := hok.live hlive
  have hrefs : refsTo ((none, vn) :: s.refs) vn = refsTo s.refs vn + 1 := by
    rw [refsTo_cons, if_pos rfl]
  have hv : VnodeOk { s.vnode vn with vnRefcount := (s.vnode vn).vnRefcount + 1 }
    (refsTo ((none, vn) :: s.refs) vn) :=
    ⟨hok.nrespages, fun _ => ⟨hbusy, (by simp only; omega), (by simp only; omega)⟩,
      fun hne => absurd hlive hne⟩
  refine h.change hin hv rfl (fun b hb => ?_) (.inl rfl) (fun t' _ b hb => .tail _ hb)
    (h.log.edit rfl rfl) th
    (hth.frame (fun b hb hbusy => ⟨hb, ?_⟩) fun b hb => .tail _ hb) ?_
  · rw [refsTo_cons, if_neg hb.symm, Nat.add_zero]
  · obtain rfl | hne := eq_or_ne b vn
    · rw [update_self]
    · rw [update_of_ne hne]
  · intro id b hr
    obtain ⟨rfl, hid⟩ := hret id b hr
    rw [update_self]
    exact ⟨hin, hbusy, hid⟩

theorem vgetFind_spec {slab : Option Nat} (hslab : ∀ vn ∈ slab, vn ∉ s.vnodeInuseList) :
    ∃ u, vgetFind s t id slab = .ok u ∧ VnodeInv u := by
  unfold vgetFind
  split
  · rename_i vn hfind
    have hin := mem_of_find?_eq_some hfind
    have hid : (s.vnode vn).ident = id := by simpa using find?_some hfind
    split
    · exact ⟨_, rfl, h.goto _ (.waiting vn id) trivial⟩
    · rename_i hbusy
      have hlive := (h.vnodes vn hin).stage_of_not_busy (Bool.not_eq_true _ ▸ hbusy)
      rw [vref_eq ((h.vnodes vn hin).live hlive).2.2, ok_bind]
      refine ⟨_, rfl, h.addRef hin hlive .idle trivial ?_⟩
      rintro id' b ⟨⟩
      exact ⟨rfl, hid⟩
  · rename_i hfind
    have hnone : ∀ b ∈ s.vnodeInuseList, (s.vnode b).ident ≠ id := fun b hb => by
      simpa using find?_eq_none.mp hfind b hb
    split
    · exact ⟨_, rfl, h.quiet s.vnWaitq (fun _ => rfl) h.threads⟩
    · exact ⟨_, rfl, h.load _ (hslab _ rfl) hnone⟩

theorem vgetLoaded_inv (hth : s.thread t = .reading vn) : VnodeInv (vgetLoaded s t vn) := by
  have hok := h.threads t
  rw [hth] at hok
  obtain ⟨hin, hstage⟩ := hok
  obtain ⟨-, -, hpages, hnone⟩ := (h.vnodes vn hin).busy (by rw [hstage]; nofun)
  have hrefs : refsTo ((none, vn) :: s.refs) vn = 1 := by rw [refsTo_cons, if_pos rfl, hnone]
  have hv : VnodeOk { s.vnode vn with busy := false, vnRefcount := 1, stage := .live }
      (refsTo ((none, vn) :: s.refs) vn) :=
    ⟨(h.vnodes vn hin).nrespages, fun _ =>
      ⟨rfl, (by simp only [hrefs, hpages]; rfl), Int.zero_lt_one⟩, fun hne => absurd rfl hne⟩
  refine h.change hin hv rfl (fun b hb => ?_) (.inr (.inr hstage))
    (fun t' _ b hb => .tail _ hb) ?_ .idle trivial ?_
  · rw [refsTo_cons, if_neg hb.symm, Nat.add_zero]
  · exact h.log.advance h.unique hin (by rfl) (by rw [hstage]; rfl) (by rw [hstage]; rfl)
  · rintro id b ⟨⟩
    rw [update_self]
    exact ⟨hin, rfl, rfl⟩

/-- The counts of a live vnode change, and perhaps who holds a reference to it. -/
theorem VnodeInv.adjust (hin : vn ∈ s.vnodeInuseList)
    (hlive : (s.vnode vn).stage = .live) (rc np : Int)
    (refs : List (Option Nat × Nat)) (hnp : 0 ≤ np) (hrc : rc = refsTo refs vn + np) (hpos : 0 < rc)
    (hother : ∀ b ≠ vn, refsTo refs b = refsTo s.refs b)
    (hkept : ∀ t b, (some t, b) ∈ s.refs → (some t, b) ∈ refs) :
    VnodeInv { s with
      vnode := update s.vnode vn { s.vnode vn with vnRefcount := rc, vnNrespages := np }
      refs := refs
      ret := none } := by
  obtain ⟨hbusy, -, -⟩ := (h.vnodes vn hin).live hlive
  have hv : VnodeOk { s.vnode vn with vnRefcount := rc, vnNrespages := np } (refsTo refs vn) :=
    ⟨hnp, fun _ => ⟨hbusy, hrc, hpos⟩, fun hne => absurd hlive hne⟩
  have hstage :
    ∀ b, (update s.vnode vn { s.vnode vn with vnRefcount := rc, vnNrespages := np } b).stage =
      (s.vnode b).stage := fun b => by
    obtain rfl | hne := eq_or_ne b vn
    · rw [update_self]
    · rw [update_of_ne hne]
  have hu := h.change hin hv rfl hother (.inl rfl) (fun t' _ b hb => hkept t' b hb)
    (h.log.edit rfl rfl) (s.thread 0)
    ((h.threads 0).frame (fun b hb _ => ⟨hb, hstage b⟩) (hkept 0)) retOk_none
  rwa [update_eq_self] at hu

section
variable (hmem : (some t, vn) ∈ s.refs)
include hmem

theorem vputDrop_spec (hlast : (s.vnode vn).vnRefcount = 1 → (s.vnode vn).vnNrespages = 0) :
    ∃ u, vputDrop s t vn = .ok u ∧ VnodeInv u := by
  obtain ⟨hin, hlive⟩ := h.live_of_ref hmem
  have hok := h.vnodes vn hin
  obtain ⟨hbusy, hcount, hpos⟩ := hok.live hlive
  have herase := refsTo_erase hmem vn
  rw [if_pos rfl] at herase
  have hother : ∀ b ≠ vn, refsTo (s.refs.erase (some t, vn)) b = refsTo s.refs b := fun b hb => by
    simpa [hb.symm] using refsTo_erase hmem b
  have hkept : ∀ t' ≠ t, ∀ b, (some t', b) ∈ s.refs → (some t', b) ∈ s.refs.erase (some t, vn) :=
    fun t' hne b hb => (mem_erase_of_ne (by simp [hne])).mpr hb
  unfold vputDrop
  dsimp only [VnodeSys.setVnode]
  simp only [update_self, update_idem]
  split
  · rename_i hmore
    have hv : VnodeOk { s.vnode vn with vnRefcount := (s.vnode vn).vnRefcount - 1 }
        (refsTo (s.refs.erase (some t, vn)) vn) :=
      ⟨hok.nrespages, fun _ => ⟨hbusy, (by simp only; omega), hmore⟩, fun hne => absurd hlive hne⟩
    exact ⟨_, rfl,
      h.change hin hv rfl hother (.inl rfl) hkept (h.log.edit rfl rfl) .idle trivial retOk_none⟩
  · have hone : (s.vnode vn).vnRefcount = 1 := by omega
    have hpages := hlast hone
    rw [kassert_of (by simp [hone]), ok_bind, kassert_of (by simp [hpages]), ok_bind]
    have hv : VnodeOk { s.vnode vn
      with vnRefcount := (s.vnode vn).vnRefcount - 1, busy := true, stage := .dying t }
        (refsTo (s.refs.erase (some t, vn)) vn) :=
      ⟨hok.nrespages, nofun, fun _ => ⟨rfl, (by simp only; omega), hpages, by omega⟩⟩
    refine ⟨_, rfl, h.change hin hv rfl hother (.inr (.inl hlive)) hkept ?_ (.deleting vn)
      ⟨hin, by rw [update_self]⟩ retOk_none⟩
    exact h.log.advance h.unique hin (by rfl) (by rw [hlive]; rfl) (by rw [hlive]; rfl)

theorem vput_spec (query : Bool) : ∃ u, vput s t vn query = .ok u ∧ VnodeInv u := by
  obtain ⟨hin, hlive⟩ := h.live_of_ref hmem
  obtain ⟨hbusy, hcount, -⟩ := (h.vnodes vn hin).live hlive
  have hpos := refsTo_pos hmem
  have hpages := (h.vnodes vn hin).nrespages
  unfold vput
  rw [vputAsserts_eq hpages (by omega) hbusy, ok_bind]
  split
  · exact ⟨_, rfl, h.goto s.vnWaitq (.uncaching vn) hmem⟩
  · exact vputDrop_spec h hmem fun hone => by omega

theorem vputUncache_spec (hpages : 0 < (s.vnode vn).vnNrespages) :
    ∃ u, vputUncache s vn = .ok u ∧ VnodeInv u := by
  obtain ⟨hin, hlive⟩ := h.live_of_ref hmem
  obtain ⟨hbusy, hcount, -⟩ := (h.vnodes vn hin).live hlive
  have hpos := refsTo_pos hmem
  have hasserts :
    vputAsserts { s.vnode vn with vnNrespages := (s.vnode vn).vnNrespages - 1 } = .ok () :=
    vputAsserts_eq (by simp only; omega) (by simp only; omega) hbusy
  unfold vputUncache
  dsimp only [VnodeSys.setVnode]
  simp only [update_self, update_idem]
  rw [hasserts, ok_bind, if_neg (by omega), if_pos (by omega)]
  exact ⟨_, rfl,
    h.adjust hin hlive _ _ _ (by omega) (by omega) (by omega) (fun _ _ => rfl) fun _ _ hb => hb⟩

theorem vputUncached_spec (hpages : (s.vnode vn).vnNrespages = 0)
    (hone : (s.vnode vn).vnRefcount = 1) :
    ∃ u, vputUncached s t vn = .ok u ∧ VnodeInv u := by
  unfold vputUncached
  rw [kassert_of (by simp [hpages]), ok_bind, kassert_of (by simp [hone]), ok_bind]
  exact vputDrop_spec h hmem fun _ => hpages

end

theorem vputDeleted_inv (hth : s.thread t = .deleting vn) : VnodeInv (vputDeleted s t vn) := by
  have hok := h.threads t
  rw [hth] at hok
  exact h.free _ hok.1 hok.2 (s.vnWaitq vn)

end

/-- What the steps assert that callers and threads do not see to: no one has got hold of a vnode
whose pages a thread was waiting for. -/
def vnodeAsserts (s : VnodeSys) : VnodeCall → Prop
  | .uncached _ vn => (s.vnode vn).vnNrespages = 0 ∧ (s.vnode vn).vnRefcount = 1
  | _ => True

theorem vnodeStep_spec (h : VnodeInv s) (hl : vnodeLegal s c) (ha : vnodeAsserts s c) :
    ∃ u, vnodeStep s c = .ok u ∧ VnodeInv u := by
  cases c with
  | vget t id => exact ⟨_, rfl, h.goto s.vnWaitq (.finding id) trivial⟩
  | find t id slab => exact vgetFind_spec h hl.2
  | loaded t vn => exact ⟨_, rfl, vgetLoaded_inv h hl⟩
  | vput t vn query =>
    refine vput_spec (h.quiet s.vnWaitq (fun b => ?_) (fun t' => ?_)) (.head _) query
    · rw [refsTo_cons, refsTo_erase hl.2]
    · exact (h.threads t').frame (fun b hb _ => ⟨hb, rfl⟩) fun b hb =>
        mem_cons_of_mem _ ((mem_erase_of_ne (by simp)).mpr hb)
  | freePage t vn query =>
    obtain ⟨-, hin, hpages⟩ := hl
    have hlive := (h.vnodes vn hin).stage_of_pos (.inr hpages)
    obtain ⟨-, hcount, hpos⟩ := (h.vnodes vn hin).live hlive
    have hrefs := refsTo_cons (some t) vn vn s.refs
    rw [if_pos rfl] at hrefs
    have hu := h.adjust hin hlive (s.vnode vn).vnRefcount ((s.vnode vn).vnNrespages - 1)
      ((some t, vn) :: s.refs)
      (by omega) (by omega) hpos
      (fun b hb => by rw [refsTo_cons, if_neg hb.symm, Nat.add_zero]) fun _ _ hb => .tail _ hb
    exact vput_spec hu (.head _) query
  | uncache t vn =>
    have hok := h.threads t
    rw [hl.1] at hok
    exact vputUncache_spec h hok hl.2
  | uncached t vn =>
    have hok := h.threads t
    rw [show s.thread t = .uncaching vn from hl] at hok
    exact vputUncached_spec h hok ha.1 ha.2
  | deleted t vn => exact ⟨_, rfl, vputDeleted_inv h hl⟩
  | vref vn =>
    obtain ⟨hin, hlive⟩ := h.live_of_ref hl
    obtain ⟨-, hcount, hpos⟩ := (h.vnodes vn hin).live hlive
    have hrefs := refsTo_cons none vn vn s.refs
    rw [if_pos rfl] at hrefs
    rw [vnodeStep, vref_eq hpos, ok_bind]
    dsimp only [VnodeSys.setVnode]
    exact ⟨_, rfl, h.adjust hin hlive _ _ _ (h.vnodes vn hin).nrespages (by omega) (by omega)
      (fun b hb => by rw [refsTo_cons, if_neg hb.symm, Nat.add_zero]) fun _ _ hb => .tail _ hb⟩
  | addPage vn =>
    obtain ⟨hin, hlive⟩ := h.live_of_ref hl
    obtain ⟨-, hcount, hpos⟩ := (h.vnodes vn hin).live hlive
    have hpages := (h.vnodes vn hin).nrespages
    rw [vnodeStep, vref_eq hpos, ok_bind]
    dsimp only [VnodeSys.setVnode]
    simp only [update_self, update_idem]
    exact ⟨_, rfl,
      h.adjust hin hlive _ _ _ (by omega) (by omega) (by omega) (fun _ _ => rfl) fun _ _ hb => hb⟩

theorem vnodeStep_asserts {u : VnodeSys} (h : vnodeStep s c = .ok u) : vnodeAsserts s c := by
  cases c with
  | uncached t vn =>
    obtain ⟨_, hpages, h⟩ := bind_eq_ok (show vputUncached s t vn = .ok u from h)
    obtain ⟨_, hone, -⟩ := bind_eq_ok h
    exact ⟨by simpa using kassert_eq_ok hpages, by simpa using kassert_eq_ok hone⟩
  | _ => trivial

theorem vnodeRun_inv (h : Lts.Run vnodeLegal vnodeStep vnodeInit s) : VnodeInv s := by
  refine h.invariant vnodeInv_init fun s c u hi hl hs => ?_
  obtain ⟨u', hu', hinv⟩ := vnodeStep_spec hi hl (vnodeStep_asserts hs)
  cases hs.symm.trans hu'
  exact hinv

/-- There is one vnode for a file in every state that threads in `vget` and `vput` reach: see
the parts. -/
theorem one_vnode_per_file (s : VnodeSys) (hrun : Lts.Run vnodeLegal vnodeStep vnodeInit s) :
    (s.vnodeInuseList.Nodup ∧ ∀ a ∈ s.vnodeInuseList, ∀ b ∈ s.vnodeInuseList,
      (s.vnode a).ident = (s.vnode b).ident → a = b) ∧
    (∀ a ∈ s.vnodeInuseList, (s.vnode a).busy = false → 0 < (s.vnode a).vnRefcount) ∧
    (∀ id vn, s.ret = some (id, vn) → vn ∈ s.vnodeInuseList ∧ (s.vnode vn).busy = false ∧
      (s.vnode vn).ident = id) ∧
    (∀ id, Alternating (events s.log id)) ∧
    ∀ c, vnodeLegal s c → vnodeAsserts s c → ∃ u, vnodeStep s c = .ok u := by
  have h := vnodeRun_inv hrun
  refine ⟨⟨h.nodup, h.unique⟩, fun a ha hbusy => ?_, h.ret, h.log.alternating, fun c hl ha => ?_⟩
  · have hok := h.vnodes a ha
    exact (hok.live (hok.stage_of_not_busy hbusy)).2.2
  · obtain ⟨u, hu, -⟩ := vnodeStep_spec h hl ha
    exact ⟨u, hu⟩

/-- Thread 1 loads a file, thread 2 finds it busy; the vnode is dropped and torn down, which wakes
thread 2 and has it load the file again. -/
def reloadCalls : List VnodeCall :=
  [.vget 1 (0, 5), .find 1 (0, 5) (some 100), .loaded 1 100, .vput 1 100 true, .vget 2 (0, 5),
    .find 2 (0, 5) none, .deleted 1 100, .find 2 (0, 5) (some 200), .loaded 2 200]

theorem one_vnode_per_file_reload : ∃ s, Lts.Run vnodeLegal vnodeStep vnodeInit s ∧
    s.ret = some ((0, 5), 200) ∧ (s.vnode 200).busy = false ∧
      Alternating (events s.log (0, 5)) := by
  obtain ⟨s, hrun, hret⟩ : ∃ s, Lts.Run vnodeLegal vnodeStep vnodeInit s ∧
    s.ret = some ((0, 5), 200) :=
    Lts.exists_run reloadCalls (by decide +kernel)
  obtain ⟨-, -, hok, halt, -⟩ := one_vnode_per_file s hrun
  exact ⟨s, hrun, hret, (hok _ _ hret).2.1, halt _⟩

end

end Weenix.VnodeTable
