/-
# What a chain of objects holds

`Sees m k o d`: looking for page `k` from the object `o` downwards, the first frame found holds
`d`; at the end of the chain an anonymous page is zero.  This is the meaning of an object.

`pframe_get` gives a frame of `o` itself that holds what `o` sees, and changes what no object sees
(`pframeGet_spec`), although it may add a page to `o` and another one to the bottom object.
-/
import Weenix.Vm.Shadow

namespace Weenix.Vm

variable {m : Memory} {f k' o o' : Nat} {d' : Nat → UInt8}

/-! ## 1. Well-formed chains -/

/-- Objects, chains and the hash of a memory. -/
structure Chains (m : Memory) : Prop where
  anon : ∀ o < m.nobj, (m.mmobj o).mmoOps = .anon → (m.mmobj o).mmoShadowed = none
  shadow : ∀ o < m.nobj, (m.mmobj o).mmoOps = .shadow → ∃ o' < o, (m.mmobj o).mmoShadowed = some o'
  hash : ∀ {o k f}, m.pframeHash o k = some f → o < m.nobj ∧ f < m.npframe
  inj : ∀ {o k o' k' f}, m.pframeHash o k = some f → m.pframeHash o' k' = some f → o' = o ∧ k' = k

theorem Chains.lt (h : Chains m) (ho : o < m.nobj) (hs : (m.mmobj o).mmoShadowed = some o') :
    o' < o := by
  cases hops : (m.mmobj o).mmoOps with
  | anon =>
    rw [h.anon o ho hops] at hs
    cases hs
  | shadow =>
    obtain ⟨o'', hlt, hs'⟩ := h.shadow o ho hops
    rw [hs'] at hs
    cases hs
    exact hlt

/-- New objects, each an anonymous one or in front of an older one. -/
theorem Chains.grow {m' : Memory} (h : Chains m) (hhash : m'.pframeHash = m.pframeHash)
    (hframes : m'.npframe = m.npframe) (hle : m.nobj ≤ m'.nobj)
    (hold : ∀ o < m.nobj, m'.mmobj o = m.mmobj o)
    (hnew : ∀ o, m.nobj ≤ o → o < m'.nobj →
      m'.mmobj o = ⟨.anon, none⟩ ∨ ∃ o' < o, m'.mmobj o = ⟨.shadow, some o'⟩) : Chains m' where
  anon o ho hops := by
    by_cases hlt : o < m.nobj
    · rw [hold o hlt] at hops ⊢
      exact h.anon o hlt hops
    · obtain he | ⟨o', -, he⟩ := hnew o (Nat.not_lt.mp hlt) ho
      · rw [he]
      · rw [he] at hops
        cases hops
  shadow o ho hops := by
    by_cases hlt : o < m.nobj
    · rw [hold o hlt] at hops ⊢
      exact h.shadow o hlt hops
    · obtain he | ⟨o', hlt', he⟩ := hnew o (Nat.not_lt.mp hlt) ho
      · rw [he] at hops
        cases hops
      · exact ⟨o', hlt', by rw [he]⟩
  hash {o k f} hf := by
    rw [hhash] at hf
    rw [hframes]
    exact ⟨(h.hash hf).1.trans_le hle, (h.hash hf).2⟩
  inj {o k o' k' f} h1 h2 := by
    rw [hhash] at h1 h2
    exact h.inj h1 h2

theorem Chains.anon_of_none (h : Chains m) (ho : o < m.nobj)
    (hs : (m.mmobj o).mmoShadowed = none) : (m.mmobj o).mmoOps = .anon := by
  cases hops : (m.mmobj o).mmoOps with
  | anon => rfl
  | shadow =>
    obtain ⟨o', -, hs'⟩ := h.shadow o ho hops
    rw [hs'] at hs
    cases hs

/-! ## 2. What an object sees -/

/-- The contents of page `k` as seen from an object. -/
inductive Sees (m : Memory) (k : Nat) : Nat → (Nat → UInt8) → Prop
  | resident {o f : Nat} : m.pframeHash o k = some f → Sees m k o (m.pfAddr f)
  | under {o o' : Nat} {d : Nat → UInt8} : m.pframeHash o k = none →
      (m.mmobj o).mmoShadowed = some o' → Sees m k o' d → Sees m k o d
  | zero {o : Nat} : m.pframeHash o k = none → (m.mmobj o).mmoShadowed = none → Sees m k o fun _ =>
    0

section
variable {m m' : Memory} {k o : Nat} {d d' : Nat → UInt8}

theorem Sees.unique (h : Sees m k o d) (h' : Sees m k o d') : d = d' := by
  induction h with
  | resident hf =>
    cases h' with
    | resident hf' => rw [hf] at hf'; cases hf'; rfl
    | under hn _ _ => rw [hf] at hn; cases hn
    | zero hn _ => rw [hf] at hn; cases hn
  | under hn hs _ ih =>
    cases h' with
    | resident hf' => rw [hn] at hf'; cases hf'
    | under _ hs' hd' =>
      rw [hs] at hs'
      cases hs'
      exact ih hd'
    | zero _ hs' => rw [hs] at hs'; cases hs'
  | zero hn hs =>
    cases h' with
    | resident hf' => rw [hn] at hf'; cases hf'
    | under _ hs' _ => rw [hs] at hs'; cases hs'
    | zero _ _ => rfl

theorem Sees.congr (h : Chains m) (hd : Sees m k o d) (ho : o < m.nobj)
    (hobj : ∀ o' ≤ o, m'.mmobj o' = m.mmobj o')
    (hhash : ∀ o' ≤ o, m'.pframeHash o' k = m.pframeHash o' k)
    (hdata : ∀ o' ≤ o, ∀ f, m.pframeHash o' k = some f → m'.pfAddr f = m.pfAddr f) :
    Sees m' k o d := by
  induction hd with
  | @resident o f hf =>
    rw [← hdata o le_rfl f hf]
    exact .resident ((hhash o le_rfl).trans hf)
  | @under o o' d hn hs _ ih =>
    have hlt := h.lt ho hs
    refine .under ((hhash o le_rfl).trans hn) ?_
      (ih (hlt.trans ho) (fun x hx => hobj x (by omega)) (fun x hx => hhash x (by omega))
        fun x hx => hdata x (by omega))
    rw [hobj o le_rfl]
    exact hs
  | @zero o hn hs =>
    refine .zero ((hhash o le_rfl).trans hn) ?_
    rw [hobj o le_rfl]
    exact hs

end

/-! ## 3. Adding a page -/

section
variable {m : Memory} {o k : Nat} {d : Nat → UInt8}

@[simp] theorem addPage_hash_self : (m.addPage o k d).pframeHash o k = some m.npframe := by
  simp [Memory.addPage]

theorem addPage_hash_ne (h : ¬ (o' = o ∧ k' = k)) :
    (m.addPage o k d).pframeHash o' k' = m.pframeHash o' k' := by
  simp only [Memory.addPage, if_neg h]

@[simp] theorem addPage_data_self : (m.addPage o k d).pfAddr m.npframe = d := by
  simp [Memory.addPage]

theorem addPage_data_ne (h : f ≠ m.npframe) : (m.addPage o k d).pfAddr f = m.pfAddr f := by
  simp [Memory.addPage, h]

theorem addPage_setFrame (d' : Nat → UInt8) :
    (m.addPage o k d).setFrame m.npframe d' = m.addPage o k d' := by
  simp [Memory.addPage, Memory.setFrame]

/-- The first of two frames is filled after the second was entered. -/
theorem addPage_addPage_setFrame (d' d'' : Nat → UInt8) :
    ((m.addPage o k d).addPage o' k d').setFrame m.npframe d''
      = (m.addPage o k d'').addPage o' k d' := by
  have hne : m.npframe ≠ m.npframe + 1 := by omega
  simp [Memory.addPage, Memory.setFrame, update_comm hne]

theorem addPage_sees_self : Sees (m.addPage o k d) k o d := by
  have hs : Sees (m.addPage o k d) k o _ := .resident addPage_hash_self
  rwa [addPage_data_self] at hs

/-- **A page that holds what the object sees anyway changes nothing.** -/
theorem Sees.addPage (h : Chains m) (hd : Sees m k o d) (hs : Sees m k' o' d') :
    Sees (m.addPage o k d) k' o' d' := by
  by_cases hk : o' = o ∧ k' = k
  · obtain ⟨rfl, rfl⟩ := hk
    rw [hs.unique hd]
    exact addPage_sees_self
  · induction hs with
    | @resident o' f hf =>
      have hne : f ≠ m.npframe := (h.hash hf).2.ne
      rw [← addPage_data_ne (o := o) (k := k) (d := d) hne]
      exact .resident ((addPage_hash_ne hk).trans hf)
    | @under o' o'' d' hn hsh hs' ih =>
      refine .under ((addPage_hash_ne hk).trans hn) hsh ?_
      by_cases hk' : o'' = o ∧ k' = k
      · obtain ⟨rfl, rfl⟩ := hk'
        rw [hs'.unique hd]
        exact addPage_sees_self
      · exact ih hk'
    | @zero o' hn hsh => exact .zero ((addPage_hash_ne hk).trans hn) hsh

theorem Chains.addPage (h : Chains m) (ho : o < m.nobj) (d : Nat → UInt8) :
    Chains (m.addPage o k d) := by
  have hold : ∀ {o' k'}, m.pframeHash o' k' ≠ some m.npframe := fun hf =>
    lt_irrefl _ (h.hash hf).2
  refine ⟨h.anon, h.shadow, ?_, ?_⟩
  · intro o' k' f hf
    by_cases hk : o' = o ∧ k' = k
    · obtain ⟨rfl, rfl⟩ := hk
      rw [addPage_hash_self] at hf
      cases hf
      exact ⟨ho, Nat.lt_succ_self _⟩
    · rw [addPage_hash_ne hk] at hf
      obtain ⟨h1, h2⟩ := h.hash hf
      exact ⟨h1, Nat.lt_succ_of_lt h2⟩
  · intro o1 k1 o2 k2 f h1 h2
    by_cases hk1 : o1 = o ∧ k1 = k <;> by_cases hk2 : o2 = o ∧ k2 = k
    · exact ⟨hk2.1.trans hk1.1.symm, hk2.2.trans hk1.2.symm⟩
    · obtain ⟨rfl, rfl⟩ := hk1
      rw [addPage_hash_self] at h1
      cases h1
      rw [addPage_hash_ne hk2] at h2
      exact absurd h2 hold
    · obtain ⟨rfl, rfl⟩ := hk2
      rw [addPage_hash_self] at h2
      cases h2
      rw [addPage_hash_ne hk1] at h1
      exact absurd h1 hold
    · rw [addPage_hash_ne hk1] at h1
      rw [addPage_hash_ne hk2] at h2
      exact h.inj h1 h2

end

/-! ## 4. The walk of `shadow_fillpage` -/

/-- **The walk finds what the first object sees**, or ends at an anonymous object that has no
such page. -/
theorem shadowWalk_spec {k : Nat} (h : Chains m) {d : Nat → UInt8}
    (hd : Sees m k o d) : ∀ (fuel : Nat) (temp : Option Nat), o < fuel → o < m.nobj →
    (∃ src t, shadowWalk m k fuel (some o) temp = .ok (some src, t) ∧ m.pfAddr src = d ∧
      ∃ o', m.pframeHash o' k = some src) ∨
    ∃ b ≤ o, shadowWalk m k fuel (some o) temp = .ok (none, some b) ∧
      (m.mmobj b).mmoOps = .anon ∧ m.pframeHash b k = none ∧ d = fun _ => 0 := by
  induction hd with
  | @resident o f hf =>
    intro fuel temp hfuel ho
    obtain ⟨fuel, rfl⟩ : ∃ n, fuel = n + 1 := ⟨fuel - 1, by omega⟩
    exact .inl ⟨f, temp, by simp only [shadowWalk, hf], rfl, o, hf⟩
  | @under o o' d hn hs _ ih =>
    intro fuel temp hfuel ho
    obtain ⟨fuel, rfl⟩ : ∃ n, fuel = n + 1 := ⟨fuel - 1, by omega⟩
    have hlt := h.lt ho hs
    have hstep : shadowWalk m k (fuel + 1) (some o) temp = shadowWalk m k fuel (some o')
        (some o) := by
      simp only [shadowWalk, hn, hs]
    rw [hstep]
    obtain hw | ⟨b, hb, hw⟩ := ih fuel (some o) (by omega) (by omega)
    · exact .inl hw
    · exact .inr ⟨b, by omega, hw⟩
  | @zero o hn hs =>
    intro fuel temp hfuel ho
    obtain ⟨fuel, rfl⟩ : ∃ n, fuel = n + 1 := ⟨fuel - 1, by omega⟩
    refine .inr ⟨o, le_rfl, ?_, h.anon_of_none ho hs, hn, rfl⟩
    simp only [shadowWalk, hn, hs]

/-! ## 5. `pframe_get` -/

/-- What `pframe_get(o, k)` does to the memory when `o` sees `d`. -/
structure Filled (m m' : Memory) (o k f : Nat) (d : Nat → UInt8) : Prop where
  hash : m'.pframeHash o k = some f
  data : m'.pfAddr f = d
  chains : Chains m'
  mono : ∀ {o' k' f'}, m.pframeHash o' k' = some f' → m'.pframeHash o' k' = some f'
  sees : ∀ {o' k' d'}, Sees m k' o' d' → Sees m' k' o' d'
  mmobj : m'.mmobj = m.mmobj
  nobj : m'.nobj = m.nobj
  proc : m'.proc = m.proc
  nproc : m'.nproc = m.nproc

section
variable {m : Memory} {o k : Nat} {d : Nat → UInt8}

/-- One page added, with the contents the object sees. -/
theorem Chains.filled (h : Chains m) (ho : o < m.nobj) (hnone : m.pframeHash o k = none)
    (hd : Sees m k o d) : Filled m (m.addPage o k d) o k m.npframe d := by
  refine ⟨addPage_hash_self, addPage_data_self, h.addPage ho d, ?_, Sees.addPage h hd, rfl,
    rfl, rfl, rfl⟩
  intro o' k' f' hf'
  rw [addPage_hash_ne]
  · exact hf'
  · rintro ⟨rfl, rfl⟩
    rw [hnone] at hf'
    cases hf'

/-- A second page added behind the first, for another object. -/
theorem Filled.then {m1 m2 : Memory} {f' : Nat}
    (h1 : Filled m m1 o k f d) (h2 : Filled m1 m2 o' k f' d') : Filled m m2 o k f d := by
  refine ⟨h2.mono h1.hash, ?_, h2.chains, fun hf => h2.mono (h1.mono hf),
    fun hs => h2.sees (h1.sees hs), h2.mmobj.trans h1.mmobj, h2.nobj.trans h1.nobj,
    h2.proc.trans h1.proc, h2.nproc.trans h1.nproc⟩
  have hs1 : Sees m1 k o d := h1.data ▸ .resident h1.hash
  exact (Sees.resident (h2.mono h1.hash)).unique (h2.sees hs1)

theorem pframeGet_anon {fuel : Nat} (hnone : m.pframeHash o k = none)
    (hops : (m.mmobj o).mmoOps = .anon) :
    pframeGet (fuel + 1) m o k = .ok (m.addPage o k fun _ => 0, m.npframe) := by
  have hops' : ((m.addPage o k (m.pfAddr m.npframe)).mmobj o).mmoOps = .anon := hops
  simp only [pframeGet, hnone, pframeAlloc, hops', addPage_setFrame]

/-- **`pframe_get` returns a frame of the object that holds what the object sees**, and no object
sees anything else than before. -/
theorem pframeGet_spec (h : Chains m) (ho : o < m.nobj) (hd : Sees m k o d) (fuel : Nat) :
    ∃ m' f, pframeGet (fuel + 2) m o k = .ok (m', f) ∧ Filled m m' o k f d := by
  cases hf : m.pframeHash o k with
  | some f =>
    refine ⟨m, f, by simp only [pframeGet, hf], hf, (Sees.resident hf).unique hd, h,
      fun hf' => hf', fun hs => hs, rfl, rfl, rfl, rfl⟩
  | none =>
    cases hops : (m.mmobj o).mmoOps with
    | anon =>
      have hz : d = fun _ => 0 := by
        cases hd with
        | resident hf' => rw [hf] at hf'; cases hf'
        | under _ hs _ => rw [h.anon o ho hops] at hs; cases hs
        | zero _ _ => rfl
      subst hz
      exact ⟨_, _, pframeGet_anon hf hops, h.filled ho hf hd⟩
    | shadow =>
      -- the walk runs with a frame for `o` entered, but only looks below `o`
      obtain ⟨o', hlt, hs⟩ := h.shadow o ho hops
      have hd' : Sees m k o' d := by
        cases hd with
        | resident hf' => rw [hf] at hf'; cases hf'
        | under _ hs' hd' => rw [hs] at hs'; cases hs'; exact hd'
        | zero _ hs' => rw [hs] at hs'; cases hs'
      set m1 := m.addPage o k (m.pfAddr m.npframe) with hm1
      have h1 : Chains m1 := h.addPage ho _
      have hd1 : Sees m1 k o' d := by
        refine hd'.congr h (hlt.trans ho) (fun _ _ => rfl) ?_ ?_
        · exact fun x hx => addPage_hash_ne fun e => by omega
        · exact fun x _ f hxf => addPage_data_ne (h.hash hxf).2.ne
      have hops1 : (m1.mmobj o).mmoOps = .shadow := hops
      have hs1 : (m1.mmobj o).mmoShadowed = some o' := hs
      rcases shadowWalk_spec h1 hd1 m1.nobj none (hlt.trans ho) (hlt.trans ho) with
        ⟨src, t, hwalk, hsrc, -⟩ | ⟨b, hb, hwalk, hanon, hbnone, rfl⟩
      · refine ⟨_, m.npframe, ?_, h.filled ho hf hd⟩
        simp only [pframeGet, hf, pframeAlloc, ← hm1, hops1, hs1, hwalk, ok_bind, hsrc]
        rw [hm1, addPage_setFrame]
        rfl
      · -- nothing on the way: a zero page for the bottom object, then the copy
        have hne : b ≠ o := by omega
        have hfill := h.filled ho hf hd
        have hbn : (m.addPage o k fun _ => 0).pframeHash b k = none :=
          (addPage_hash_ne fun e => hne e.1).trans
            ((addPage_hash_ne (d := m.pfAddr m.npframe) fun e => hne e.1).symm.trans hbnone)
        have hbs : Sees (m.addPage o k fun _ => 0) k b fun _ => 0 :=
          .zero hbn (h.anon b (by omega) hanon)
        have hfill2 := hfill.chains.filled (by exact (by omega : b < m.nobj)) hbn hbs
        refine ⟨_, m.npframe, ?_, hfill.then hfill2⟩
        have hget : pframeGet (fuel + 1) m1 b k = .ok (m1.addPage b k fun _ => 0, m1.npframe) :=
          pframeGet_anon hbnone hanon
        rw [pframeGet]
        simp only [hf, pframeAlloc, ← hm1, hops1, hs1, hwalk, ok_bind, hget, pure_eq_ok,
          addPage_data_self]
        rw [hm1, addPage_addPage_setFrame]

end

end Weenix.Vm
