/-
# Tilings of an interval by blocks

A list of blocks TILES `[lo, hi)` when every point of the interval lies in exactly one of
them and no point outside lies in any.  Counting points, rather than stating disjointness
and coverage apart, makes the three ways an allocator changes a tiling one-line updates: a
permutation changes no count, and cutting a block in two moves no point.

Disjointness, containment and coverage are read back off the count (`Tiles.pairwise`,
`Tiles.subset`, `Tiles.exists_has`).
-/
import Mathlib.Data.List.Count
import Mathlib.Data.List.Perm.Basic

namespace Tile

open List

/-! ## 1. Blocks and the points they hold -/

/-- A block: its first address and its length. -/
structure Blk where
  lo : Nat
  len : Nat
deriving DecidableEq, Repr

variable {b c : Blk} {B : List Blk} {p : Nat}

/-- The point `p` lies in the block. -/
def Blk.has (b : Blk) (p : Nat) : Bool := decide (b.lo ≤ p) && decide (p < b.lo + b.len)

@[simp] theorem Blk.has_iff : b.has p = true ↔ b.lo ≤ p ∧ p < b.lo + b.len := by
  simp [Blk.has]

/-- Two blocks have no point in common. -/
def Apart (b c : Blk) : Prop := ∀ p, ¬ (b.has p = true ∧ c.has p = true)

/-- How many blocks of the list hold the point `p`. -/
def cov (B : List Blk) (p : Nat) : Nat := B.countP (·.has p)

@[simp] theorem cov_nil (p : Nat) : cov [] p = 0 := rfl

@[simp] theorem cov_cons (b : Blk) (B : List Blk) (p : Nat) :
    cov (b :: B) p = cov B p + if b.has p = true then 1 else 0 := by
  simp [cov, countP_cons]

@[simp] theorem cov_append (B C : List Blk) (p : Nat) : cov (B ++ C) p = cov B p + cov C p := by
  simp [cov, countP_append]

theorem cov_perm {C : List Blk} (h : B.Perm C) (p : Nat) : cov B p = cov C p := h.countP_eq _

theorem cov_pos_iff : 0 < cov B p ↔ ∃ b ∈ B, b.has p = true := by
  simp [cov, countP_pos_iff]

theorem one_le_cov (hb : b ∈ B) (hp : b.has p = true) : 1 ≤ cov B p := cov_pos_iff.mpr ⟨b, hb, hp⟩

/-! ## 2. Tilings -/

/-- `B` tiles `[lo, hi)`: each point of the interval is held exactly once, no other point at
all. -/
def Tiles (B : List Blk) (lo hi : Nat) : Prop :=
  ∀ p, cov B p = if lo ≤ p ∧ p < hi then 1 else 0

variable {B C : List Blk} {lo hi : Nat}

/-- Cutting a block in two equal halves, or gluing the halves, keeps a tiling. -/
theorem tiles_halves {a n : Nat} : Tiles (⟨a, 2 * n⟩ :: B) lo hi ↔
    Tiles (⟨a, n⟩ :: ⟨a + n, n⟩ :: B) lo hi := by
  have key : ∀ p, cov (⟨a, 2 * n⟩ :: B) p = cov (⟨a, n⟩ :: ⟨a + n, n⟩ :: B) p := by
    intro p
    simp only [cov_cons, Blk.has_iff]
    split_ifs <;> omega
  constructor
  · intro h p; rw [← key p]; exact h p
  · intro h p; rw [key p]; exact h p

theorem tiles_nil (lo : Nat) : Tiles [] lo lo := by
  intro p
  rw [cov_nil, if_neg (by omega)]

/-- Blocks at different places of a list that holds no point twice are apart. -/
theorem pairwise_apart_of_cov : ∀ {B : List Blk}, (∀ p, cov B p ≤ 1) → B.Pairwise Apart
  | [], _ => .nil
  | b :: B, h => by
    refine List.Pairwise.cons ?_ (pairwise_apart_of_cov fun p => ?_)
    · rintro c hc p ⟨hbp, hcp⟩
      have h1 := h p
      have h2 := one_le_cov hc hcp
      simp only [cov_cons, hbp, if_true] at h1
      omega
    · have h1 := h p
      simp only [cov_cons] at h1
      omega

/-- A point singles out its block. -/
theorem eq_of_has_of_cov : ∀ {B : List Blk}, (∀ p, cov B p ≤ 1) → ∀ {b c : Blk}, b ∈ B → c ∈ B →
    ∀ {p : Nat}, b.has p = true → c.has p = true → b = c
  | [], _, _, _, hb, _, _, _, _ => absurd hb (by simp)
  | d :: B, h, b, c, hb, hc, p, hbp, hcp => by
    have hd := h p
    simp only [cov_cons] at hd
    obtain rfl | hb' := mem_cons.mp hb <;> rcases mem_cons.mp hc with rfl | hc'
    · rfl
    · have := one_le_cov hc' hcp
      rw [if_pos hbp] at hd
      omega
    · have := one_le_cov hb' hbp
      rw [if_pos hcp] at hd
      omega
    · refine eq_of_has_of_cov (fun q => ?_) hb' hc' hbp hcp
      have := h q
      simp only [cov_cons] at this
      omega

section
variable (h : Tiles B lo hi)
include h

theorem Tiles.cov_le_one (p : Nat) : cov B p ≤ 1 := by
  rw [h p]; split <;> omega

theorem Tiles.perm (hp : B.Perm C) : Tiles C lo hi :=
  fun p => by rw [← cov_perm hp p]; exact h p

theorem Tiles.extend (hle : lo ≤ hi) (n : Nat) : Tiles (⟨hi, n⟩ :: B) lo (hi + n) := by
  intro p
  have hp := h p
  simp only [cov_cons, Blk.has_iff]
  split_ifs at hp ⊢ <;> omega

/-- Every block of a tiling with points lies inside the interval. -/
theorem Tiles.subset (hb : b ∈ B) (hlen : 0 < b.len) : lo ≤ b.lo ∧ b.lo + b.len ≤ hi := by
  have h1 := one_le_cov hb (p := b.lo) (by simp [hlen])
  have h2 := one_le_cov hb (p := b.lo + b.len - 1) (by simp; omega)
  rw [h] at h1 h2
  split_ifs at h1 h2 <;> omega

theorem Tiles.exists_has (h1 : lo ≤ p) (h2 : p < hi) : ∃ b ∈ B, b.has p = true := by
  apply cov_pos_iff.mp
  rw [h p, if_pos ⟨h1, h2⟩]
  exact Nat.one_pos

theorem Tiles.pairwise : B.Pairwise Apart :=
  pairwise_apart_of_cov h.cov_le_one

theorem Tiles.eq_of_has (hb : b ∈ B) (hc : c ∈ B) (hbp : b.has p = true) (hcp : c.has p = true) :
    b = c :=
  eq_of_has_of_cov h.cov_le_one hb hc hbp hcp

end

/-- No point lies in blocks of both parts of a tiling. -/
theorem Tiles.not_both (h : Tiles (B ++ C) lo hi) (hb : b ∈ B) (hc : c ∈ C)
    (hbp : b.has p = true) : ¬ c.has p = true := by
  intro hcp
  have h1 := h.cov_le_one p
  have h2 := one_le_cov hb hbp
  have h3 := one_le_cov hc hcp
  rw [cov_append] at h1
  omega

end Tile
