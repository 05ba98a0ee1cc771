/-
# Linked lists in memory

A node is an address, and its link is the word at a fixed distance from it; the null address ends a
list. `Seg m off p l q` says that following links from `p` one meets the nodes `l` and arrives at
`q`. `Linked m off p l` is a whole list.

Nothing but the links of the nodes matters (`Seg.congr`), so a list can live among other data.
-/
import Weenix.Lib.Bytes

namespace Bytes.Mem

/-- From `p` over the nodes `l` to `q`. -/
inductive Seg (m : Mem) (off : Nat) : Nat → List Nat → Nat → Prop
  | nil (p : Nat) : Seg m off p [] p
  | cons {p q : Nat} {l : List Nat} (hp : p ≠ 0) :
  Seg m off (m.word (p + off)) l q → Seg m off p (p :: l) q

/-- The list that starts at `p`. -/
def Linked (m : Mem) (off p : Nat) (l : List Nat) : Prop := Seg m off p l 0

variable {m m' : Mem} {off p q r : Nat} {l l' : List Nat}

section
variable (h : Seg m off p l q)
include h

theorem Seg.congr (hsame : ∀ x ∈ l, m'.word (x + off) = m.word (x + off)) : Seg m' off p l q := by
  induction h with
  | nil p => exact .nil p
  | @cons p _ _ hp _ ih =>
    refine .cons hp ?_
    rw [hsame p (.head _)]
    exact ih fun x hx => hsame x (.tail _ hx)

theorem Seg.append (h' : Seg m off q l' r) : Seg m off p (l ++ l') r := by
  induction h with
  | nil p => exact h'
  | cons hp _ ih => exact .cons hp (ih h')

/-- One node further. -/
theorem Seg.snoc (hq : q ≠ 0) : Seg m off p (l ++ [q]) (m.word (q + off)) :=
  h.append (.cons hq (.nil _))

theorem Seg.ne_zero {x : Nat} (hx : x ∈ l) : x ≠ 0 := by
  induction h with
  | nil => cases hx
  | cons hp _ ih =>
    obtain rfl | hx := List.mem_cons.mp hx
    · exact hp
    · exact ih hx

end

/-- The link of the last node, set to lead elsewhere. -/
theorem Seg.retarget (h : Seg m off p (l ++ [r]) q) {v : Nat} (hv : v < 2 ^ 32)
    (hapart : ∀ x ∈ l, x + 4 ≤ r ∨ r + 4 ≤ x) : Seg (m.setWord (r + off) v) off p (l ++ [r]) v := by
  induction l generalizing p with
  | nil =>
    obtain - | ⟨hp, -⟩ := h
    refine .cons hp ?_
    rw [word_setWord hv]
    exact .nil v
  | cons x l ih =>
    obtain - | ⟨hp, hrest⟩ := h
    have hx := hapart x (.head _)
    refine .cons hp ?_
    rw [word_setWord_of_disjoint (by omega)]
    exact ih hrest fun y hy => hapart y (.tail _ hy)

theorem Linked.inv (h : Linked m off p l) :
    (p = 0 ∧ l = []) ∨ (p ≠ 0 ∧ ∃ l', l = p :: l' ∧ Linked m off (m.word (p + off)) l') := by
  cases l with
  | nil =>
    obtain - | - := h
    exact .inl ⟨rfl, rfl⟩
  | cons x l =>
    obtain - | ⟨hp, hrest⟩ := h
    exact .inr ⟨hp, l, rfl, hrest⟩

theorem Linked.cons_inv (h : Linked m off p (q :: l)) :
    p = q ∧ q ≠ 0 ∧ Linked m off (m.word (q + off)) l := by
  obtain ⟨-, hnil⟩ | ⟨hp, l', heq, hrest⟩ := h.inv
  · cases hnil
  · cases heq
    exact ⟨rfl, hp, hrest⟩

end Bytes.Mem
