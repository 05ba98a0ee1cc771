/-
# The libraries a program needs (`user/lib/ld-weenix`)

The loop of `_ldstart` goes through the list of modules while `_ldlinkobj` appends one for each
`DT_NEEDED` entry of the module at hand.  A name that is already known ends the scan of the entries
where it should be passed over, and the entries after it are lost (`needed_library_missing`).

The names that the code does find are those of `laid`, and `Complete` says when they are all.  It
does not suffice that every library is mentioned by a library that is found, nor is it necessary
that no entry is lost: a library that is skipped may be found later, and still in its place.

A library is its name; `needed` has its `DT_NEEDED` entries, and `exe` those of the executable,
whose own module is in front of `mods`.
-/
import Mathlib.Data.Fin.VecNotation
import Mathlib.Data.Finset.Card
import Mathlib.Data.Fintype.Card
import Mathlib.Tactic.FinCases
import Weenix.Kernel

namespace Weenix.Ld

open List

variable {N : Type} [DecidableEq N] {l ns exe : List N} {needed : N → List N} {i : Nat}

/-! ## 1. The linker -/

/-- The name list of `ldnames.c`, and the names of the modules behind the executable's. -/
structure Linker (N : Type) where
  names : List N
  mods : List N

def ldlinkobj (s : Linker N) : List N → Linker N
  | [] => s
  | name :: rest =>
    if name ∈ s.names then s    -- `break`
    else ldlinkobj ⟨name :: name :: s.names, s.mods ++ [name]⟩ rest

/-- The libraries that are reached through `DT_NEEDED`. -/
inductive Needed (needed : N → List N) (exe : List N) : N → Prop
  | exe {n : N} : n ∈ exe → Needed needed exe n
  | lib {m n : N} : Needed needed exe m → n ∈ needed m → Needed needed exe n

/-! ## 2. Breadth-first order -/

/-- The entries of an object that are taken behind a list of names: those before the first that is
in the list, or comes a second time. -/
def fresh (l : List N) : List N → List N
  | [] => []
  | n :: ns => if n ∈ l then [] else n :: fresh (l ++ [n]) ns

/-- The names that the executable and some libraries contribute, in turn. -/
def laid (needed : N → List N) (exe libs : List N) : List N :=
  (exe :: libs.map needed).foldl (fun l entries => l ++ fresh l entries) []

/-- The libraries contribute the list, and each is in it before its turn comes. -/
structure Complete (needed : N → List N) (exe libs : List N) : Prop where
  all : laid needed exe libs = libs
  early : ∀ j < libs.length, j < (laid needed exe (libs.take j)).length

theorem laid_append (needed : N → List N) (exe libs libs' : List N) :
    ∃ t, laid needed exe (libs ++ libs') = laid needed exe libs ++ t := by
  have hfold : ∀ (es : List (List N)) (l : List N),
      ∃ t, es.foldl (fun l entries => l ++ fresh l entries) l = l ++ t := by
    intro es
    induction es with
    | nil => exact fun l => ⟨[], (append_nil l).symm⟩
    | cons e es ih =>
      intro l
      obtain ⟨t, ht⟩ := ih (l ++ fresh l e)
      exact ⟨fresh l e ++ t, by rw [foldl_cons, ht, append_assoc]⟩
  unfold laid
  rw [map_append, ← cons_append, foldl_append]
  exact hfold _ _

theorem laid_snoc (libs : List N) (m : N) : laid needed exe (libs ++ [m])
    = laid needed exe libs ++ fresh (laid needed exe libs) (needed m) := by
  unfold laid
  rw [map_append, ← cons_append, foldl_append]
  rfl

/-- What the first libraries of a complete list contribute are its first names. -/
theorem Complete.get (h : Complete needed exe l) (hj : i < l.length) :
    (laid needed exe (l.take i))[i]? = l[i]? := by
  obtain ⟨t, ht⟩ := laid_append needed exe (l.take i) (l.drop i)
  rw [take_append_drop, h.all] at ht
  have hget : l[i]? = _ := congrArg (·[i]?) ht
  rw [hget, getElem?_append_left (h.early i hj)]

/-- **There is one complete list.** -/
theorem Complete.unique {l' : List N} (h : Complete needed exe l) (h' : Complete needed exe l') :
    l = l' := by
  have htake : ∀ j, j ≤ l.length → j ≤ l'.length → l.take j = l'.take j := by
    intro j
    induction j with
    | zero => intros; rfl
    | succ j ih =>
      intro hj hj'
      have hprev := ih (by omega) (by omega)
      have hget : l[j]? = l'[j]? := by
        rw [← h.get (by omega), ← h'.get (by omega), hprev]
      rw [take_add_one, take_add_one, hprev, hget]
  have hlen : ∀ {k k' : List N}, Complete needed exe k → Complete needed exe k' →
      k.take k.length = k'.take k.length → k'.length ≤ k.length := by
    intro k k' hk hk' htake
    by_contra hlt
    have hearly := hk'.early k.length (by omega)
    rw [← htake, take_length, hk.all] at hearly
    omega
  obtain hle | hle := Nat.le_total l.length l'.length
  · have heq := htake l.length le_rfl hle
    have hge := hlen h h' heq
    rwa [take_length, take_of_length_le hge] at heq
  · have heq := htake l'.length hle le_rfl
    have hge := hlen h' h heq.symm
    rwa [take_length, take_of_length_le hge] at heq

/-! ## 3. The loop -/

variable {s : Linker N}

theorem fresh_nodup (hl : l.Nodup) : (l ++ fresh l ns).Nodup := by
  induction ns generalizing l with
  | nil => rwa [fresh, append_nil]
  | cons n ns ih =>
    rw [fresh]
    split
    case isTrue => rwa [append_nil]
    case isFalse hn =>
      have hsnoc : (l ++ [n]).Nodup := nodup_append.mpr ⟨hl, nodup_singleton n, fun a ha b hb he =>
        hn (mem_singleton.mp hb ▸ he ▸ ha)⟩
      have := ih hsnoc
      rwa [append_assoc, singleton_append] at this

theorem mem_of_mem_fresh {n : N} (h : n ∈ fresh l ns) : n ∈ ns := by
  induction ns generalizing l with
  | nil => cases h
  | cons m ns ih =>
    rw [fresh] at h
    split at h
    case isTrue => cases h
    case isFalse =>
      obtain rfl | h := mem_cons.mp h
      · exact .head _
      · exact .tail _ (ih h)

/-- Linking an object takes its entries up to the first known name. -/
theorem ldlinkobj_eq (hnames : ∀ n, n ∈ s.names ↔ n ∈ s.mods) (ns : List N) :
    (ldlinkobj s ns).mods = s.mods ++ fresh s.mods ns ∧
      ∀ n, n ∈ (ldlinkobj s ns).names ↔ n ∈ (ldlinkobj s ns).mods := by
  induction ns generalizing s with
  | nil => exact ⟨(append_nil _).symm, hnames⟩
  | cons n ns ih =>
    rw [ldlinkobj, fresh]
    by_cases hn : n ∈ s.mods
    · rw [if_pos ((hnames n).mpr hn), if_pos hn, append_nil]
      exact ⟨rfl, hnames⟩
    · rw [if_neg (mt (hnames n).mp hn), if_neg hn]
      obtain ⟨heq, hnames'⟩ := ih (s := ⟨n :: n :: s.names, s.mods ++ [n]⟩) fun a => by
        rw [mem_cons, mem_cons, mem_append, mem_singleton, hnames]
        tauto
      exact ⟨by rw [heq, append_assoc, singleton_append], hnames'⟩

/-- The invariant of the loop at module `i`: the executable and the first `i` modules have
contributed the list, and each of these was in it before its turn. -/
structure Order (needed : N → List N) (exe : List N) (i : Nat) (s : Linker N) : Prop where
  le : i ≤ s.mods.length
  names : ∀ n, n ∈ s.names ↔ n ∈ s.mods
  mods : laid needed exe (s.mods.take i) = s.mods
  early : ∀ j < i, j < (laid needed exe (s.mods.take j)).length
  once : s.mods.Nodup
  needed : ∀ n ∈ s.mods, Needed needed exe n

theorem Order.link (h : Order needed exe i s) {m : N} (hm : s.mods[i]? = some m) :
    Order needed exe (i + 1) (ldlinkobj s (needed m)) := by
  obtain ⟨heq, hnames⟩ := ldlinkobj_eq h.names (needed m)
  obtain ⟨hlt, hget⟩ := List.getElem?_eq_some_iff.mp hm
  have htake : ∀ {j}, j ≤ i + 1 → (ldlinkobj s (needed m)).mods.take j = s.mods.take j := by
    intro j hj
    rw [heq, take_append_of_le_length (by omega)]
  refine ⟨?_, hnames, ?_, fun j hj => ?_, ?_, fun n hn => ?_⟩
  · rw [heq, length_append]
    omega
  · rw [htake le_rfl, take_succ_eq_append_getElem hlt, hget, laid_snoc, h.mods, heq]
  · rw [htake (by omega)]
    obtain hj | rfl := Nat.lt_succ_iff_lt_or_eq.mp hj
    · exact h.early j hj
    · rwa [h.mods]
  · rw [heq]
    exact fresh_nodup h.once
  · rw [heq, mem_append] at hn
    obtain hn | hn := hn
    · exact h.needed n hn
    · exact .lib (h.needed m (mem_of_getElem? hm)) (mem_of_mem_fresh hn)

end Weenix.Ld
