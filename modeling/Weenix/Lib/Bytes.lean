/-
# Memory of bytes, read and written in little-endian words

`Mem` is a memory, or a file: a byte at every address.  Everything is said with three
operations: read a range, write a range, and copy a range one byte after the other.  Words are
ranges of four bytes.

What a proof needs is where a write can be seen: at its own place it is what was written
(`read_write_self`, `word_setWord`), and elsewhere nothing has changed (`read_write_of_disjoint`,
`word_write_of_disjoint`).
-/
import Mathlib.Data.List.Basic
import Mathlib.Tactic.Ring

namespace Bytes

open Option

variable {data' : List UInt8} {dst src v w : Nat}

/-! ## 1. Packing -/

/-- The `w` bytes of `n`, the lowest first. -/
def pack : Nat → Nat → List UInt8
  | 0, _ => []
  | w + 1, n => UInt8.ofNat n :: pack w (n / 256)

/-- The number with these bytes. -/
def unpack : List UInt8 → Nat
  | [] => 0
  | b :: bs => b.toNat + 256 * unpack bs

@[simp] theorem length_pack (w n : Nat) : (pack w n).length = w := by
  induction w generalizing n with
  | zero => rfl
  | succ w ih => rw [pack, List.length_cons, ih]

theorem unpack_pack (w : Nat) {n : Nat} (h : n < 256 ^ w) : unpack (pack w n) = n := by
  induction w generalizing n with
  | zero => exact (Nat.lt_one_iff.mp h).symm
  | succ w ih =>
    have hdiv : n / 256 < 256 ^ w := Nat.div_lt_of_lt_mul (by rwa [← Nat.pow_succ'])
    rw [pack, unpack, ih hdiv, UInt8.toNat_ofNat', Nat.mod_add_div]

theorem unpack_lt (bs : List UInt8) : unpack bs < 256 ^ bs.length := by
  induction bs with
  | nil => exact Nat.one_pos
  | cons b bs ih =>
    have hb := b.toNat_lt
    rw [unpack, List.length_cons, Nat.pow_succ]
    omega

theorem pack_unpack (bs : List UInt8) : pack bs.length (unpack bs) = bs := by
  induction bs with
  | nil => rfl
  | cons b bs ih =>
    have hb := b.toNat_lt
    rw [List.length_cons, unpack, pack]
    congr 1
    · rw [← UInt8.toNat_inj, UInt8.toNat_ofNat']
      omega
    · rw [Nat.add_mul_div_left _ _ (by decide), Nat.div_eq_of_lt hb, Nat.zero_add, ih]

/-! ## 2. Reading and writing ranges -/

/-- A byte at every address. -/
abbrev Mem := Nat → UInt8

namespace Mem

/-- The `n` bytes from `a` on. -/
def read (m : Mem) (a n : Nat) : List UInt8 := (List.range n).map fun i => m (a + i)

/-- The bytes of `data` from `a` on, and what there was elsewhere. -/
def write (m : Mem) (a : Nat) (data : List UInt8) : Mem := fun x =>
  if a ≤ x then data[x - a]?.getD (m x) else m x

variable {m m' : Mem} {a b n x : Nat} {data : List UInt8}

@[simp] theorem length_read (m : Mem) (a n : Nat) : (m.read a n).length = n := by
  rw [read, List.length_map, List.length_range]

theorem read_congr (h : ∀ x, a ≤ x → x < a + n → m' x = m x) : m'.read a n = m.read a n :=
  List.map_congr_left fun i hi => h (a + i) (Nat.le_add_right _ _)
    (Nat.add_lt_add_left (List.mem_range.mp hi) a)

/-- Outside of the range nothing changes. -/
theorem write_of_not_mem (h : x < a ∨ a + data.length ≤ x) : m.write a data x = m x := by
  unfold write
  split
  case isTrue hle =>
    rw [List.getElem?_eq_none (by omega), getD_none]
  case isFalse => rfl

theorem write_of_mem (hle : a ≤ x) {c : UInt8} (h : data[x - a]? = some c) :
    m.write a data x = c := by
  rw [write, if_pos hle, h, getD_some]

theorem read_write_of_disjoint (h : b + n ≤ a ∨ a + data.length ≤ b) :
    (m.write a data).read b n = m.read b n :=
  read_congr fun _ hle hlt => write_of_not_mem (by omega)

theorem read_write_self : (m.write a data).read a data.length = data := by
  refine List.ext_getElem (length_read ..) fun i hi hi' => ?_
  have hget : data[a + i - a]? = some data[i] := by
    rw [Nat.add_sub_cancel_left, List.getElem?_eq_getElem hi']
  simp only [read, List.getElem_map, List.getElem_range]
  exact write_of_mem (Nat.le_add_right _ _) hget

/-- Two writes to ranges apart can change places. -/
theorem write_comm (h : a + data.length ≤ b ∨ b + data'.length ≤ a) :
    (m.write a data).write b data' = (m.write b data').write a data := by
  funext x
  by_cases hx : a ≤ x ∧ x < a + data.length
  · have hlt : x - a < data.length := by omega
    have hget : data[x - a]? = some data[x - a] := List.getElem?_eq_getElem hlt
    rw [write_of_not_mem (by omega), write_of_mem hx.1 hget, write_of_mem hx.1 hget]
  · rw [write_of_not_mem (m := m.write b data') (by omega)]
    by_cases hx' : b ≤ x ∧ x < b + data'.length
    · have hlt : x - b < data'.length := by omega
      have hget : data'[x - b]? = some data'[x - b] := List.getElem?_eq_getElem hlt
      rw [write_of_mem hx'.1 hget, write_of_mem hx'.1 hget]
    · rw [write_of_not_mem (by omega), write_of_not_mem (by omega), write_of_not_mem (by omega)]

/-- The second of two writes to one range is what stays. -/
theorem write_write (h : data'.length = data.length) :
    (m.write a data').write a data = m.write a data := by
  funext x
  unfold write
  split
  case isTrue hle =>
    by_cases hx : x - a < data.length
    · rw [List.getElem?_eq_getElem hx, getD_some, getD_some]
    · rw [List.getElem?_eq_none (Nat.not_lt.mp hx), List.getElem?_eq_none (by omega)]
      rfl
  case isFalse => rfl

/-! ## 3. Words -/

/-- The word at `a`. -/
def word (m : Mem) (a : Nat) : Nat := unpack (m.read a 4)

def setWord (m : Mem) (a v : Nat) : Mem := m.write a (pack 4 v)

theorem word_lt (m : Mem) (a : Nat) : m.word a < 2 ^ 32 := by
  have h := unpack_lt (m.read a 4)
  rwa [length_read] at h

theorem word_congr (h : ∀ x, a ≤ x → x < a + 4 → m' x = m x) : m'.word a = m.word a := by
  rw [word, read_congr h, word]

theorem word_write_of_disjoint (h : b + 4 ≤ a ∨ a + data.length ≤ b) :
    (m.write a data).word b = m.word b := by
  rw [word, read_write_of_disjoint h, word]

@[simp] theorem word_setWord (h : v < 2 ^ 32) : (m.setWord a v).word a = v := by
  have hself : (m.write a (pack 4 v)).read a 4 = pack 4 v := by
    have hread : (m.write a (pack 4 v)).read a (pack 4 v).length = pack 4 v := read_write_self
    rwa [length_pack] at hread
  rw [word, setWord, hself, unpack_pack 4 h]

theorem word_setWord_of_disjoint (h : b + 4 ≤ a ∨ a + 4 ≤ b) : (m.setWord a v).word b = m.word b :=
  word_write_of_disjoint (by rwa [length_pack])

theorem setWord_of_not_mem (h : x < a ∨ a + 4 ≤ x) : m.setWord a v x = m x :=
  write_of_not_mem (by rwa [length_pack])

theorem setWord_comm (h : a + 4 ≤ b ∨ b + 4 ≤ a) :
    (m.setWord a v).setWord b w = (m.setWord b w).setWord a v :=
  write_comm (by rwa [length_pack, length_pack])

theorem setWord_setWord : (m.setWord a v).setWord a w = m.setWord a w :=
  write_write (by rw [length_pack, length_pack])

/-! ## 4. Copying -/

/-- `n` bytes from `src` to `dst`, one after the other from the lowest. -/
def copy (dst src : Nat) : Nat → Mem → Mem
  | 0, m => m
  | n + 1, m =>
    let m := copy dst src n m
    m.write (dst + n) [m (src + n)]

theorem copy_add (dst src i j : Nat) (m : Mem) :
    copy dst src (i + j) m = copy (dst + i) (src + i) j (copy dst src i m) := by
  induction j with
  | zero => rfl
  | succ j ih =>
    rw [← Nat.add_assoc, copy, ih, copy]
    simp only [Nat.add_assoc]

theorem copy_of_not_mem (h : x < dst ∨ dst + n ≤ x) (m : Mem) : copy dst src n m x = m x := by
  induction n with
  | zero => rfl
  | succ n ih => rw [copy, write_of_not_mem (by rw [List.length_singleton]; omega), ih (by omega)]

/-- A word apart from both ranges can be written before or after. -/
theorem copy_setWord (hsrc : a + 4 ≤ src ∨ src + n ≤ a)
    (hdst : a + 4 ≤ dst ∨ dst + n ≤ a) (m : Mem) :
    copy dst src n (m.setWord a v) = (copy dst src n m).setWord a v := by
  induction n with
  | zero => rfl
  | succ n ih =>
    rw [copy, copy, ih (by omega) (by omega), setWord_of_not_mem (by omega)]
    exact write_comm (by rw [length_pack, List.length_singleton]; omega)

/-- Copied to lower addresses, or to a range apart, bytes arrive as they were. -/
theorem copy_apply (h : dst ≤ src ∨ src + n ≤ dst) (m : Mem) (x : Nat) :
    copy dst src n m x = if dst ≤ x ∧ x < dst + n then m (src + (x - dst)) else m x := by
  induction n generalizing x with
  | zero => rw [copy, if_neg (by omega)]
  | succ n ih =>
    have ih := ih (by omega)
    have hsrc : copy dst src n m (src + n) = m (src + n) := by
      rw [ih, if_neg (by omega)]
    rw [copy]
    by_cases hx : x = dst + n
    · subst hx
      rw [write_of_mem (Nat.le_refl _) (by rw [Nat.sub_self]; rfl), hsrc, if_pos (by omega),
        Nat.add_sub_cancel_left]
    · rw [write_of_not_mem (by rw [List.length_singleton]; omega), ih]
      split
      case isTrue => rw [if_pos (by omega)]
      case isFalse => rw [if_neg (by omega)]

/-- Copying a word is four bytes' copying. -/
theorem copy_word (h : dst + 4 ≤ src ∨ src + 4 ≤ dst) (m : Mem) :
    copy dst src 4 m = m.setWord dst (m.word src) := by
  have hpack : pack 4 (m.word src) = m.read src 4 := by
    have hround := pack_unpack (m.read src 4)
    rwa [length_read] at hround
  funext x
  rw [copy_apply (by omega), setWord, hpack]
  split
  case isTrue hx =>
    refine (write_of_mem hx.1 ?_).symm
    rw [read, List.getElem?_map, List.getElem?_range (by omega), map_some]
  case isFalse hx => exact (write_of_not_mem (by rw [length_read]; omega)).symm

end Mem

end Bytes
