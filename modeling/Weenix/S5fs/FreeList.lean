/-
# The list of free blocks

The superblock holds a node of the list: up to 29 entries and the number of the block with the next
node.  A block that is freed when the node is full becomes the new next node: the superblock's node
is copied into it.  Both `s5_free_block` (`fs/s5fs/s5fs_subr.c`) and the image tool do this, on the
same bytes; the kernel with one `memcpy`, the tool word by word (`s5FreeBlock_eq`, `free_eq`).

Read as a stack, the newest entry comes first: the entries of the superblock's node from the last to
the first, then the next node's block, then its entries, and so on (`FreeStack`).  Freeing pushes
(`FreeStack.push`) and `alloc_block` pops (`FreeStack.pop`, `FreeStack.pop_empty`), also where a
node is written out or read back in.
-/
import Weenix.Kernel
import Weenix.Lib.Run
import Weenix.S5fs.Simdisk

namespace Weenix.S5fs

open Bytes Bytes.Mem List Simdisk

variable {d : Mem} {b dst i n src : Nat}

/-! ## 1. The kernel's side -/

/-- `s5_free_block`, on the pages of the block device: the superblock is block 0. -/
def s5FreeBlock (d : Mem) (blockno : Nat) : Except Halt Mem := do
  kassert (s5NblksPerFnode > d.word 8) "S5_NBLKS_PER_FNODE > s->s5s_nfree"
  if s5NblksPerFnode - 1 = d.word 8 then
    -- memcpy(prev_free_blocks->pf_addr, s->s5s_free_blocks, S5_NBLKS_PER_FNODE * sizeof(int))
    let d := copy (s5BlockSize * blockno) 12 (s5NblksPerFnode * 4) d
    let d := d.setWord 8 0
    return d.setWord (12 + 4 * (s5NblksPerFnode - 1)) blockno
  else
    let nfree := d.word 8
    let d := d.setWord (12 + 4 * nfree) blockno
    return d.setWord 8 (nfree + 1)

/-! ## 2. The tool's loops over a node -/

section
variable {d : Simdisk} {b v offset : Nat}

theorem put_eq (h : v < 2 ^ 32) : d.put offset 4 v = .ok (d.setWord offset v) := if_pos h

theorem setFreeBlock_eq (hi : i < 29) (h : v < 2 ^ 32) :
    d.setFreeBlock i v = .ok (d.setWord (12 + 4 * i) v) := by
  rw [setFreeBlock, if_pos (show i < s5NblksPerFnode - 1 from hi), put_eq h]

theorem getFreeBlock_eq (hi : i < 29) : d.getFreeBlock i = .ok (d.word (12 + 4 * i)) :=
  if_pos hi

theorem write_word_eq (hi : i < 30) :
    (getBlock b).write d (i * 4) (pack 4 v) = .ok (d.setWord (4096 * b + i * 4) v) := by
  unfold Block.write
  rw [if_neg (by rw [length_pack]; simp only [s5BlockSize]; omega)]
  rfl

theorem readWord_eq (hi : i < 30) :
    (getBlock b).readWord d (i * 4) = .ok (d.word (4096 * b + i * 4)) := by
  unfold Block.readWord Block.read
  rw [if_neg (by simp only [s5BlockSize]; omega)]
  rfl

theorem foldlM_range_succ {σ ε : Type} (f : σ → Nat → Except ε σ) (n : Nat) (s : σ) :
    (List.range (n + 1)).foldlM f s = (List.range n).foldlM f s >>= fun t => f t n := by
  rw [range_succ, foldlM_append]
  refine bind_congr fun t => ?_
  rw [foldlM_cons]
  exact bind_pure _

/-- The tool writes the node out as the kernel does. -/
theorem writeFnode_eq (d : Simdisk) (b : Nat) :
    (getBlock b).writeFnode d = .ok (copy (4096 * b) 12 120 d) := by
  have hloop : ∀ k ≤ 29, (range k).foldlM (fun d i => do
      (getBlock b).write d (i * 4) (pack 4 (← getFreeBlock d i))) d
        = (.ok (copy (4096 * b) 12 (4 * k) d) : Except ToolError Simdisk) := by
    intro k
    induction k with
    | zero => exact fun _ => rfl
    | succ k ih =>
      intro hk
      rw [foldlM_range_succ, ih (by omega), ok_bind, getFreeBlock_eq (by omega), ok_bind,
        write_word_eq (by omega), Nat.mul_succ 4 k, copy_add, copy_word (by omega),
          Nat.mul_comm k 4]
  unfold Block.writeFnode
  rw [show s5NblksPerFnode - 1 = 29 from rfl, hloop 29 le_rfl, ok_bind, write_word_eq (by omega),
    show (120 : Nat) = 4 * 29 + 4 from rfl, copy_add, copy_word (by omega)]
  rfl

/-- And it reads a node in by copying it back. -/
theorem readFnode_eq (d : Simdisk) (b : Nat) :
    d.readFnode (getBlock b) = .ok (copy 12 (4096 * b) 120 d) := by
  have hloop : ∀ k ≤ 29, (range k).foldlM (fun d i => do
      setFreeBlock d i (← (getBlock b).readWord d (i * 4))) d
        = (.ok (copy 12 (4096 * b) (4 * k) d) : Except ToolError Simdisk) := by
    intro k
    induction k with
    | zero => exact fun _ => rfl
    | succ k ih =>
      intro hk
      rw [foldlM_range_succ, ih (by omega), ok_bind, readWord_eq (by omega), ok_bind,
        setFreeBlock_eq (by omega) (word_lt ..), Nat.mul_succ 4 k, copy_add,
        copy_word (by omega), Nat.mul_comm k 4]
  unfold readFnode
  rw [show s5NblksPerFnode - 1 = 29 from rfl, hloop 29 le_rfl, ok_bind, readWord_eq (by omega),
    ok_bind, setLastFreeBlock, put_eq (word_lt ..), show (120 : Nat) = 4 * 29 + 4 from rfl,
    copy_add, copy_word (by omega)]
  rfl

end

/-! ## 3. Both free a block in the same way -/

/-- The image after a block was freed. -/
def freed (d : Mem) (b : Nat) : Mem :=
  if d.word 8 = 29 then ((copy (4096 * b) 12 120 d).setWord 8 0).setWord 128 b
  else (d.setWord (12 + 4 * d.word 8) b).setWord 8 (d.word 8 + 1)

theorem s5FreeBlock_eq (h : d.word 8 ≤ 29) (b : Nat) : s5FreeBlock d b = .ok (freed d b) := by
  have hassert :
    kassert (s5NblksPerFnode > d.word 8) "S5_NBLKS_PER_FNODE > s->s5s_nfree" = .ok () :=
    kassert_of (decide_eq_true (Nat.lt_succ_of_le h)) _
  rw [s5FreeBlock, hassert, ok_bind, freed]
  by_cases hfull : d.word 8 = 29
  · rw [if_pos hfull, if_pos (show s5NblksPerFnode - 1 = d.word 8 from hfull.symm)]
    rfl
  · rw [if_neg hfull, if_neg (show ¬ s5NblksPerFnode - 1 = d.word 8 from fun heq => hfull heq.symm)]
    rfl

theorem free_eq (h : d.word 8 ≤ 29) (hb : b < 2 ^ 32) : (getBlock b).free d = .ok (freed d b) := by
  unfold Block.free freed
  by_cases hfull : d.word 8 = 29
  · have hnot : ¬ getNfree d < s5NblksPerFnode - 1 := Nat.not_lt.mpr hfull.ge
    rw [if_neg hnot, if_pos hfull, writeFnode_eq, ok_bind, setLastFreeBlock,
      put_eq (show (getBlock b).blockno < 2 ^ 32 from hb), ok_bind, setNfree, put_eq (by decide)]
    exact congrArg Except.ok (setWord_comm (by decide))
  · have hlt : getNfree d < 29 := Nat.lt_of_le_of_ne h hfull
    have hkeep : (d.setWord (12 + 4 * d.word 8) b).word 8 = d.word 8 :=
      word_setWord_of_disjoint (.inl (by omega))
    rw [if_pos (show getNfree d < s5NblksPerFnode - 1 from hlt), if_neg hfull,
      setFreeBlock_eq hlt (show (getBlock b).blockno < 2 ^ 32 from hb), ok_bind, setNfree,
      getNfree, getNfree, show (getBlock b).blockno = b from rfl, hkeep, put_eq (by omega)]

/-! ## 4. The list as a stack -/

/-- The first `n` words from `base` on, the last of them first. -/
def entries (d : Mem) (base : Nat) : Nat → List Nat
  | 0 => []
  | n + 1 => d.word (base + 4 * n) :: entries d base n

theorem entries_congr {d' : Mem} {base base' : Nat}
    (h : ∀ i < n, d'.word (base' + 4 * i) = d.word (base + 4 * i)) :
    entries d' base' n = entries d base n := by
  induction n with
  | zero => rfl
  | succ n ih =>
    rw [entries, entries, h n (Nat.lt_succ_self n), ih fun i hi => h i (Nat.lt_succ_of_lt hi)]

@[simp] theorem length_entries (d : Mem) (base n : Nat) : (entries d base n).length = n := by
  induction n with
  | zero => rfl
  | succ n ih => rw [entries, length_cons, ih]

/-- The blocks of the list from the node in block `next` on. -/
inductive Chain (d : Mem) : Nat → List Nat → Prop
  | nil : Chain d listEnd []
  | node {b : Nat} {rest : List Nat} (hb : b ≠ listEnd) :
      Chain d (d.word (4096 * b + 116)) rest → Chain d b (b :: (entries d (4096 * b) 29 ++ rest))

/-- The free list of the superblock, read as a stack.  The superblock is not on it. -/
structure FreeStack (d : Mem) (st : List Nat) : Prop where
  nfree : d.word 8 ≤ 29
  chain : ∃ rest, Chain d (d.word 128) rest ∧ st = entries d 12 (d.word 8) ++ rest
  super : 0 ∉ st

section
variable {d d' : Mem} {b next : Nat} {st rest : List Nat}

theorem Chain.inv (h : Chain d next rest) :
    (next = listEnd ∧ rest = []) ∨
      (next ≠ listEnd ∧ ∃ rest', Chain d (d.word (4096 * next + 116)) rest' ∧
      rest = next :: (entries d (4096 * next) 29 ++ rest')) := by
  cases h with
  | nil => exact .inl ⟨rfl, rfl⟩
  | node hb hrest => exact .inr ⟨hb, _, hrest, rfl⟩

theorem Chain.unique {rest' : List Nat} (h : Chain d next rest) (h' : Chain d next rest') :
    rest = rest' := by
  induction h generalizing rest' with
  | nil =>
    obtain ⟨-, rfl⟩ | ⟨hb, -⟩ := h'.inv
    · rfl
    · exact absurd rfl hb
  | node hb _ ih =>
    obtain ⟨hend, -⟩ | ⟨-, rest', hrest, rfl⟩ := h'.inv
    · exact absurd hend hb
    · rw [ih hrest]

/-- Nothing in the superblock's node, and no next node. -/
theorem FreeStack.of_end (hzero : d.word 8 = 0) (hlast : d.word 128 = listEnd) :
    FreeStack d [] := by
  refine ⟨by omega, ⟨[], ?_, ?_⟩, not_mem_nil⟩
  · rw [hlast]
    exact .nil
  · rw [hzero]
    rfl

theorem FreeStack.unique {st' : List Nat} (h : FreeStack d st) (h' : FreeStack d st') :
    st = st' := by
  obtain ⟨rest, hchain, rfl⟩ := h.chain
  obtain ⟨rest', hchain', rfl⟩ := h'.chain
  rw [hchain.unique hchain']

/-- A node has its 29 entries below it: only what is written to such a block touches the list. -/
theorem Chain.congr (h : Chain d next rest)
    (hsame : ∀ b below, b :: below <:+ rest → 29 ≤ below.length →
      ∀ i < 30, d'.word (4096 * b + 4 * i) = d.word (4096 * b + 4 * i)) : Chain d' next rest := by
  induction h with
  | nil => exact .nil
  | @node b rest hb _ ih =>
    have hlen : 29 ≤ (entries d (4096 * b) 29 ++ rest).length := by
      rw [length_append, length_entries]
      exact Nat.le_add_right ..
    have hhead := hsame b _ suffix_rfl hlen
    have hrest := ih fun c below hsuf =>
      hsame c below ((hsuf.trans (suffix_append ..)).trans (suffix_cons ..))
    rw [← hhead 29 (by decide)] at hrest
    have hnode := Chain.node hb hrest
    rwa [entries_congr fun i hi => hhead i (by omega)] at hnode

/-- The list is in the superblock and in the blocks of the list that are nodes. -/
theorem FreeStack.congr (h : FreeStack d st) (hsuper : ∀ x, 8 ≤ x → x < 132 → d' x = d x)
    (hnodes : ∀ b below, b :: below <:+ st → 29 ≤ below.length →
      ∀ x, 4096 * b ≤ x → x < 4096 * b + 4096 → d' x = d x) : FreeStack d' st := by
  obtain ⟨rest, hchain, hst⟩ := h.chain
  have hword : ∀ a, 8 ≤ a → a + 4 ≤ 132 → d'.word a = d.word a := fun a hle hlt =>
    word_congr fun x hx hx' => hsuper x (by omega) (by omega)
  have hnfree := hword 8 (by decide) (by decide)
  have hbound := h.nfree
  refine ⟨by omega, ⟨rest, ?_, ?_⟩, h.super⟩
  · rw [hword 128 (by decide) (by decide)]
    refine hchain.congr fun b below hsuf hlen i hi => word_congr fun x hle hlt => ?_
    exact hnodes b below (hst ▸ hsuf.trans (suffix_append ..)) hlen x (by omega) (by omega)
  · rw [hst, hnfree, entries_congr fun i hi => hword _ (by omega) (by omega)]

/-- The superblock, up to the end of its node, is not in a block of the list. -/
theorem Chain.congr_super (h : Chain d next rest) (h0 : 0 ∉ rest)
    (hsame : ∀ a ≥ 4096, d'.word a = d.word a) : Chain d' next rest := by
  refine h.congr fun b below hsuf _ i _ => hsame _ ?_
  have hpos : b ≠ 0 := fun heq => h0 (heq ▸ hsuf.subset (.head _))
  omega

theorem word_copy {a : Nat} (ha : a + 4 ≤ dst ∨ dst + n ≤ a) :
    (copy dst src n d).word a = d.word a :=
  word_congr fun x hle hlt => copy_of_not_mem (by omega) d

theorem word_copy_self (h : dst ≤ src ∨ src + n ≤ dst) (hi : i + 4 ≤ n) :
    (copy dst src n d).word (dst + i) = d.word (src + i) := by
  refine congrArg unpack (map_congr_left fun j hj => ?_)
  have hj := mem_range.mp hj
  rw [copy_apply h, if_pos (by omega)]
  congr 1
  omega

/-! ## 5. Freeing pushes -/

theorem FreeStack.push_entry (h : FreeStack d st) (hlt : d.word 8 < 29) (hb : b < 2 ^ 32)
    (h0 : b ≠ 0) :
    FreeStack ((d.setWord (12 + 4 * d.word 8) b).setWord 8 (d.word 8 + 1)) (b :: st) := by
  obtain ⟨rest, hchain, rfl⟩ := h.chain
  have hsuper := h.super
  generalize hn : d.word 8 = n at hlt hsuper ⊢
  generalize ht : (d.setWord (12 + 4 * n) b).setWord 8 (n + 1) = t
  have hword : ∀ a, 12 ≤ a → (a + 4 ≤ 12 + 4 * n ∨ 12 + 4 * n + 4 ≤ a) → t.word a = d.word a := by
    intro a hle hapart
    rw [← ht, word_setWord_of_disjoint (by omega), word_setWord_of_disjoint hapart]
  have hnfree : t.word 8 = n + 1 := by rw [← ht, word_setWord (by omega)]
  have htop : t.word (12 + 4 * n) = b := by
    rw [← ht, word_setWord_of_disjoint (by omega), word_setWord hb]
  have hrest : Chain t (t.word 128) rest := by
    rw [hword 128 (by omega) (by omega)]
    exact hchain.congr_super (fun hmem => hsuper (mem_append_right _ hmem)) fun a ha =>
      hword a (by omega) (by omega)
  refine ⟨by omega, ⟨rest, hrest, ?_⟩, ?_⟩
  · rw [hnfree, entries, htop, entries_congr fun i hi => hword _ (by omega) (by omega), cons_append]
  · exact not_mem_cons_of_ne_of_not_mem h0.symm hsuper

/-- The node of the superblock is full: the block takes it over. -/
theorem FreeStack.push_node (h : FreeStack d st) (hfull : d.word 8 = 29)
    (hb : b < listEnd) (h0 : b ≠ 0)
    (hnew : b ∉ st) : FreeStack (((copy (4096 * b) 12 120 d).setWord 8 0).setWord 128 b)
    (b :: st) := by
  obtain ⟨rest, hchain, rfl⟩ := h.chain
  have hsuper := h.super
  rw [hfull] at hnew hsuper ⊢
  have hbound : b < 2 ^ 32 := hb.trans (by decide)
  generalize ht : ((copy (4096 * b) 12 120 d).setWord 8 0).setWord 128 b = t
  have hnfree : t.word 8 = 0 := by
    rw [← ht, word_setWord_of_disjoint (by decide), word_setWord (by decide)]
  have hlast : t.word 128 = b := by rw [← ht, word_setWord hbound]
  have hnode : ∀ i < 30, t.word (4096 * b + 4 * i) = d.word (12 + 4 * i) := by
    intro i hi
    rw [← ht, word_setWord_of_disjoint (by omega), word_setWord_of_disjoint (by omega),
      word_copy_self (by omega) (by omega)]
  have hother : ∀ c ∈ rest, ∀ i < 30, t.word (4096 * c + 4 * i) = d.word (4096 * c + 4 * i) := by
    intro c hc i hi
    have hne : c ≠ b := fun heq => hnew (mem_append_right _ (heq ▸ hc))
    have hpos : c ≠ 0 := fun heq => hsuper (mem_append_right _ (heq ▸ hc))
    rw [← ht, word_setWord_of_disjoint (by omega), word_setWord_of_disjoint (by omega),
      word_copy (by omega)]
  have hrest : Chain t (t.word (4096 * b + 116)) rest := by
    rw [hnode 29 (by decide)]
    exact hchain.congr fun c below hsuf _ => hother c (hsuf.subset (.head _))
  have hchain' : Chain t (t.word 128) (b :: (entries d 12 29 ++ rest)) := by
    have hb' := Chain.node hb.ne hrest
    rwa [hlast, ← entries_congr fun i hi => hnode i (by omega)]
  refine ⟨by omega, ⟨_, hchain', ?_⟩, ?_⟩
  · rw [hnfree, entries, nil_append]
  · exact not_mem_cons_of_ne_of_not_mem h0.symm hsuper

/-- **Freeing pushes.** -/
theorem FreeStack.push (h : FreeStack d st) (hb : b < listEnd) (h0 : b ≠ 0) (hnew : b ∉ st) :
    FreeStack (freed d b) (b :: st) := by
  unfold freed
  split
  case isTrue hfull => exact h.push_node hfull hb h0 hnew
  case isFalse hfull =>
    exact h.push_entry (Nat.lt_of_le_of_ne h.nfree hfull) (hb.trans (by decide)) h0

/-! ## 6. Allocating pops -/

theorem allocBlock_entry (hpos : d.word 8 ≠ 0) (hle : d.word 8 ≤ 29) : allocBlock d =
      .ok (d.setWord 8 (d.word 8 - 1), getBlock (d.word (12 + 4 * (d.word 8 - 1)))) := by
  have hnfree : (d.setWord 8 (d.word 8 - 1)).word 8 = d.word 8 - 1 := word_setWord (by omega)
  unfold allocBlock
  rw [if_neg (show ¬ getNfree d > s5NblksPerFnode - 1 from hle.not_gt),
    if_neg (show ¬ getNfree d = 0 from hpos), setNfree, getNfree,
    put_eq (by omega), ok_bind, getNfree, hnfree, getFreeBlock_eq (by omega), ok_bind,
    word_setWord_of_disjoint (by omega)]
  rfl

theorem allocBlock_node (hzero : d.word 8 = 0) (hlast : d.word 128 ≠ listEnd) :
    allocBlock d =
      .ok ((copy 12 (4096 * d.word 128) 120 d).setWord 8 29, getBlock (d.word 128)) := by
  unfold allocBlock
  rw [if_neg (show ¬ getNfree d > s5NblksPerFnode - 1 from by rw [getNfree, hzero]; decide),
    if_pos (show getNfree d = 0 from hzero),
    if_neg (show ¬ getLastFreeBlock d = listEnd from hlast)]
  change (readFnode d (getBlock (d.word 128)) >>= fun d => _) = _
  rw [readFnode_eq, ok_bind, setNfree, put_eq (by decide)]
  rfl

theorem allocBlock_end (hzero : d.word 8 = 0) (hlast : d.word 128 = listEnd) :
    allocBlock d = .error .diskSpace := by
  unfold allocBlock
  rw [if_neg (show ¬ getNfree d > s5NblksPerFnode - 1 from by rw [getNfree, hzero]; decide),
    if_pos (show getNfree d = 0 from hzero),
    if_pos (show getLastFreeBlock d = listEnd from hlast)]
  rfl

theorem FreeStack.pop_empty (h : FreeStack d []) : allocBlock d = .error .diskSpace := by
  obtain ⟨rest, hchain, hst⟩ := h.chain
  obtain ⟨hentries, rfl⟩ := append_eq_nil_iff.mp hst.symm
  have hzero : d.word 8 = 0 := by
    match hn : d.word 8 with
    | 0 => rfl
    | n + 1 =>
      rw [hn] at hentries
      cases hentries
  have hlast : d.word 128 = listEnd := by
    obtain ⟨hend, -⟩ | ⟨-, _, -, hcons⟩ := hchain.inv
    · exact hend
    · cases hcons
  exact allocBlock_end hzero hlast

/-- **Allocating pops.** -/
theorem FreeStack.pop (h : FreeStack d (b :: st)) :
    ∃ t, allocBlock d = .ok (t, getBlock b) ∧ FreeStack t st := by
  obtain ⟨rest, hchain, hst⟩ := h.chain
  have hsuper : 0 ∉ st := fun hmem => h.super (.tail _ hmem)
  have hbound := h.nfree
  match hn : d.word 8 with
  | 0 =>
    rw [hn, entries, nil_append] at hst
    obtain ⟨-, rfl⟩ | ⟨hb, rest, hrest, rfl⟩ := hchain.inv
    · cases hst
    obtain ⟨rfl, rfl⟩ := cons.inj hst
    have hpos : d.word 128 ≠ 0 := fun heq => h.super (heq ▸ .head _ ..)
    refine ⟨_, allocBlock_node hn hb, ?_⟩
    generalize d.word 128 = b at hb hrest hpos hsuper ⊢
    generalize ht : (copy 12 (4096 * b) 120 d).setWord 8 29 = t
    have hnfree : t.word 8 = 29 := by rw [← ht, word_setWord (by decide)]
    have hnode : ∀ i < 30, t.word (12 + 4 * i) = d.word (4096 * b + 4 * i) := by
      intro i hi
      rw [← ht, word_setWord_of_disjoint (by omega), word_copy_self (by omega) (by omega)]
    have hrest' : Chain t (t.word 128) rest := by
      rw [hnode 29 (by decide)]
      refine hrest.congr_super (fun hmem => hsuper (mem_append_right _ hmem)) fun a ha => ?_
      rw [← ht, word_setWord_of_disjoint (by omega), word_copy (by omega)]
    refine ⟨by omega, ⟨rest, hrest', ?_⟩, hsuper⟩
    rw [hnfree, entries_congr fun i hi => hnode i (by omega)]
  | n + 1 =>
    rw [hn, entries, cons_append] at hst
    obtain ⟨rfl, rfl⟩ := cons.inj hst
    have hword : ∀ a ≥ 12, (d.setWord 8 n).word a = d.word a := fun a ha =>
      word_setWord_of_disjoint (by omega)
    have hnfree : (d.setWord 8 n).word 8 = n := word_setWord (by omega)
    have halloc := allocBlock_entry (d := d) (by omega) hbound
    rw [hn, Nat.succ_sub_one] at halloc
    refine ⟨_, halloc, by omega, ⟨rest, ?_, ?_⟩, hsuper⟩
    · rw [hword 128 (by omega)]
      exact hchain.congr_super (fun hmem => hsuper (mem_append_right _ hmem)) fun a ha =>
        hword a (by omega)
    · rw [hnfree, entries_congr fun i _ => hword _ (by omega)]

end

/-! ## 7. Any mix of the two -/

/-- The image, and the blocks that are in use: those handed out and not freed since. -/
structure FreeSys where
  disk : Mem
  out : List Nat

inductive FreeCall where
  | kernelFree (b : Nat)
  | toolFree (b : Nat)
  | alloc
deriving DecidableEq, Repr

/-- What stops a call: an assertion of the kernel, or an exception of the tool other than
`S5fsDiskSpaceException`, which leaves the image as it was. -/
inductive FreeStop where
  | kernel (h : Halt)
  | tool (e : ToolError)

def freeStep (s : FreeSys) : FreeCall → Except FreeStop FreeSys
  | .kernelFree b =>
    match s5FreeBlock s.disk b with
    | .ok d => .ok ⟨d, s.out.erase b⟩
    | .error h => .error (.kernel h)
  | .toolFree b =>
    match (getBlock b).free s.disk with
    | .ok d => .ok ⟨d, s.out.erase b⟩
    | .error e => .error (.tool e)
  | .alloc =>
    match allocBlock s.disk with
    | .ok (d, block) => .ok ⟨d, block.blockno :: s.out⟩
    | .error .diskSpace => .ok s
    | .error e => .error (.tool e)

/-- Blocks are freed that are blocks of a disk, are not the superblock and are not on the list. -/
def freeLegal (s : FreeSys) : FreeCall → Prop
  | .kernelFree b | .toolFree b => b ≠ 0 ∧ b < listEnd ∧ ∀ st, FreeStack s.disk st → b ∉ st
  | .alloc => True

/-- `st` is the list: no block is on it twice, in use twice, or on it and in use. -/
structure FreeInv (s : FreeSys) (st : List Nat) : Prop where
  stack : FreeStack s.disk st
  nodup : st.Nodup
  out : s.out.Nodup
  apart : ∀ b ∈ s.out, b ∉ st

section
variable {s : FreeSys} {st : List Nat}

theorem FreeInv.free (h : FreeInv s st) (h0 : b ≠ 0) (hb : b < listEnd) (hnew : b ∉ st) :
    FreeInv ⟨freed s.disk b, s.out.erase b⟩ (b :: st) where
  stack := by
    exact h.stack.push hb h0 hnew
  nodup := nodup_cons.mpr ⟨hnew, h.nodup⟩
  out := h.out.erase b
  apart c hc := by
    obtain ⟨hne, hout⟩ := (h.out.mem_erase_iff).mp hc
    exact not_mem_cons_of_ne_of_not_mem hne (h.apart c hout)

theorem FreeInv.alloc {t : Mem} (h : FreeInv s (b :: st)) (ht : FreeStack t st) :
    FreeInv ⟨t, b :: s.out⟩ st where
  stack := ht
  nodup := (nodup_cons.mp h.nodup).2
  out := nodup_cons.mpr ⟨fun hmem => h.apart b hmem (.head _), h.out⟩
  apart c hc := by
    obtain rfl | hout := mem_cons.mp hc
    · exact (nodup_cons.mp h.nodup).1
    · exact fun hmem => h.apart c hout (.tail _ hmem)

/-- What each call does to the list; every legal call returns. -/
theorem freeStep_spec {c : FreeCall} (h : FreeInv s st) (hl : freeLegal s c) :
    ∃ t st', freeStep s c = .ok t ∧ FreeInv t st' := by
  have hnfree := h.stack.nfree
  cases c with
  | kernelFree b =>
    obtain ⟨h0, hb, hnew⟩ := hl
    refine ⟨_, _, ?_, h.free h0 hb (hnew st h.stack)⟩
    rw [freeStep, s5FreeBlock_eq hnfree]
  | toolFree b =>
    obtain ⟨h0, hb, hnew⟩ := hl
    refine ⟨_, _, ?_, h.free h0 hb (hnew st h.stack)⟩
    rw [freeStep, free_eq hnfree (hb.trans (by decide))]
  | alloc =>
    cases st with
    | nil => exact ⟨s, [], by rw [freeStep, h.stack.pop_empty], h⟩
    | cons b st =>
      obtain ⟨t, halloc, ht⟩ := h.stack.pop
      refine ⟨_, st, ?_, h.alloc ht⟩
      rw [freeStep, halloc]
      rfl

theorem freeRun_inv {s₀ : FreeSys} {st₀ : List Nat} (h : FreeInv s₀ st₀)
    (hrun : Lts.Run freeLegal freeStep s₀ s) : ∃ st, FreeInv s st := by
  refine hrun.invariant (I := fun s => ∃ st, FreeInv s st) ⟨st₀, h⟩ ?_
  rintro t c u ⟨st, hinv⟩ hl hstep
  obtain ⟨u', st', hu, hinv'⟩ := freeStep_spec hinv hl
  cases hu.symm.trans hstep
  exact ⟨st', hinv'⟩

/-- Allocation fails on the empty list, and hands out a block that is not in use on any other. -/
theorem FreeInv.alloc_iff (h : FreeInv s st) :
    (allocBlock s.disk = .error .diskSpace ↔ st = []) ∧
      ∀ t block, allocBlock s.disk = .ok (t, block) →
        block.blockno ∈ st ∧ block.blockno ∉ s.out := by
  cases st with
  | nil =>
    rw [h.stack.pop_empty]
    exact ⟨⟨fun _ => rfl, fun _ => rfl⟩, nofun⟩
  | cons b st =>
    obtain ⟨t, halloc, -⟩ := h.stack.pop
    rw [halloc]
    refine ⟨⟨nofun, nofun⟩, ?_⟩
    rintro _ _ ⟨⟩
    exact ⟨.head _, fun hout => h.apart b hout (.head _)⟩

end

/-- **The kernel and the image tool keep one list.**  They free a block in the same way, whatever
the superblock holds; freeing pushes and `alloc_block` pops; and in any mix of calls no block is
on the list twice, none is handed out while it is in use, and allocation fails exactly on the
empty list. -/
theorem freeList_shared : (∀ d : Mem, d.word 8 ≤ 29 → ∀ b < 2 ^ 32,
      ∃ t, s5FreeBlock d b = .ok t ∧ (getBlock b).free d = .ok t) ∧
    (∀ d st, FreeStack d st → ∀ b, b ≠ 0 → b < listEnd → b ∉ st →
      ∃ t, s5FreeBlock d b = .ok t ∧ (getBlock b).free d = .ok t ∧ FreeStack t (b :: st) ∧
        ∃ u, allocBlock t = .ok (u, getBlock b) ∧ FreeStack u st) ∧
    (∀ s₀ st₀, FreeInv s₀ st₀ → ∀ s, Lts.Run freeLegal freeStep s₀ s →
      (∀ c, freeLegal s c → ∃ t, freeStep s c = .ok t) ∧
      ∃ st, FreeStack s.disk st ∧ st.Nodup ∧ s.out.Nodup ∧ (∀ b ∈ s.out, b ∉ st) ∧
        (allocBlock s.disk = .error .diskSpace ↔ st = []) ∧
        ∀ t block, allocBlock s.disk = .ok (t, block) →
          block.blockno ∈ st ∧ block.blockno ∉ s.out) := by
  refine ⟨?_, ?_, ?_⟩
  · intro d hnfree b hb
    exact ⟨_, s5FreeBlock_eq hnfree b, free_eq hnfree hb⟩
  · intro d st h b h0 hb hnew
    have hpush := h.push hb h0 hnew
    exact ⟨_, s5FreeBlock_eq h.nfree b, free_eq h.nfree (hb.trans (by decide)), hpush, hpush.pop⟩
  · intro s₀ st₀ h₀ s hrun
    obtain ⟨st, h⟩ := freeRun_inv h₀ hrun
    refine ⟨fun c hl => ?_, st, h.stack, h.nodup, h.out, h.apart, h.alloc_iff⟩
    obtain ⟨t, -, hstep, -⟩ := freeStep_spec h hl
    exact ⟨t, hstep⟩

def emptyList : Mem := Mem.setWord (fun _ => 0) 128 listEnd

theorem freeStack_emptyList : FreeStack emptyList [] :=
  .of_end ((word_setWord_of_disjoint (by decide)).trans rfl) (word_setWord (by decide))

/-- From that image on any blocks can be freed, one after the other. -/
theorem emptyList_frees : ∀ {st : List Nat}, st.Nodup → (∀ b ∈ st, b ≠ 0 ∧ b < listEnd) →
    ∃ s, Lts.Run freeLegal freeStep ⟨emptyList, []⟩ s ∧ FreeInv s st
  | [], _, _ => ⟨_, .refl, freeStack_emptyList, .nil, .nil, nofun⟩
  | b :: st, hnodup, hb => by
    obtain ⟨hnew, hnodup⟩ := nodup_cons.mp hnodup
    obtain ⟨s, hrun, h⟩ := emptyList_frees hnodup fun c hc => hb c (.tail _ hc)
    obtain ⟨h0, hlt⟩ := hb b (.head _)
    refine ⟨_, .tail (a := .kernelFree b) hrun ⟨h0, hlt, fun st' hst' => ?_⟩ ?_, h.free h0 hlt hnew⟩
    · rwa [hst'.unique h.stack]
    · rw [freeStep, s5FreeBlock_eq h.stack.nfree]

/-- 31 blocks have been freed, so that one of them holds the numbers that do not fit into the
superblock; one more is freed and handed out again. -/
theorem freeList_shared_spill : ∃ s t u, Lts.Run freeLegal freeStep ⟨emptyList, []⟩ s ∧
    FreeStack s.disk (range' 1 31) ∧ s.disk.word 8 ≤ 29 ∧
    allocBlock s.disk ≠ .error .diskSpace ∧
    s5FreeBlock s.disk 40 = .ok t ∧ (getBlock 40).free s.disk = .ok t ∧
    FreeStack t (40 :: range' 1 31) ∧
    allocBlock t = .ok (u, getBlock 40) ∧ FreeStack u (range' 1 31) := by
  obtain ⟨s, hrun, h⟩ := emptyList_frees (nodup_range' : (range' 1 31).Nodup) (by decide)
  have hempty : FreeInv ⟨emptyList, []⟩ [] := ⟨freeStack_emptyList, .nil, .nil, nofun⟩
  obtain ⟨-, st, hst, -, -, -, hiff, -⟩ := freeList_shared.2.2 _ [] hempty s hrun
  obtain ⟨t, hkernel, htool, hpush, u, hpop, hu⟩ :=
    freeList_shared.2.1 s.disk _ h.stack 40 (by decide) (by decide) (by decide)
  refine ⟨s, t, u, hrun, h.stack, h.stack.nfree, fun hfail => ?_, hkernel, htool, hpush, hpop, hu⟩
  cases (hst.unique h.stack).symm.trans (hiff.mp hfail)

end Weenix.S5fs
