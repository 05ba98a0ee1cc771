/-
# The slab allocator (`mm/slab.c`)

A cache (`SlabAllocator`) hands out objects of one size from blocks of pages, its slabs.  A slab
holds its objects one after the other and its descriptor after the last of them:

    object 0 | control 0 | object 1 | control 1 | ... | struct slab

An object has a red zone of one word at each end.  Its control words are a link, to the next free
object while it is free and to the slab while it is in use, and a byte that tells which.  All of
this is in the same memory as what the clients write, so the model works on the bytes: `Mem` is the
kernel's memory, and a `struct slab` is four words of it.

The caches themselves are records beside the memory, under numbers; `slab_allocators` is the list of
these numbers.  `page_alloc_n` is the caller's to answer: a block, or nothing, in which case it has
called `slab_allocators_reclaim(0)` on the way (`_page_split` in `mm/page.c`).  The calls of
`page_free_n` are returned.  `sa_name`, `dbg` output and the gdb hooks are left out.
-/
import Weenix.Lib.Bytes
import Weenix.Mm.Page

namespace Weenix.Slab

open Bytes Bytes.Mem Weenix.Page

/-! ## 1. Caches -/

def slabRedzone : Nat := 0xdeadbeef

/-- `sizeof(struct slab_bufctl)`: the link, the byte `sb_free`, and padding. -/
def sizeofBufctl : Nat := 8

/-- `sizeof(struct slab)`: `s_next`, `s_inuse`, `s_free` and `s_addr`. -/
def sizeofSlab : Nat := 16

def slabMaxOrder : Nat := 5

/-- A word read as an `int`. -/
def asInt (w : Nat) : Int := if w % 2 ^ 32 < 2 ^ 31 then (w % 2 ^ 32 : Nat)
    else (w % 2 ^ 32 : Nat) - 2 ^ 32

/-- `struct slab_allocator`.  `sa_objsize` is the size with the red zones; a null
`sa_slabs` is 0. -/
structure SlabAllocator where
  saObjsize : Nat
  saSlabs : Nat
  saOrder : Nat
  saSlabNobjs : Nat
deriving DecidableEq, Repr

def slabSize (objsize nobjs : Nat) : Nat := (nobjs * (objsize + sizeofBufctl) + sizeofSlab) % 2 ^ 32

def slabNobjs (objsize order : Nat) : Nat :=
  ((pageSize <<< order) - sizeofSlab) / ((objsize + sizeofBufctl) % 2 ^ 32)

def slabWaste (objsize order : Nat) : Int :=
  asInt (sub32 (pageSize <<< order) (slabSize objsize (slabNobjs objsize order)))

/-- The search of `_calc_slab_size` for the smallest block that holds an object. -/
def minOrder (objsize : Nat) : Option Nat :=
  (List.range pageNsizes).find? fun order => asInt (slabSize objsize 1) ≤ asInt (pageSize <<< order)

/-- The orders after `minorder`, up to the limit: the first one with the least waste. -/
def bestOrder (objsize minorder : Nat) : Nat × Int :=
  (List.range' (minorder + 1) (slabMaxOrder - (minorder + 1))).foldl (fun best order =>
    let waste := slabWaste objsize order
    if waste < best.2 then (order, waste) else best) (minorder, slabWaste objsize minorder)

/-- `_calc_slab_size(allocator)`: `sa_order` and `sa_slab_nobjs`. -/
def calcSlabSize (objsize : Nat) : Except Halt (Nat × Nat) :=
  match minOrder objsize with
  | none => .error (.panic "unable to find minorder\n")
  | some minorder =>
    let best := bestOrder objsize minorder
    .ok (best.1, slabNobjs objsize best.1)

/-- `_allocator_init(allocator, name, size)`, but for the list of allocators. -/
def allocatorInit (size : Nat) : Except Halt SlabAllocator := do
  let objsize := (size + 2 * 4) % 2 ^ 32
  let (order, nobjs) ← calcSlabSize objsize
  return ⟨objsize, 0, order, nobjs⟩

/-! ## 2. The state -/

/-- The kernel's memory and its caches. -/
structure SlabSys where
  mem : Mem
  slabAllocators : List Nat
  allocator : Nat → SlabAllocator

/-- `slab_allocator_create`: the new cache is first on the list. -/
def slabAllocatorCreate (s : SlabSys) (size : Nat) : Except Halt SlabSys := do
  let a ← allocatorInit size
  let c := s.slabAllocators.length
  return { s with slabAllocators := c :: s.slabAllocators, allocator := update s.allocator c a }

/-- `obj_bufctl(allocator, obj)`; the link is its first word. -/
def objBufctl (a : SlabAllocator) (obj : Nat) : Nat := obj + a.saObjsize

/-- `&obj_bufctl(allocator, obj)->sb_free` -/
def sbFree (a : SlabAllocator) (obj : Nat) : Nat := objBufctl a obj + 4

def nextObj (a : SlabAllocator) (obj : Nat) : Nat := obj + a.saObjsize + sizeofBufctl

/-- `&rear_rz(cache, obj)`; the front red zone is at `obj`. -/
def rearRz (a : SlabAllocator) (obj : Nat) : Nat := obj + a.saObjsize - 4

def redzoneMsg : String := "alloc: red-zone check failed: *(0x%p)=0x%.8x\n"

def verifyRedzones (m : Mem) (a : SlabAllocator) (obj : Nat) : Except Halt Unit :=
  if m.word obj ≠ slabRedzone then .error (.panic redzoneMsg)
  else if m.word (rearRz a obj) ≠ slabRedzone then .error (.panic redzoneMsg)
  else .ok ()

/-- Lists of slabs are followed for as many steps as there are addresses: a longer list
has no end. -/
def walkLimit : Nat := 2 ^ 32

/-! ## 3. Reclaiming -/

/-- What the loops of `slab_allocators_reclaim` have done: the memory, `sa_slabs` of the cache they
are at, `npages_freed`, and the calls of `page_free_n`. -/
structure Reclaim where
  mem : Mem
  saSlabs : Nat
  npagesFreed : Nat
  released : List (Nat × Nat)

/-- `(*prev) = next`, with `prev` the slab whose `s_next` is changed, or none for `sa_slabs`. -/
def unlink (r : Reclaim) (prev : Option Nat) (next : Nat) : Reclaim :=
  match prev with
  | none => { r with saSlabs := next }
  | some p => { r with mem := r.mem.setWord p next }

/-- The `while` loop over the slabs of a cache with `npages` pages in a slab.  Returns whether the
target was met. -/
def reclaimSlabs (target : Int) (npages : Nat) :
    Nat → Option Nat → Nat → Reclaim → Except Halt (Reclaim × Bool)
  | 0, _, _, _ => .error .hang
  | fuel + 1, prev, s, r =>
    if s = 0 then .ok (r, false) else
      let next := r.mem.word s
      let (prev, r) :=
        if r.mem.word (s + 4) = 0 then
          let r := unlink r prev next
          let addr := r.mem.word (s + 12)
          (prev, { r with npagesFreed := r.npagesFreed + npages, released := r.released ++
            [(addr, npages)] })
        else (some s, r)
      if target > 0 ∧ (r.npagesFreed : Int) ≥ target then .ok (r, true)
      else reclaimSlabs target npages fuel prev next r

def reclaimCaches (target : Int) :
    List Nat → SlabSys → Nat → List (Nat × Nat) → Except Halt (SlabSys × Nat × List (Nat × Nat))
  | [], s, freed, released => .ok (s, freed, released)
  | c :: cs, s, freed, released => do
    let a := s.allocator c
    let (r, met) ← reclaimSlabs target (1 <<< a.saOrder) walkLimit none a.saSlabs
      ⟨s.mem, a.saSlabs, freed, released⟩
    let s := { s with
      mem := r.mem, allocator := update s.allocator c { a with saSlabs := r.saSlabs } }
    if met then return (s, r.npagesFreed, r.released)
    else reclaimCaches target cs s r.npagesFreed r.released

/-- `slab_allocators_reclaim(target)`: what it returns, and the blocks it gave to `page_free_n`. -/
def slabAllocatorsReclaim (s : SlabSys) (target : Int) :
    Except Halt (SlabSys × Nat × List (Nat × Nat)) :=
  reclaimCaches target s.slabAllocators s 0 []

/-! ## 4. Growing -/

/-- The loop that threads the free list through the first `n` objects; `obj` is the next one. -/
def threadObjs (a : SlabAllocator) (addr : Nat) : Nat → Mem → Mem × Nat
  | 0, m => (m, addr)
  | n + 1, m =>
    let (m, obj) := threadObjs a addr n m
    let m := m.write (sbFree a obj) [1]
    (m.setWord (objBufctl a obj) (nextObj a obj), nextObj a obj)

/-- The loop that sets the red zones of the first `n` objects. -/
def initObjs (a : SlabAllocator) (addr : Nat) : Nat → Mem → Mem × Nat
  | 0, m => (m, addr)
  | n + 1, m =>
    let (m, obj) := initObjs a addr n m
    let m := m.setWord obj slabRedzone
    (m.setWord (rearRz a obj) slabRedzone, nextObj a obj)

/-- `_slab_allocator_grow(allocator)` with a block of pages at `addr`. -/
def slabAllocatorGrow (s : SlabSys) (c addr : Nat) : SlabSys :=
  let a := s.allocator c
  let (m, obj) := threadObjs a addr (a.saSlabNobjs - 1) s.mem
  -- the last bufctl is the tail of the list
  let m := m.write (sbFree a obj) [1]
  let m := m.setWord (objBufctl a obj) 0
  let slab := nextObj a obj
  let m := m.setWord (slab + 8) addr
  let m := m.setWord (slab + 12) addr
  let m := m.setWord (slab + 4) 0
  let (m, _) := initObjs a addr a.saSlabNobjs m
  let m := m.setWord slab a.saSlabs
  { s with mem := m, allocator := update s.allocator c { a with saSlabs := slab } }

/-! ## 5. Objects -/

/-- The `while` loop of `slab_obj_alloc`: the first slab that is not full. -/
def findSlab (m : Mem) (nobjs : Nat) : Nat → Nat → Except Halt Nat
  | 0, _ => .error .hang
  | fuel + 1, slab =>
    if slab = 0 then .ok 0
    else if m.word (slab + 4) = nobjs then findSlab m nobjs fuel (m.word slab)
    else .ok slab

/-- `slab && (slab->s_inuse < allocator->sa_slab_nobjs)` -/
def usable (m : Mem) (nobjs slab : Nat) : Bool := slab != 0 && asInt (m.word (slab + 4)) < nobjs

/-- `slab_obj_alloc` once there is a slab with a free object. -/
def takeObj (s : SlabSys) (c slab : Nat) : Except Halt (SlabSys × Nat) := do
  let a := s.allocator c
  let obj := s.mem.word (slab + 8)
  let m := s.mem.setWord (slab + 8) (s.mem.word (objBufctl a obj))
  let m := m.setWord (objBufctl a obj) slab
  let m := m.write (sbFree a obj) [0]
  let m := m.setWord (slab + 4) ((m.word (slab + 4) + 1) % 2 ^ 32)
  verifyRedzones m a obj
  return ({ s with mem := m }, obj + 4)

/-- What a call did beside its result: blocks taken from `page_alloc_n` and given to
`page_free_n`. -/
structure Pages where
  taken : List (Nat × Nat)
  released : List (Nat × Nat)

/-- `slab_obj_alloc(allocator)`.  `page` is what `page_alloc_n` answers if it is called: the loop
calls it when no slab has a free object, and looks at the slabs again. -/
def slabObjAlloc (s : SlabSys) (c : Nat) (page : Option Nat) :
    Except Halt (SlabSys × Option Nat × Pages) := do
  let nobjs := (s.allocator c).saSlabNobjs
  let slab ← findSlab s.mem nobjs walkLimit (s.allocator c).saSlabs
  if usable s.mem nobjs slab then
    let (s, obj) ← takeObj s c slab
    return (s, some obj, ⟨[], []⟩)
  else match page with
    | none =>
      let (s, _, released) ← slabAllocatorsReclaim s 0
      return (s, none, ⟨[], released⟩)
    | some addr =>
      let npages := 1 <<< (s.allocator c).saOrder
      let s := slabAllocatorGrow s c addr
      let slab ← findSlab s.mem nobjs walkLimit (s.allocator c).saSlabs
      if usable s.mem nobjs slab then
        let (s, obj) ← takeObj s c slab
        return (s, some obj, ⟨[(addr, npages)], []⟩)
      else .error .hang

def slabObjFree (s : SlabSys) (c obj : Nat) : Except Halt SlabSys := do
  let a := s.allocator c
  let obj := obj - 4
  verifyRedzones s.mem a obj
  kassert (s.mem (sbFree a obj) == 0) "!obj_bufctl(allocator, obj)->sb_free && \"INVALID FREE!\""
  let m := s.mem.write (sbFree a obj) [1]
  let slab := m.word (objBufctl a obj)
  let m := m.setWord (objBufctl a obj) (m.word (slab + 8))
  let m := m.setWord (slab + 8) obj
  let m := m.setWord (slab + 4) (sub32 (m.word (slab + 4)) 1)
  return { s with mem := m }

/-! ## 6. The allocator and its clients -/

/-- The allocator, the objects that are live, each with its cache, and the blocks of pages that are
held, each with its number of pages. -/
structure SlabHeap where
  sys : SlabSys
  live : List (Nat × Nat)
  held : List (Nat × Nat)

/-- Before `slab_init`. -/
def SlabHeap.init (m : Mem) : SlabHeap := ⟨⟨m, [], fun _ => ⟨0, 0, 0, 0⟩⟩, [], []⟩

/-- `write` is what anyone else does to the memory. -/
inductive SlabCall where
  | create (size : Nat)
  | alloc (c : Nat) (page : Option Nat)
  | free (c obj : Nat)
  | reclaim (target : Int)
  | write (addr : Nat) (data : List UInt8)

def slabStep (h : SlabHeap) : SlabCall → Except Halt SlabHeap
  | .create size => do return { h with sys := ← slabAllocatorCreate h.sys size }
  | .alloc c page => do
    let (sys, obj, pages) ← slabObjAlloc h.sys c page
    return ⟨sys, (obj.map fun p => (c, p)).toList ++ h.live,
      pages.taken ++ h.held.filter fun b => b ∉ pages.released⟩
  | .free c obj =>
    do return { h with sys := ← slabObjFree h.sys c obj, live := h.live.erase (c, obj) }
  | .reclaim target => do
    let (sys, _, released) ← slabAllocatorsReclaim h.sys target
    return { h with sys := sys, held := h.held.filter fun b => b ∉ released }
  | .write addr data => .ok { h with sys := { h.sys with mem := h.sys.mem.write addr data } }

/-- The bytes of a slab. -/
def SlabAllocator.bytes (a : SlabAllocator) : Nat := pageSize <<< a.saOrder

/-- The range from `addr` on has no byte of a block that is held. -/
def Outside (h : SlabHeap) (addr len : Nat) : Prop :=
  ∀ b ∈ h.held, addr + len ≤ b.1 ∨ b.1 + b.2 * pageSize ≤ addr
deriving Decidable

/-- What callers may do: caches are for objects of which one fits in the largest block, with its red
zones, its control words and a descriptor; `page_alloc_n` answers with blocks that nobody holds;
only live objects are freed, to their cache; and memory is written inside of live objects and
outside of slabs. -/
def slabLegal (h : SlabHeap) : SlabCall → Prop
  | .create size => size + 2 * 4 + sizeofBufctl + sizeofSlab ≤ pageSize <<< (pageNsizes - 1)
  | .alloc c page => c ∈ h.sys.slabAllocators ∧ ∀ addr, page = some addr →
      addr ≠ 0 ∧ addr + (h.sys.allocator c).bytes ≤ 2 ^ 32 ∧
        Outside h addr (h.sys.allocator c).bytes
  | .free c obj => (c, obj) ∈ h.live
  | .reclaim _ => True
  | .write addr data => Outside h addr data.length ∨ ∃ o ∈ h.live, o.2 ≤ addr ∧
      addr + data.length + 2 * 4 ≤ o.2 + (h.sys.allocator o.1).saObjsize

instance (h : SlabHeap) : (call : SlabCall) → Decidable (slabLegal h call)
  | .create size =>
    inferInstanceAs (Decidable (size + 2 * 4 + sizeofBufctl + sizeofSlab ≤
      pageSize <<< (pageNsizes - 1)))
  | .alloc c none =>
    decidable_of_iff (c ∈ h.sys.slabAllocators) ⟨fun hc => ⟨hc, nofun⟩, fun hl => hl.1⟩
  | .alloc c (some addr) =>
    decidable_of_iff (c ∈ h.sys.slabAllocators ∧ addr ≠ 0 ∧
      addr + (h.sys.allocator c).bytes ≤ 2 ^ 32 ∧
      Outside h addr (h.sys.allocator c).bytes)
      ⟨fun hl => ⟨hl.1, fun _ heq => Option.some.inj heq ▸ hl.2⟩, fun hl => ⟨hl.1, hl.2 addr rfl⟩⟩
  | .free c obj => inferInstanceAs (Decidable ((c, obj) ∈ h.live))
  | .reclaim _ => inferInstanceAs (Decidable True)
  | .write addr data =>
    inferInstanceAs (Decidable (Outside h addr data.length ∨ ∃ o ∈ h.live, o.2 ≤ addr ∧
      addr + data.length + 2 * 4 ≤ o.2 + (h.sys.allocator o.1).saObjsize))

end Weenix.Slab
