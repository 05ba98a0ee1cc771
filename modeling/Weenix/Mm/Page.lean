/-
# The page allocator (`mm/page.c`)

The kernel's pages are handed out in blocks of `2 ^ order` pages, `order < PAGE_NSIZES`, by a
buddy allocator.  A `Pagegroup` keeps one free list per order and, for every order above 0, a
bitmap with ONE bit per block of that order: the exclusive or of "left half is free" and
"right half is free".  A free therefore decides whether to merge by flipping one bit and
looking at it; it never looks for the buddy on a free list.

This file translates the source function by function, on byte addresses.  What is kept:

* a `list_t` is the list of its links from `l_next` to `l_prev`; a `freepage` is its address;
* `list_remove` is given a link and no list, and unlinks it from whatever list it is on.  A link
  that is on none of the group's lists gives `Halt.wild`: the code would follow the two words
  it finds in that page;
* a bitmap is the list of the bits reserved for it; a bit outside it is `Halt.wild` too;
* 32-bit wrap-around, where `_pagegroup_create` can reach it.

`dbg` output, the poisoning of block contents (`MM_POISON`) and the gdb hooks are left out.
-/
import Mathlib.Data.Nat.Bitwise
import Weenix.Kernel

namespace Weenix.Page

/-! ## 1. Constants and machine arithmetic (`mm/page.h`) -/

def pageShift : Nat := 12

def pageSize : Nat := 1 <<< pageShift

theorem pageSize_eq : pageSize = 4096 := rfl

def pageNsizes : Nat := 8

/-- `sizeof(struct pagegroup)`: eight list heads, eight map pointers, two addresses, a link. -/
def sizeofPagegroup : Nat := 112

/-- Subtraction on `uintptr_t`. -/
def sub32 (a b : Nat) : Nat := (a + (2 ^ 32 - b % 2 ^ 32)) % 2 ^ 32

theorem sub32_eq {a b : Nat} (hb : b ≤ a) (ha : a < 2 ^ 32) : sub32 a b = a - b := by
  unfold sub32
  omega

def pageAlignDown (x : Nat) : Nat := x / pageSize * pageSize

/-- `(1 << order) << PAGE_SHIFT`: the bytes of a block. -/
def blockSize (order : Nat) : Nat := (1 <<< order) <<< pageShift

/-! ## 2. The bitmaps (`util/bits.h`) -/

def bitCheck (map : List Bool) (bit : Nat) : Except Halt Bool :=
  match map[bit]? with
  | some b => .ok b
  | none => .error .wild

def bitFlip (map : List Bool) (bit : Nat) : Except Halt (List Bool) :=
  match map[bit]? with
  | some b => .ok (map.set bit (!b))
  | none => .error .wild

/-! ## 3. Page groups -/

/-- `struct pagegroup`, both arrays indexed by order. -/
structure Pagegroup where
  pgFreelist : Nat → List Nat
  pgMap : Nat → List Bool
  pgBaseaddr : Nat
  pgEndaddr : Nat

/-- `list_insert_head(&group->pg_freelist[order], &((struct freepage *)addr)->fp_link)` -/
def Pagegroup.insertHead (group : Pagegroup) (order addr : Nat) : Pagegroup :=
  { group with
    pgFreelist := update group.pgFreelist order (addr :: group.pgFreelist order) }

/-- `list_remove_head(&group->pg_freelist[order])` -/
def Pagegroup.removeHead (group : Pagegroup) (order : Nat) : Pagegroup :=
  { group with
    pgFreelist := update group.pgFreelist order (group.pgFreelist order).tail }

/-- `list_remove(&((struct freepage *)addr)->fp_link)` -/
def Pagegroup.listRemove (group : Pagegroup) (addr : Nat) : Except Halt Pagegroup :=
  if (List.range pageNsizes).any fun o => (group.pgFreelist o).contains addr then
    .ok { group with pgFreelist := fun o => (group.pgFreelist o).erase addr }
  else .error .wild

/-- `bit_flip(group->pg_map[order], index)` -/
def Pagegroup.flip (group : Pagegroup) (order index : Nat) : Except Halt Pagegroup := do
  let map ← bitFlip (group.pgMap order) index
  return { group with pgMap := update group.pgMap order map }

/-- The bytes `_pagegroup_create` takes for `pg_map[order]`.  For fewer than `2 ^ order` pages
`count - 1` wraps and the map has no bytes. -/
def mapBytes (npages order : Nat) : Nat :=
  let count := npages >>> order
  let count := (sub32 count 1 / 8 * 8 + 8) % 2 ^ 32    -- `((count - 1) & ~0x7) + 8`
  count >>> 3

/-- The loop that allocates the bitmaps of orders `1 ..= n`, from the top of the range down. -/
def carveMaps (npages : Nat) : Nat → Nat → Nat
  | 0, end_ => end_
  | n + 1, end_ => sub32 (carveMaps npages n end_) (mapBytes npages (n + 1))

/-- The loop over `order` that puts the pages which do not fit into the largest order on the
smaller lists, for the orders below `n`.  Returns the new `end` with the lists. -/
def carveSmall (npages : Nat) : Nat → Nat → Nat × (Nat → List Nat)
  | 0, end_ => (end_, fun _ => [])
  | n + 1, end_ =>
    let small := carveSmall npages n end_
    if npages &&& (1 <<< n) ≠ 0 then
      let end_ := sub32 small.1 (blockSize n)
      (end_, update small.2 n [end_])
    else small

/-- The `while (current < end)` loop that fills the largest list. -/
def fillLargest (order end_ : Nat) : Nat → Nat → List Nat → List Nat
  | 0, _, list => list
  | fuel + 1, current, list =>
    if current < end_ then fillLargest order end_ fuel (current + blockSize order) (current :: list)
    else list

def pagegroupCreate (start end_ : Nat) : Except Halt Pagegroup := do
  kassert (0 < pageNsizes) "PAGE_NSIZES > 0"
  kassert (sizeofPagegroup ≤ pageSize) "sizeof(struct pagegroup) <= PAGE_SIZE"
  let npages := sub32 end_ start >>> pageShift
  let top := carveMaps npages (pageNsizes - 1) (sub32 end_ sizeofPagegroup)
  let map := fun order => if order = 0 then [] else List.replicate (8 * mapBytes npages order) false
  let end_ := pageAlignDown top
  let npages := sub32 end_ start >>> pageShift
  let order := pageNsizes - 1
  let small := carveSmall npages order end_
  kassert (sub32 small.1 start % (1 <<< order) == 0) "0 == (end - start) % (1 << order)"
  let largest := fillLargest order small.1 npages start []
  return ⟨update small.2 order largest, map, start, end_⟩

def pagegroupCalculateIndex (group : Pagegroup) (order addr : Nat) : Except Halt Nat := do
  kassert (addr % pageSize == 0) "PAGE_ALIGNED(addr)"
  kassert (order < pageNsizes) "PAGE_NSIZES > order"
  kassert (group.pgBaseaddr ≤ addr && addr < group.pgEndaddr)
    "addr >= group->pg_baseaddr && addr < group->pg_endaddr"
  let offset := addr - group.pgBaseaddr
  kassert (offset &&& ((1 <<< order) - 1) == 0) "0 == (offset & ((1 << order) - 1))"
  return (offset >>> order) >>> pageShift

/-- `if (order < PAGE_NSIZES - 1) bit_flip(group->pg_map[order + 1], index)` with the index of
`addr` at `order + 1`: how every caller records that the block at `addr` left or joined the
free list of `order`. -/
def Pagegroup.flipPair (group : Pagegroup) (order addr : Nat) : Except Halt Pagegroup :=
  if order < pageNsizes - 1 then do
    let index ← pagegroupCalculateIndex group (order + 1) addr
    group.flip (order + 1) index
  else .ok group

/-! ## 4. The allocator's state -/

/-- `pagegroup_list` and `page_freecount`. -/
structure PageSys where
  pagegroupList : List Pagegroup
  pageFreecount : Nat

def pageInit : PageSys := ⟨[], 0⟩

def pageAddRange (sys : PageSys) (start end_ : Nat) : Except Halt PageSys := do
  let start := pageAlignDown start
  let end_ := pageAlignDown end_
  let group ← pagegroupCreate start end_
  if group.pgBaseaddr < group.pgEndaddr then
    return ⟨sys.pagegroupList ++ [group],
      sys.pageFreecount + (group.pgEndaddr - group.pgBaseaddr) >>> pageShift⟩
  else return sys

/-- `_pagegroup_from_address(addr)`, as the position of the group on `pagegroup_list`. -/
def pagegroupFromAddress (sys : PageSys) (addr : Nat) : Option Nat :=
  sys.pagegroupList.findIdx? fun group => group.pgBaseaddr ≤ addr && addr < group.pgEndaddr

/-! ## 5. Allocation -/

/-- `__page_split(group, order)` -/
def pageSplit1 (group : Pagegroup) (order : Nat) : Except Halt Pagegroup := do
  kassert (0 < order) "0 < order"
  kassert (order < pageNsizes) "PAGE_NSIZES > order"
  match group.pgFreelist order with
  | [] => .error (.kassert "!list_empty(&group->pg_freelist[order])")
  | target :: _ =>
    -- splitting the page requires marking it as allocated
    let group ← (group.removeHead order).flipPair order target
    let index ← pagegroupCalculateIndex group order target
    let bit ← bitCheck (group.pgMap order) index
    kassert (!bit)
      "!bit_check(group->pg_map[order], _pagegroup_calculate_index(group, order, target))"
    let buddy := target + blockSize (order - 1)
    return (group.insertHead (order - 1) target).insertHead (order - 1) buddy

/-- The `while (norder > order)` loop of `_page_split`: `n` splits, from order `order + n` down. -/
def pageSplitDown (order : Nat) : Nat → Pagegroup → Except Halt Pagegroup
  | 0, group => .ok group
  | n + 1, group => do pageSplitDown order n (← pageSplit1 group (order + (n + 1)))

/-- The search of `_page_split` for the first free block of an order above `order`: the orders
`norder, norder + 1, ..` in turn, each over all groups. -/
def pageSplitSearch (sys : PageSys) : Nat → Nat → Option (Nat × Nat)
  | 0, _ => none
  | fuel + 1, norder =>
    match sys.pagegroupList.findIdx? fun group => !(group.pgFreelist norder).isEmpty with
    | some i => some (i, norder)
    | none => pageSplitSearch sys fuel (norder + 1)

/-- `_page_alloc_order` from the label `found` on, in the group at position `i`. -/
def pageTake (sys : PageSys) (i order : Nat) : Except Halt (PageSys × Nat) :=
  match sys.pagegroupList[i]? with
  | none => .error .wild
  | some group =>
    match group.pgFreelist order with
    | [] => .error (.kassert "!list_empty(&group->pg_freelist[order])")
    | addr :: _ => do
      let group ← (group.removeHead order).flipPair order addr
      return (⟨sys.pagegroupList.set i group, sys.pageFreecount - 1 <<< order⟩, addr)

/-! ## 6. Freeing -/

/-- `__page_join(group, order, addr)`.  The loop counts `order` up to `PAGE_NSIZES - 1`. -/
def pageJoin : Nat → Pagegroup → Nat → Nat → Except Halt Pagegroup
  | 0, group, _, _ => .ok group
  | fuel + 1, group, order, addr =>
    if order < pageNsizes - 1 then do
      let index ← pagegroupCalculateIndex group (order + 1) addr
      if ← bitCheck (group.pgMap (order + 1)) index then return group
      let offset := addr - group.pgBaseaddr
      let buddy :=
        if ((offset >>> pageShift) >>> order) &&& 1 ≠ 0 then addr - blockSize order
        else addr + blockSize order
      kassert (offset &&& ((1 <<< order) - 1) == 0) "0 == (offset & ((1 << order) - 1))"
      let group ← group.listRemove addr
      let group ← group.listRemove buddy
      let addr := min addr buddy
      let order := order + 1
      let group ← (group.insertHead order addr).flipPair order addr
      pageJoin fuel group order addr
    else .ok group

/-- The part of `_page_free_order` that works on the group. -/
def pageGive (group : Pagegroup) (addr order : Nat) : Except Halt Pagegroup := do
  let group := group.insertHead order addr
  if order < pageNsizes - 1 then do
    let group ← group.flipPair order addr
    pageJoin pageNsizes group order addr
  else .ok group

def pageFreeOrder (sys : PageSys) (addr order : Nat) : Except Halt PageSys :=
  match pagegroupFromAddress sys addr with
  | none => .ok sys
  | some i =>
    match sys.pagegroupList[i]? with
    | none => .error .wild
    | some group => do
      let group ← pageGive group addr order
      return ⟨sys.pagegroupList.set i group, sys.pageFreecount + 1 <<< order⟩

/-- The loop of `page_alloc_n` and `page_free_n` over `order`.  `(int)npages` is negative from
`2 ^ 31` on, so such a request gets order 0. -/
def pageOrderFrom (npages : Nat) : Nat → Nat → Option Nat
  | 0, _ => none
  | fuel + 1, order =>
    if npages ≤ 1 <<< order ∨ 2 ^ 31 ≤ npages then some order
    else pageOrderFrom npages fuel (order + 1)

/-- The order `page_alloc_n` and `page_free_n` use for `npages`, or their panic. -/
def pageOrder (npages : Nat) : Except Halt Nat :=
  match pageOrderFrom npages pageNsizes 0 with
  | some order => .ok order
  | none => .error (.panic "Implementation does not permit allocating %u pages!\n")

def pageFreeN (sys : PageSys) (start npages : Nat) : Except Halt PageSys := do
  let order ← pageOrder npages
  pageFreeOrder sys start order

/-- The `page_free_n` calls of one `slab_allocators_reclaim(0)`: the address and the pages of
each empty slab, in the order the caches are walked. -/
def slabAllocatorsReclaim (sys : PageSys) : List (Nat × Nat) → Except Halt PageSys
  | [] => .ok sys
  | (addr, npages) :: rest => do slabAllocatorsReclaim (← pageFreeN sys addr npages) rest

/-- `_page_split(order)`: the group where the split took place.  `__SHADOWD__` is off, so the
loop runs once and a reclaim is followed by `return NULL`. -/
def pageSplit (sys : PageSys) (order : Nat) (empty : List (Nat × Nat)) :
    Except Halt (PageSys × Option Nat) :=
  match pageSplitSearch sys (pageNsizes - 1 - order) (order + 1) with
  | none => do return (← slabAllocatorsReclaim sys empty, none)
  | some (i, norder) =>
    match sys.pagegroupList[i]? with
    | none => .error .wild
    | some group => do
      let group ← pageSplitDown order (norder - order) group
      kassert (!(group.pgFreelist order).isEmpty) "!list_empty(&group->pg_freelist[order])"
      return (⟨sys.pagegroupList.set i group, sys.pageFreecount⟩, some i)

/-- `_page_alloc_order(order)`.  `empty` lists the empty slabs a reclaim would find. -/
def pageAllocOrder (sys : PageSys) (order : Nat) (empty : List (Nat × Nat)) :
    Except Halt (PageSys × Option Nat) :=
  match sys.pagegroupList.findIdx? fun group => !(group.pgFreelist order).isEmpty with
  | some i => do
    let (sys, addr) ← pageTake sys i order
    return (sys, some addr)
  | none => do
    match ← pageSplit sys order empty with
    | (sys, none) => return (sys, none)
    | (sys, some i) => do
      let (sys, addr) ← pageTake sys i order
      return (sys, some addr)

def pageAllocN (sys : PageSys) (npages : Nat) (empty : List (Nat × Nat)) :
    Except Halt (PageSys × Option Nat) := do
  let order ← pageOrder npages
  pageAllocOrder sys order empty

end Weenix.Page
