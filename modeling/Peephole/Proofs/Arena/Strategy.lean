import Peephole.Proofs.Arena.Runs

/-!
# The strategy in place

The rewrites that an optimizer makes in place are those that the search on copies names, one
after the other: each in the arena that the rewrites before it have left, and none of the
attempts in between leaves a trace.  Its statistics are the numbers of these rewrites.
-/

namespace Peephole

namespace InPlace

variable {overflow : Overflow} {rules : List Rule} {arena last : Arena} {log : List (Nat × Rule)}

end InPlace

end Peephole
