import Peephole.Rule

/-!
# Settings

Which rules are tried, how many rewrites are allowed, and whether the
bookkeeping is audited after each of them.
-/

namespace Peephole

structure Settings where
  stack : Bool := true
  arithmetic : Bool := true
  slots : Bool := true
  jumps : Bool := true
  /-- The number of rewrites allowed; `none` leaves it to the size of the body. -/
  maxRewrites : Option Nat := none
  auditEachStep : Bool := true
  deriving DecidableEq, Repr

namespace Settings

def enables (settings : Settings) : Category → Bool
  | .stack => settings.stack
  | .arithmetic => settings.arithmetic
  | .slots => settings.slots
  | .jumps => settings.jumps

/-- The rules of the enabled categories, in the order in which they are tried. -/
def rules (settings : Settings) : List Rule :=
  Rule.all.filter fun rule => settings.enables rule.category

/-- The number of rewrites allowed on code of a certain length with a certain number of
labels: unless it is set, a generous multiple of the most that these permit. -/
def limit (settings : Settings) (length labels : Nat) : Nat :=
  settings.maxRewrites.getD (max 1024 (8 * (length + 1) * (labels + 2)))

/-- The number of rewrites allowed on a body. -/
def rewriteLimit (settings : Settings) (body : Body) : Nat :=
  settings.limit body.length body.labels.size

end Settings

end Peephole
