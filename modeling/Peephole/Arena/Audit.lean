import Peephole.Arena.Work
import Peephole.Body.Audit

/-!
# Auditing an arena

An audit follows the links from the head, counts the jumps that it meets, and compares what
it has seen with the label table.
-/

namespace Peephole

/-- The jumps to each label as words hold their numbers. -/
def Overflow.counts (overflow : Overflow) (targets : List LabelId) : Option (LabelId → Nat) :=
  if targets.all fun id => (overflow.word (targets.count id)).isSome then
    some fun id => (overflow.word (targets.count id)).getD 0
  else
    none

/-- Compares the label table of an arena with its lines. -/
def Arena.audit (overflow : Overflow) (arena : Arena) : Option (Except Fault Unit) := do
  let lines ← arena.lines?
  let count ← overflow.counts (Line.targets lines)
  match Body.linesFault? arena.labels count lines with
  | some fault => return .error fault
  | none => return .ok ()

def Work.audit (overflow : Overflow) : Work Unit := fun arena =>
  (arena.audit overflow).map (·, arena)

theorem Work.on_audit (overflow : Overflow) (arena : Arena) :
    (audit overflow).on arena = (arena.audit overflow).map (·, arena) := rfl

end Peephole
