import Peephole.Instruction

/-!
# Shapes of instructions

What the rules ask about an instruction before they look further: whether it has a certain
shape, and with which operands.
-/

namespace Peephole.Instruction

/-- The variable that is loaded, by a load of a certain kind. -/
def load? (kind : Kind) : Instruction → Option Slot
  | .load kind' slot => if kind' = kind then some slot else none
  | _ => none

/-- The variable that is stored, by a store of a certain kind. -/
def store? (kind : Kind) : Instruction → Option Slot
  | .store kind' slot => if kind' = kind then some slot else none
  | _ => none

def increment? : Instruction → Option (Slot × Int8)
  | .increment slot amount => some (slot, amount)
  | _ => none

def const? : Instruction → Option Int32
  | .const value => some value
  | _ => none

def goto? : Instruction → Option LabelId
  | .goto target => some target
  | _ => none

/-- The label that a certain test of one word jumps to. -/
def test? (check : ZeroTest) : Instruction → Option LabelId
  | .branch (.test check') target => if check' = check then some target else none
  | _ => none

/-- The label that a comparison of two words jumps to. -/
def comparison? : Instruction → Option LabelId
  | .branch (.compare _) target => some target
  | _ => none

/-- A jump that may not be taken, as a whole. -/
def conditional? (instruction : Instruction) : Option Instruction :=
  if instruction.isConditional then some instruction else none

/-- What an instruction that uses a variable tells about its old value: whether it is lost
for good, because it is overwritten, or still needed. -/
def loses? (slot : Slot) : Instruction → Option Bool
  | .store _ slot' => if slot' = slot then some true else none
  | .load _ slot' | .increment slot' _ => if slot' = slot then some false else none
  | _ => none

end Peephole.Instruction
