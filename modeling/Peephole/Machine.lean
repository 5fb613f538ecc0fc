import Peephole.Instruction

/-!
# The reference machine

A machine runs an instruction list from its first instruction until control
falls off the end.  Every executed instruction, labels included, costs one unit
of fuel.  The code need not be well formed: a jump to an undefined label traps
when it is taken, and of two labels with one number the last is the target.
-/

namespace Peephole

/-- Why a run stops before the end of the code. -/
inductive Trap where
  | divisionByZero
  | stackUnderflow (index : Nat)
  | unknownLabel (id : LabelId)
  | slotOutOfRange (slot : Slot)
  | outOfFuel (steps : Nat)
  deriving DecidableEq, Repr

def Trap.message : Trap → String
  | .divisionByZero => "division by zero"
  | .stackUnderflow index => "stack underflow at instruction " ++ toString index
  | .unknownLabel id => "jump to unknown label " ++ toString id.toNat
  | .slotOutOfRange slot => "slot " ++ toString slot.toNat ++ " out of range"
  | .outOfFuel steps => "out of fuel after " ++ toString steps ++ " steps"

namespace Machine

/-- A machine between two instructions: `next` is the index of the instruction
to execute, and the operand stack is listed from its top. -/
structure State where
  next : Nat
  stack : List Int32
  locals : List Int32
  deriving DecidableEq, Repr

/-- What is left of a run that reached the end of the code. -/
structure Final where
  stack : List Int32
  locals : List Int32
  steps : Nat
  deriving DecidableEq, Repr

/-- The index of the last definition of a label. -/
def labelIndex? (id : LabelId) : List Instruction → Option Nat
  | [] => none
  | instruction :: rest =>
      match labelIndex? id rest with
      | some index => some (index + 1)
      | none => if instruction = .label id then some 0 else none

/-- Goes to the label if the jump is taken, and to the next instruction
otherwise. -/
def State.jump (state : State) (code : List Instruction) (taken : Bool) (target : LabelId) :
    Except Trap State :=
  if taken then
    match labelIndex? target code with
    | some index => .ok { state with next := index }
    | none => .error (.unknownLabel target)
  else
    .ok { state with next := state.next + 1 }

/-- Executes one instruction that stands at `state.next`. -/
def execute (code : List Instruction) (state : State) (instruction : Instruction) :
    Except Trap State :=
  let underflow : Trap := .stackUnderflow state.next
  let following := state.next + 1
  match instruction, state.stack with
  | .nop, _ | .label _, _ => .ok { state with next := following }
  | .const value, stack => .ok { state with next := following, stack := value :: stack }
  | .load _ slot, stack =>
      match state.locals[slot.toNat]? with
      | some value => .ok { state with next := following, stack := value :: stack }
      | none => .error (.slotOutOfRange slot)
  | .store _ slot, value :: stack =>
      if slot.toNat < state.locals.length then
        .ok ⟨following, stack, state.locals.set slot.toNat value⟩
      else
        .error (.slotOutOfRange slot)
  | .increment slot amount, _ =>
      match state.locals[slot.toNat]? with
      | some value =>
          .ok { state with
            next := following
            locals := state.locals.set slot.toNat (value + amount.toInt32) }
      | none => .error (.slotOutOfRange slot)
  | .dup, value :: stack => .ok { state with next := following, stack := value :: value :: stack }
  | .pop, _ :: stack => .ok { state with next := following, stack := stack }
  | .negate, value :: stack => .ok { state with next := following, stack := -value :: stack }
  | .binary operator, right :: left :: stack =>
      match operator.evaluate? left right with
      | some value => .ok { state with next := following, stack := value :: stack }
      | none => .error .divisionByZero
  | .goto target, _ => state.jump code true target
  | .branch (.test check) target, value :: stack =>
      { state with stack := stack }.jump code (check.holds value) target
  | .branch (.compare relation) target, right :: left :: stack =>
      { state with stack := stack }.jump code (relation.holds left right) target
  | .store _ _, [] | .dup, [] | .pop, [] | .negate, [] | .branch (.test _) _, [] =>
      .error underflow
  | .binary _, [] | .binary _, [_] | .branch (.compare _) _, [] | .branch (.compare _) _, [_] =>
      .error underflow

/-- Runs from a state, `steps` instructions having been executed already.  The
end of the code is noticed before the lack of fuel. -/
def resume (code : List Instruction) (steps : Nat) : Nat → State → Except Trap Final
  | fuel, state =>
      match code[state.next]? with
      | none => .ok ⟨state.stack, state.locals, steps⟩
      | some instruction =>
          match fuel with
          | 0 => .error (.outOfFuel steps)
          | fuel + 1 =>
              match execute code state instruction with
              | .ok following => resume code (steps + 1) fuel following
              | .error trap => .error trap

/-- Runs a list from its first instruction; the operand stack is listed from its
top. -/
def run (code : List Instruction) (stack locals : List Int32) (fuel : Nat) :
    Except Trap Final :=
  resume code 0 fuel ⟨0, stack, locals⟩

/-- The fuel of a run that asks for none. -/
def defaultFuel : Nat := 100000

end Machine

end Peephole
