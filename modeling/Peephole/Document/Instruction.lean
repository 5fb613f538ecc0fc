import Peephole.Instruction.Assembly
import Peephole.Json.Fields

/-!
# Instructions in JSON

An instruction without operands is its name; any other is an object with its name
as the key and its operand, or the list of its two operands, as the value.
-/

namespace Peephole.Instruction

/-- The name of an instruction in a document: its mnemonic, but that of a constant
says its type. -/
def documentName : Instruction → String
  | .const _ => "ldc_int"
  | instruction => instruction.mnemonic

def operand? : Instruction → Option Json
  | .load _ slot | .store _ slot => some (.integer slot.toNat)
  | .increment slot amount => some (.array [.integer slot.toNat, .integer amount.toInt])
  | .const value => some (.integer value.toInt)
  | .goto id | .branch _ id | .label id => some (.integer id.toNat)
  | .dup | .pop | .nop | .binary _ | .negate => none

def toJson (instruction : Instruction) : Json :=
  match instruction.operand? with
  | none => .text instruction.documentName
  | some operand => .record [(instruction.documentName, operand)]

/-- Instructions without operands. -/
def plain : List Instruction :=
  [.dup, .pop, .nop, .binary .add, .binary .sub, .binary .mul, .binary .div, .binary .rem,
    .negate]

/-- Instructions with a variable as their operand. -/
def withSlot : List (Slot → Instruction) :=
  [.load .int, .store .int, .load .ref, .store .ref]

/-- Instructions with a label as their operand. -/
def withLabel : List (LabelId → Instruction) :=
  [.goto, .branch (.test .isZero), .branch (.test .nonZero), .branch (.compare .eq),
    .branch (.compare .ne), .branch (.compare .ge), .branch (.compare .le),
    .branch (.compare .gt), .branch (.compare .lt), .label]

def readSlot? (value : Json) : Option Slot :=
  (value.natural? UInt16.size).map UInt16.ofNat

def readLabel? (value : Json) : Option LabelId :=
  (value.natural? UInt32.size).map UInt32.ofNat

def readConstant? (value : Json) : Option Int32 :=
  (value.integer? (-2147483648) 2147483648).map Int32.ofInt

def readAmount? (value : Json) : Option Int8 :=
  (value.integer? (-128) 128).map Int8.ofInt

/-- Reads an instruction whose name takes an operand. -/
def ofOperand? (name : String) (operand : Json) : Option Instruction :=
  match withSlot.find? fun build => (build 0).documentName == name with
  | some build => (readSlot? operand).map build
  | none =>
      match withLabel.find? fun build => (build 0).documentName == name with
      | some build => (readLabel? operand).map build
      | none =>
          if name = "ldc_int" then (readConstant? operand).map .const
          else if name = "iinc" then
            match operand with
            | .array [slot, amount] => do
                return .increment (← readSlot? slot) (← readAmount? amount)
            | _ => none
          else none

/-- Reads an instruction.  One without operands may be written as an object too, with
null as the value. -/
def ofJson? (value : Json) : Option Instruction := do
  let (name, operand?) ← value.variant?
  match plain.find? (·.documentName == name), operand? with
  | some instruction, none | some instruction, some .null => some instruction
  | some _, some _ => none
  | none, some operand => ofOperand? name operand
  | none, none => none

end Peephole.Instruction
