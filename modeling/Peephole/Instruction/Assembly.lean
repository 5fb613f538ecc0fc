import Peephole.Instruction

/-!
# Assembler text of instructions

Each instruction has a mnemonic, and its operands follow it after a blank.  A
label definition is written `L7:` and a reference to it `L7`.
-/

namespace Peephole

def Operator.mnemonic : Operator → String
  | .add => "iadd"
  | .sub => "isub"
  | .mul => "imul"
  | .div => "idiv"
  | .rem => "irem"

def Condition.mnemonic : Condition → String
  | .test .isZero => "ifeq"
  | .test .nonZero => "ifne"
  | .compare .eq => "if_icmpeq"
  | .compare .ne => "if_icmpne"
  | .compare .ge => "if_icmpge"
  | .compare .le => "if_icmple"
  | .compare .gt => "if_icmpgt"
  | .compare .lt => "if_icmplt"

/-- The name of a label that was given none. -/
def defaultLabelName (id : LabelId) : String :=
  "L" ++ toString id.toNat

namespace Instruction

def mnemonic : Instruction → String
  | .load .int _ => "iload"
  | .load .ref _ => "aload"
  | .store .int _ => "istore"
  | .store .ref _ => "astore"
  | .increment _ _ => "iinc"
  | .const _ => "ldc"
  | .dup => "dup"
  | .pop => "pop"
  | .nop => "nop"
  | .binary operator => operator.mnemonic
  | .negate => "ineg"
  | .goto _ => "goto"
  | .branch condition _ => condition.mnemonic
  | .label _ => "label"

/-- The text of an instruction, where `name` says what each label is called. -/
def render (name : LabelId → String) (instruction : Instruction) : String :=
  match instruction with
  | .load _ slot | .store _ slot => instruction.mnemonic ++ " " ++ toString slot.toNat
  | .increment slot amount =>
      instruction.mnemonic ++ " " ++ toString slot.toNat ++ " " ++ toString amount.toInt
  | .const value => instruction.mnemonic ++ " " ++ toString value.toInt
  | .goto target | .branch _ target => instruction.mnemonic ++ " " ++ name target
  | .label id => name id ++ ":"
  | .dup | .pop | .nop | .binary _ | .negate => instruction.mnemonic

/-- The text of an instruction that stands on its own. -/
def text (instruction : Instruction) : String :=
  instruction.render defaultLabelName

end Instruction

end Peephole
