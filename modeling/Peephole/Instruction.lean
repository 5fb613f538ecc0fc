/-!
# Instructions of the stack machine

A method body is a list of instructions for a machine with an operand stack of
32-bit words and a numbered row of local variables.  Labels are instructions
too: they do nothing when executed and name a place that jumps can go to.
-/

namespace Peephole

/-- The number of a local variable. -/
abbrev Slot := UInt16

/-- The number of a label. -/
abbrev LabelId := UInt32

/-- What a local variable is moved as.  The machine treats both alike; the
assembler text and the rules tell them apart. -/
inductive Kind where
  | int
  | ref
  deriving DecidableEq, Repr

inductive Operator where
  | add
  | sub
  | mul
  | div
  | rem
  deriving DecidableEq, Repr

/-- Arithmetic in 32-bit two's complement.  Division truncates toward zero, the
remainder takes the sign of the dividend, and neither has a value for a zero
divisor. -/
def Operator.evaluate? : Operator → Int32 → Int32 → Option Int32
  | .add, left, right => some (left + right)
  | .sub, left, right => some (left - right)
  | .mul, left, right => some (left * right)
  | .div, left, right => if right = 0 then none else some (left / right)
  | .rem, left, right => if right = 0 then none else some (left % right)

/-- A test of one word against zero. -/
inductive ZeroTest where
  | isZero
  | nonZero
  deriving DecidableEq, Repr

def ZeroTest.holds : ZeroTest → Int32 → Bool
  | .isZero, value => value == 0
  | .nonZero, value => value != 0

def ZeroTest.negate : ZeroTest → ZeroTest
  | .isZero => .nonZero
  | .nonZero => .isZero

/-- A signed comparison of two words. -/
inductive Relation where
  | eq
  | ne
  | ge
  | le
  | gt
  | lt
  deriving DecidableEq, Repr

def Relation.holds : Relation → Int32 → Int32 → Bool
  | .eq, left, right => left == right
  | .ne, left, right => left != right
  | .ge, left, right => decide (right ≤ left)
  | .le, left, right => decide (left ≤ right)
  | .gt, left, right => decide (right < left)
  | .lt, left, right => decide (left < right)

def Relation.negate : Relation → Relation
  | .eq => .ne
  | .ne => .eq
  | .ge => .lt
  | .lt => .ge
  | .le => .gt
  | .gt => .le

/-- What a conditional jump asks of the operand stack. -/
inductive Condition where
  | test (check : ZeroTest)
  | compare (relation : Relation)
  deriving DecidableEq, Repr

/-- The condition that holds exactly when the given one does not. -/
def Condition.negate : Condition → Condition
  | .test check => .test check.negate
  | .compare relation => .compare relation.negate

inductive Instruction where
  | load (kind : Kind) (slot : Slot)
  | store (kind : Kind) (slot : Slot)
  | increment (slot : Slot) (amount : Int8)
  | const (value : Int32)
  | dup
  | pop
  | nop
  | binary (operator : Operator)
  | negate
  | goto (target : LabelId)
  | branch (condition : Condition) (target : LabelId)
  | label (id : LabelId)
  deriving DecidableEq, Repr

namespace Instruction

/-- The label a jump goes to. -/
def target? : Instruction → Option LabelId
  | .goto target => some target
  | .branch _ target => some target
  | _ => none

/-- The label an instruction defines. -/
def label? : Instruction → Option LabelId
  | .label id => some id
  | _ => none

/-- Sends a jump elsewhere.  Whatever is not a jump stays as it is. -/
def retarget (target : LabelId) : Instruction → Instruction
  | .goto _ => .goto target
  | .branch condition _ => .branch condition target
  | other => other

/-- The conditional jump to the same label that is taken exactly when the given
one is not. -/
def negated? : Instruction → Option Instruction
  | .branch condition target => some (.branch condition.negate target)
  | _ => none

def isConditional : Instruction → Bool
  | .branch _ _ => true
  | _ => false

def isLabel (instruction : Instruction) : Bool :=
  instruction.label?.isSome

def isJump (instruction : Instruction) : Bool :=
  instruction.target?.isSome

end Instruction

theorem ZeroTest.holds_negate (test : ZeroTest) (value : Int32) :
    test.negate.holds value = !test.holds value := by
  cases test <;> simp [negate, holds, bne]

theorem Relation.holds_negate (relation : Relation) (left right : Int32) :
    relation.negate.holds left right = !relation.holds left right := by
  cases relation <;> simp [negate, holds, bne, ← decide_not]

theorem Condition.negate_negate (condition : Condition) :
    condition.negate.negate = condition := by
  rcases condition with check | relation
  · cases check <;> rfl
  · cases relation <;> rfl

end Peephole
