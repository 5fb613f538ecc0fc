import Peephole.Instruction

/-!
# Contractions of straight-line code

Most rules look at a few instructions without jumps or labels and put fewer, or
cheaper, ones in their place.  Such a rule is a function of the instructions
ahead alone.  The constants `0`, `1`, `2` and `-1` that the arithmetic rules ask
for are exact in wrapping 32-bit arithmetic, and a division is only folded where
its divisor is a constant other than zero, so that no trap is lost.
-/

namespace Peephole

/-- Replace the first `width` instructions by `code`. -/
structure Contraction where
  width : Nat
  code : List Instruction
  deriving DecidableEq, Repr

/-- The number of instructions ahead that a contraction looks at. -/
def Contraction.reach : Nat := 4

namespace Straight

/-- An amount that an increment can add. -/
def amount? (value : Int) : Option Int8 :=
  if -128 ≤ value ∧ value ≤ 127 then some (Int8.ofInt value) else none

def removeNop : List Instruction → Option Contraction
  | .nop :: _ => some ⟨1, []⟩
  | _ => none

def simplifyDupStorePop : List Instruction → Option Contraction
  | .dup :: .store kind slot :: .pop :: _ => some ⟨3, [.store kind slot]⟩
  | _ => none

def removePushPop : List Instruction → Option Contraction
  | .load _ _ :: .pop :: _ | .const _ :: .pop :: _ | .dup :: .pop :: _ => some ⟨2, []⟩
  | _ => none

def removeLoadStoreSameSlot : List Instruction → Option Contraction
  | .load kind slot :: .store kind' slot' :: _ =>
      if kind = kind' ∧ slot = slot' then some ⟨2, []⟩ else none
  | _ => none

def foldConstants : List Instruction → Option Contraction
  | .const value :: .negate :: _ => some ⟨2, [.const (-value)]⟩
  | .const left :: .const right :: .binary operator :: _ =>
      (operator.evaluate? left right).map fun value => ⟨3, [.const value]⟩
  | _ => none

/-- A variable times a small constant. -/
def product? (slot : Slot) (factor : Int32) : Option Contraction :=
  if factor = 0 then some ⟨3, [.const 0]⟩
  else if factor = 1 then some ⟨3, [.load .int slot]⟩
  else if factor = 2 then some ⟨3, [.load .int slot, .dup, .binary .add]⟩
  else none

def simplifyMultiplication : List Instruction → Option Contraction
  | .load .int slot :: .const factor :: .binary .mul :: _ => product? slot factor
  | .const factor :: .load .int slot :: .binary .mul :: _ => product? slot factor
  | _ => none

/-- What an operator does to the value below a constant: nothing, or negate it. -/
def identity? (value : Int32) : Operator → Option Contraction
  | .add | .sub => if value = 0 then some ⟨2, []⟩ else none
  | .mul | .div =>
      if value = 1 then some ⟨2, []⟩
      else if value = -1 then some ⟨2, [.negate]⟩
      else none
  | .rem => none

def removeIdentityOperation : List Instruction → Option Contraction
  | .const value :: .load .int slot :: .binary .add :: _ =>
      if value = 0 then some ⟨3, [.load .int slot]⟩ else none
  | .const value :: .binary operator :: _ => identity? value operator
  | _ => none

def simplifyRemainderByOne : List Instruction → Option Contraction
  | .load .int _ :: .const value :: .binary .rem :: _ =>
      if value = 1 ∨ value = -1 then some ⟨3, [.const 0]⟩ else none
  | _ => none

def simplifySelfSubtraction : List Instruction → Option Contraction
  | .load .int slot :: .load .int slot' :: .binary .sub :: _ =>
      if slot = slot' then some ⟨3, [.const 0]⟩ else none
  | _ => none

def simplifyNegation : List Instruction → Option Contraction
  | .const value :: .load .int slot :: .binary .sub :: _ =>
      if value = 0 then some ⟨3, [.load .int slot, .negate]⟩ else none
  | .negate :: .negate :: _ => some ⟨2, []⟩
  | .negate :: .binary .add :: _ => some ⟨2, [.binary .sub]⟩
  | .negate :: .binary .sub :: _ => some ⟨2, [.binary .add]⟩
  | _ => none

/-- The increment that stands for reading a variable, adding and writing it
back. -/
def update? (slot slot' : Slot) (value : Int) : Option Contraction :=
  if slot = slot' then (amount? value).map fun amount => ⟨4, [.increment slot amount]⟩
  else none

def foldIncrement : List Instruction → Option Contraction
  | .load .int slot :: .const value :: .binary .add :: .store .int slot' :: _ =>
      update? slot slot' value.toInt
  | .const value :: .load .int slot :: .binary .add :: .store .int slot' :: _ =>
      update? slot slot' value.toInt
  | .load .int slot :: .const value :: .binary .sub :: .store .int slot' :: _ =>
      update? slot slot' (-value.toInt)
  | _ => none

/-- One increment instead of two of the same variable, if their sum is an
amount. -/
def merged? (slot : Slot) (left right : Int8) : Option Contraction :=
  (amount? (left.toInt + right.toInt)).map fun amount =>
    ⟨2, if amount = 0 then [] else [.increment slot amount]⟩

def mergeIncrements : List Instruction → Option Contraction
  | .increment slot left :: rest =>
      if left = 0 then some ⟨1, []⟩
      else
        match rest with
        | .increment slot' right :: _ => if slot = slot' then merged? slot left right else none
        | _ => none
  | _ => none

end Straight

end Peephole
