/-!
# Decimal and hexadecimal digits

Natural numbers as digits, most significant first, and back.
-/

namespace Peephole.Digits

def digit (value : Nat) : Char :=
  Char.ofNat (48 + value)

/-- The shortest decimal notation. -/
def decimal (number : Nat) : List Char :=
  if number < 10 then [digit number]
  else decimal (number / 10) ++ [digit (number % 10)]

/-- The number that decimal digits stand for. -/
def ofDecimal (digits : List Char) : Nat :=
  digits.foldl (fun number char => 10 * number + (char.toNat - 48)) 0

def hexDigit (value : Nat) : Char :=
  if value < 10 then Char.ofNat (48 + value) else Char.ofNat (87 + value)

/-- The value of a hexadecimal digit in either case. -/
def hexValue? (char : Char) : Option Nat :=
  if char.isDigit then some (char.toNat - 48)
  else if 'a' ≤ char ∧ char ≤ 'f' then some (char.toNat - 87)
  else if 'A' ≤ char ∧ char ≤ 'F' then some (char.toNat - 55)
  else none

/-- The number that four hexadecimal digits stand for. -/
def ofHex? (first second third fourth : Char) : Option Nat := do
  let first ← hexValue? first
  let second ← hexValue? second
  let third ← hexValue? third
  let fourth ← hexValue? fourth
  return ((first * 16 + second) * 16 + third) * 16 + fourth

end Peephole.Digits
