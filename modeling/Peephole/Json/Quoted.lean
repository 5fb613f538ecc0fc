import Peephole.Json.Digits

/-!
# Quoted strings

The contents of a JSON string are written between quotes, with escapes for the
quote, the backslash and control characters.  Any UTF-16 unit may be escaped by
its number; only a high surrogate with a low one after it, or a unit that is no
surrogate, stands for a character.
-/

namespace Peephole.Quoted

open Digits

/-- A piece of a quoted string: a character, or a UTF-16 unit given by number. -/
inductive Piece where
  | char (value : Char)
  | unit (value : Nat)
  deriving DecidableEq, Repr

/-- What a backslash and a character stand for. -/
def escape? : Char → Option Char
  | '"' => some '"'
  | '\\' => some '\\'
  | '/' => some '/'
  | 'b' => some '\x08'
  | 'f' => some '\x0c'
  | 'n' => some '\n'
  | 'r' => some '\r'
  | 't' => some '\t'
  | _ => none

/-- The pieces up to the closing quote, and the rest after it.  Control characters
must be escaped. -/
def scan? : List Char → Option (List Piece × List Char)
  | [] => none
  | '"' :: rest => some ([], rest)
  | '\\' :: 'u' :: first :: second :: third :: fourth :: rest => do
      let value ← ofHex? first second third fourth
      let (pieces, rest) ← scan? rest
      return (.unit value :: pieces, rest)
  | '\\' :: char :: rest => do
      let value ← escape? char
      let (pieces, rest) ← scan? rest
      return (.char value :: pieces, rest)
  | char :: rest =>
      if char.toNat < 0x20 ∨ char = '\\' then none
      else do
        let (pieces, rest) ← scan? rest
        return (.char char :: pieces, rest)

def isHigh (unit : Nat) : Bool :=
  0xD800 ≤ unit && unit < 0xDC00

def isLow (unit : Nat) : Bool :=
  0xDC00 ≤ unit && unit < 0xE000

/-- The characters that some pieces stand for.  There are none if a surrogate
stands alone. -/
def assemble? : List Piece → Option (List Char)
  | [] => some []
  | .char value :: rest => (assemble? rest).map (value :: ·)
  | .unit high :: .unit low :: rest =>
      if isHigh high then
        if isLow low then
          let value := 0x10000 + (high - 0xD800) * 0x400 + (low - 0xDC00)
          (assemble? rest).map (Char.ofNat value :: ·)
        else
          none
      else if isLow high then
        none
      else
        (assemble? (.unit low :: rest)).map (Char.ofNat high :: ·)
  | .unit unit :: rest =>
      if isHigh unit || isLow unit then none
      else (assemble? rest).map (Char.ofNat unit :: ·)

/-- A character as it is written in a quoted string. -/
def writeChar (char : Char) : List Char :=
  if char = '"' then ['\\', '"']
  else if char = '\\' then ['\\', '\\']
  else if char = '\x08' then ['\\', 'b']
  else if char = '\x0c' then ['\\', 'f']
  else if char = '\n' then ['\\', 'n']
  else if char = '\r' then ['\\', 'r']
  else if char = '\t' then ['\\', 't']
  else if char.toNat < 0x20 then
    ['\\', 'u', '0', '0', hexDigit (char.toNat / 16), hexDigit (char.toNat % 16)]
  else [char]

/-- A string in quotes.  A string without a text is written as a lone surrogate,
which reads as one. -/
def write : Option String → List Char
  | some text => '"' :: text.toList.flatMap writeChar ++ ['"']
  | none => ['"', '\\', 'u', 'd', '8', '0', '0', '"']

theorem length_le_of_scan?_eq_some {chars rest : List Char} {pieces : List Piece}
    (hscan : scan? chars = some (pieces, rest)) : rest.length ≤ chars.length := by
  fun_induction scan? chars generalizing pieces rest <;>
    simp_all only [reduceCtorEq, Option.some.injEq, Prod.mk.injEq, Option.bind_eq_bind,
      Option.bind_eq_some_iff, Option.pure_def, List.length_cons, Prod.exists] <;>
    grind

end Peephole.Quoted
