import Peephole.Json
import Peephole.Json.Quoted

/-!
# Writing JSON

Values are laid out with one item or member on a line, indented by two blanks for
each level; empty arrays and objects stay on one line.  A number without a value
is written as minus zero, which reads as one.
-/

namespace Peephole.Json

open Digits

def writeInteger : Int → List Char
  | .ofNat value => decimal value
  | .negSucc value => '-' :: decimal (value + 1)

def writeNumber : Option Int → List Char
  | some value => writeInteger value
  | none => ['-', '0']

/-- The start of a line at some level. -/
def newline (level : Nat) : List Char :=
  '\n' :: List.replicate (2 * level) ' '

mutual

/-- The text of a value that stands at some level. -/
def write (level : Nat) : Json → List Char
  | .null => ['n', 'u', 'l', 'l']
  | .bool true => ['t', 'r', 'u', 'e']
  | .bool false => ['f', 'a', 'l', 's', 'e']
  | .number value? => writeNumber value?
  | .string text? => Quoted.write text?
  | .array [] => ['[', ']']
  | .array (item :: rest) =>
      '[' :: newline (level + 1) ++ write (level + 1) item ++
        writeItems (level + 1) rest ++ newline level ++ [']']
  | .object [] => ['\x7b', '\x7d']
  | .object (member :: rest) =>
      '\x7b' :: newline (level + 1) ++ writeMember (level + 1) member ++
        writeMembers (level + 1) rest ++ newline level ++ ['\x7d']

/-- The items after the first, with the commas before them. -/
def writeItems (level : Nat) : List Json → List Char
  | [] => []
  | item :: rest => ',' :: newline level ++ write level item ++ writeItems level rest

def writeMember (level : Nat) : Option String × Json → List Char
  | (key, value) => Quoted.write key ++ [':', ' '] ++ write level value

/-- The members after the first, with the commas before them. -/
def writeMembers (level : Nat) : List (Option String × Json) → List Char
  | [] => []
  | member :: rest =>
      ',' :: newline level ++ writeMember level member ++ writeMembers level rest

end

/-- The text of a value. -/
def pretty (value : Json) : String :=
  String.ofList (write 0 value)

end Peephole.Json
