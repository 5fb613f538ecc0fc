/-!
# JSON values

The values that a JSON text can stand for, as far as this library reads them.  A
text may hold numbers that are no integers, and strings whose escapes name half
of a surrogate pair; they are grammatical, and their places in a value are kept,
but their contents are not.
-/

namespace Peephole

inductive Json where
  | null
  | bool (value : Bool)
  /-- A number, with its value if it is written as an integer. -/
  | number (value? : Option Int)
  /-- A string, with its text if it is one in Unicode. -/
  | string (text? : Option String)
  | array (items : List Json)
  | object (members : List (Option String × Json))
  deriving Inhabited, Repr

namespace Json

def integer (value : Int) : Json :=
  .number (some value)

def text (value : String) : Json :=
  .string (some value)

/-- An object with the given members, in order. -/
def record (members : List (String × Json)) : Json :=
  .object (members.map fun member => (some member.1, member.2))

end Json

end Peephole
