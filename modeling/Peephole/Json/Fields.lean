import Peephole.Json

/-!
# Records, variants and bounded numbers in JSON

A record is written as an object with its fields as members in any order, or as
an array of its fields in their declared order.  Members that are no fields are
passed over; a field must not be given twice.  A variant is written as its name,
or as an object with its name as the only key and its operand as the value.
-/

namespace Peephole.Json

/-- The value of a field among some members: none if it is absent, and no answer if
it is given twice. -/
def field? (name : String) (members : List (Option String × Json)) : Option (Option Json) :=
  match members.filter (·.1 == some name) with
  | [] => some none
  | [member] => some (some member.2)
  | _ => none

/-- The values of the named fields of a record, in the order of the names. -/
def fields? (names : List String) : Json → Option (List (Option Json))
  | .array items =>
      if items.length ≤ names.length then
        some (items.map some ++ List.replicate (names.length - items.length) none)
      else
        none
  | .object members =>
      if members.all (·.1.isSome) then names.mapM (field? · members) else none
  | _ => none

/-- The name and the operand of a variant. -/
def variant? : Json → Option (String × Option Json)
  | .string (some name) => some (name, none)
  | .object [(some name, operand)] => some (name, some operand)
  | _ => none

def bool? : Json → Option Bool
  | .bool value => some value
  | _ => none

def text? : Json → Option String
  | .string text? => text?
  | _ => none

/-- The items of an array, each read in the same way. -/
def items? {α : Type} (read? : Json → Option α) : Json → Option (List α)
  | .array items => items.mapM read?
  | _ => none

/-- An integer from `low` up to, but not including, `high`. -/
def integer? (low high : Int) : Json → Option Int
  | .number (some value) => if low ≤ value ∧ value < high then some value else none
  | _ => none

/-- A natural number below a bound. -/
def natural? (bound : Nat) (value : Json) : Option Nat :=
  (value.integer? 0 bound).map Int.toNat

/-- A value that may be given as null. -/
def nullable? {α : Type} (read? : Json → Option α) : Json → Option (Option α)
  | .null => some none
  | value => (read? value).map some

/-- A field that may be left out. -/
def orElse? {α : Type} (fallback : α) (read? : Json → Option α) : Option Json → Option α
  | none => some fallback
  | some value => read? value

end Peephole.Json
