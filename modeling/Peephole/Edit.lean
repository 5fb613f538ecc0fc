import Peephole.Body

/-!
# Edits and scripts

A rewrite of a body is a script: a list of small edits of its label table and
its lines, performed one after the other.  A script that fails keeps the edits
it has done.
-/

namespace Peephole

inductive Edit where
  /-- Puts a new label after a position. -/
  | split (position : Nat) (id : LabelId)
  | acquire (id : LabelId)
  | release (id : LabelId)
  | remove (id : LabelId)
  | splice (position width : Nat) (code : List Instruction)
  deriving DecidableEq, Repr

/-- The name of a label that an edit has put into a body. -/
def splitName (id : LabelId) : String :=
  "split_" ++ toString id.toNat

namespace Edit

def perform (body : Body) : Edit → Except Fault Body
  | .split position id => do
      let (place, woven) ← body.insertAfter position (.label id)
      let labels ← woven.labels.register ⟨id, splitName id, place, 0⟩
      return { woven with labels := labels }
  | .acquire id => do return { body with labels := ← body.labels.acquire id }
  | .release id => do return { body with labels := ← body.labels.release id }
  | .remove id => do return { body with labels := ← body.labels.remove id }
  | .splice position width code => (body.splice position width code).map Prod.snd

end Edit

/-- Edits to be performed one after the other. -/
abbrev Script := List Edit

/-- What a rule proposes: a fault, no change, or a script. -/
abbrev Plan := Except Fault (Option Script)

/-- What became of a body that a rule was tried on. -/
inductive Outcome where
  | declined
  | rewritten (body : Body)
  | failed (fault : Fault) (body : Body)

/-- Performs the edits of a script in order, up to the first that fails. -/
def Script.run (body : Body) : Script → Outcome
  | [] => .rewritten body
  | edit :: rest =>
      match edit.perform body with
      | .ok edited => run edited rest
      | .error fault => .failed fault body

end Peephole
