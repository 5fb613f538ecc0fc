import Peephole.Line

/-!
# Faults

What can go wrong with a body and its label table.  All faults but a malformed
body or an exhausted rewrite budget point at broken bookkeeping, and every one
of them has a fixed text.
-/

namespace Peephole

/-- How a label table and the lines it describes can disagree about a label. -/
inductive Desync where
  | liveReferences (count : Nat)
  | noLabelAt (position : Nat)
  | definedTwice
  | wrongLine
  | wrongCount (recorded actual : Nat)
  | noDefinition
  deriving DecidableEq, Repr

def Desync.message : Desync → String
  | .liveReferences count => "removed with " ++ toString count ++ " live references"
  | .noLabelAt position => "no label instruction at position " ++ toString position
  | .definedTwice => "defined twice"
  | .wrongLine => "table points at the wrong instruction"
  | .wrongCount recorded actual =>
      "table count " ++ toString recorded ++ ", sequence has " ++ toString actual
  | .noDefinition => "entry without a label instruction"

/-- Why an instruction list is not a body. -/
inductive Malformation where
  | definedTwice (id : LabelId)
  | undefinedTarget (id : LabelId)
  deriving DecidableEq, Repr

def Malformation.message : Malformation → String
  | .definedTwice id => "label " ++ toString id.toNat ++ " is defined twice"
  | .undefinedTarget id => "jump to undefined label " ++ toString id.toNat

inductive Fault where
  | unknownLabel (id : LabelId)
  | labelDesync (id : LabelId) (desync : Desync)
  | labelUnderflow (id : LabelId)
  | duplicateLabel (id : LabelId)
  | windowOverrun (wanted available : Nat)
  | stalePosition (position : Nat)
  | rewriteLimitExceeded (limit : Nat)
  /-- An instruction list that is not a body, with the method it belongs to. -/
  | malformedBody (method? : Option String) (cause : Malformation)
  deriving DecidableEq, Repr

namespace Fault

/-- Whether a fault is one of this library's own making: no input alone explains
it. -/
def isInternal : Fault → Bool
  | .malformedBody _ _ => false
  | _ => true

/-- What a fault says, without the word for its class. -/
def detail : Fault → String
  | .unknownLabel id => "unresolved label " ++ toString id.toNat
  | .labelDesync id desync =>
      "label " ++ toString id.toNat ++ " out of sync: " ++ desync.message
  | .labelUnderflow id =>
      "reference count of label " ++ toString id.toNat ++ " would go negative"
  | .duplicateLabel id => "label " ++ toString id.toNat ++ " is already registered"
  | .windowOverrun wanted available =>
      "window of " ++ toString wanted ++ " instructions runs past the end (" ++
        toString available ++ " available)"
  | .stalePosition position =>
      "position " ++ toString position ++ " no longer holds an instruction"
  | .rewriteLimitExceeded limit => "no fixpoint after " ++ toString limit ++ " rewrites"
  | .malformedBody none cause => cause.message
  | .malformedBody (some method) cause => method ++ ": " ++ cause.message

def message (fault : Fault) : String :=
  (if fault.isInternal then "InternalError: " else "MalformedBody: ") ++ fault.detail

/-- Says which method a malformed body belongs to. -/
def within (method : String) : Fault → Fault
  | .malformedBody none cause => .malformedBody (some method) cause
  | other => other

end Fault

end Peephole
