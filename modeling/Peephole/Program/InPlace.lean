import Peephole.Program

/-!
# Optimizing a program in place

A program that is kept in place is gone through three times: a body is made of every
method, the bodies are optimized, and the methods take them over.  Methods and bodies are
two lists that are gone through side by side.  What fails leaves behind all that was
changed up to that point, so that no method is written while something can still fail.
-/

namespace Peephole

/-- Goes through two lists side by side, as far as both go, and changes the items of the
second in place.  A failure leaves the items before it changed. -/
def alongside {α β σ : Type} (work : α → EStateM Fault σ β) :
    List α → List σ → EStateM.Result Fault (List σ) (List β)
  | item :: items, state :: states =>
      match work item state with
      | .error fault changed => .error fault (changed :: states)
      | .ok result changed =>
          match alongside work items states with
          | .error fault rest => .error fault (changed :: rest)
          | .ok results rest => .ok (result :: results) (changed :: rest)
  | _, states => .ok [] states

namespace Program

/-- A program and the bodies that were made of its methods. -/
structure Worksheet where
  program : Program
  bodies : List Body

namespace Worksheet

/-- Makes a body of every method. -/
def build : EStateM Fault Worksheet Unit := fun sheet =>
  match sheet.program.methods.mapM Method.toBody with
  | .ok bodies => .ok () { sheet with bodies := bodies }
  | .error fault => .error fault sheet

/-- Optimizes the body of a method in place. -/
def improveOne (optimizer : Optimizer) (method : Method) : EStateM Fault Body MethodReport :=
  fun body =>
    match optimizer.optimize body with
    | (.ok report, optimized) => .ok ⟨method.name, report⟩ optimized
    | (.error fault, left) => .error fault left

def improve (optimizer : Optimizer) : EStateM Fault Worksheet (List MethodReport) := fun sheet =>
  match alongside (improveOne optimizer) sheet.program.methods sheet.bodies with
  | .ok reports bodies => .ok reports { sheet with bodies := bodies }
  | .error fault bodies => .error fault { sheet with bodies := bodies }

/-- Stores a body in a method in place. -/
def storeOne (body : Body) : EStateM Fault Method Unit :=
  modify (·.store body)

def store : EStateM Fault Worksheet Unit := fun sheet =>
  match alongside storeOne sheet.bodies sheet.program.methods with
  | .ok _ methods => .ok () { sheet with program := ⟨methods⟩ }
  | .error fault methods => .error fault { sheet with program := ⟨methods⟩ }

def optimize (optimizer : Optimizer) : EStateM Fault Worksheet (List MethodReport) := do
  build
  let reports ← improve optimizer
  store
  return reports

end Worksheet

end Program

end Peephole
