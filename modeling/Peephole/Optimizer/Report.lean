import Peephole.Rule

/-!
# Reports

What was done to one body, or to several: how often the lines were scanned, how
many rewrites each rule made, and how long the bodies were before and after.
-/

namespace Peephole

@[ext]
structure Report where
  passes : Nat
  rewrites : Nat
  /-- The number of rewrites of each rule. -/
  hits : Rule → Nat
  before : Nat
  after : Nat

namespace Report

def empty : Report where
  passes := 0
  rewrites := 0
  hits := fun _ => 0
  before := 0
  after := 0

/-- The report on two pieces of work together. -/
def add (left right : Report) : Report where
  passes := left.passes + right.passes
  rewrites := left.rewrites + right.rewrites
  hits := fun rule => left.hits rule + right.hits rule
  before := left.before + right.before
  after := left.after + right.after

def total (reports : List Report) : Report :=
  reports.foldl add empty

/-- The rules that made a rewrite, by name, with the number of their rewrites. -/
def hitList (report : Report) : List (Rule × Nat) :=
  ((Rule.all.mergeSort fun left right => left.name ≤ right.name).map
    fun rule => (rule, report.hits rule)).filter fun hit => hit.2 != 0

end Report

end Peephole
