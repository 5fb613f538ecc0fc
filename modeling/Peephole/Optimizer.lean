import Peephole.Body.Audit
import Peephole.Optimizer.Report
import Peephole.Optimizer.Settings

/-!
# The optimizer

The optimizer tries its rules at every line from the first on, in a fixed order,
and performs the first rewrite it finds.  A rewrite can make room for another
one earlier in the body, so the search starts over after each.  It ends when no
rule applies anywhere, or when more rewrites were made than allowed.
-/

namespace Peephole

/-- What a search for a rewrite came to. -/
inductive Search where
  | settled
  | found (position : Nat) (rule : Rule) (body : Body)
  | failed (fault : Fault) (body : Body)

namespace Search

/-- Tries rules in order on the line at a position, with the lines ahead of it. -/
def tryRules (body : Body) (position : Nat) (ahead : List Line) : List Rule → Search
  | [] => .settled
  | rule :: rest =>
      match rule.attempt body ahead with
      | .declined => tryRules body position ahead rest
      | .rewritten rewritten => .found position rule rewritten
      | .failed fault left => .failed fault left

/-- Tries rules on each of some lines of a body, up to the first that is
rewritten. -/
def scan (rules : List Rule) (body : Body) : List Line → Search
  | [] => .settled
  | line :: rest =>
      match tryRules body line.position (line :: rest) rules with
      | .settled => scan rules body rest
      | result => result

end Search

/-- One rewrite: the position and the rule, and the body it left. -/
structure Step where
  position : Nat
  rule : Rule
  body : Body

/-- A sequence of rewrites, the body at its end, and what stopped it if it did not
come to rest by itself. -/
structure Run where
  steps : List Step
  body : Body
  fault? : Option Fault

namespace Run

/-- The report on a sequence of rewrites that came to rest: one pass for each
rewrite and one that found none. -/
def report (run : Run) (before : Nat) : Report where
  passes := run.steps.length + 1
  rewrites := run.steps.length
  hits := fun rule => run.steps.countP (·.rule == rule)
  before := before
  after := run.body.length

/-- The report on a sequence of rewrites of a body that had a certain length before
it, or what stopped it. -/
def outcome (run : Run) (before : Nat) : Except Fault Report :=
  match run.fault? with
  | none => .ok (run.report before)
  | some fault => .error fault

end Run

/-- Rules in the order in which they are tried, and the settings they are tried
under. -/
structure Optimizer where
  settings : Settings
  rules : List Rule

namespace Optimizer

/-- The rules that the settings enable. -/
def ofSettings (settings : Settings) : Optimizer :=
  ⟨settings, settings.rules⟩

def search (optimizer : Optimizer) (body : Body) : Search :=
  Search.scan optimizer.rules body body.lines

/-- The first position and rule that would rewrite a body. -/
def findMatch (optimizer : Optimizer) (body : Body) : Except Fault (Option (Nat × Rule)) :=
  match optimizer.search body with
  | .settled => .ok none
  | .found position rule _ => .ok (some (position, rule))
  | .failed fault _ => .error fault

/-- The audit after a rewrite, if there is to be one. -/
def inspect (optimizer : Optimizer) (body : Body) : Except Fault Unit :=
  if optimizer.settings.auditEachStep then body.audit else .ok ()

/-- Rewrites a body until it comes to rest, `budget` times at most.  The rewrite
that goes beyond the budget is still made. -/
def runWithin (optimizer : Optimizer) (limit : Nat) : Nat → Body → Run
  | budget, body =>
      match optimizer.search body with
      | .settled => ⟨[], body, none⟩
      | .failed fault left => ⟨[], left, some fault⟩
      | .found position rule rewritten =>
          let step : Step := ⟨position, rule, rewritten⟩
          match optimizer.inspect rewritten with
          | .error fault => ⟨[step], rewritten, some fault⟩
          | .ok () =>
              match budget with
              | 0 => ⟨[step], rewritten, some (.rewriteLimitExceeded limit)⟩
              | budget + 1 =>
                  let rest := runWithin optimizer limit budget rewritten
                  { rest with steps := step :: rest.steps }

def run (optimizer : Optimizer) (body : Body) : Run :=
  let limit := optimizer.settings.rewriteLimit body
  optimizer.runWithin limit limit body

/-- Rewrites a body until it comes to rest.  Gives the report, or what stopped it,
and the body as it was left. -/
def optimize (optimizer : Optimizer) (body : Body) : Except Fault Report × Body :=
  let run := optimizer.run body
  (run.outcome body.length, run.body)

end Optimizer

end Peephole
