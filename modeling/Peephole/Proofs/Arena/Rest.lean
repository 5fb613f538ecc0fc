import Peephole.Proofs.Arena.Driving

/-!
# Arenas at rest

An arena is at rest under an optimizer when none of its rules rewrites it at any position.
An optimizer that ends without a fault leaves an arena at rest, and does nothing to an arena
that is at rest.  The label table need not agree with the code for that.  The links have to
be in order, and they always are: nothing that is done to an arena breaks them.
-/

namespace Peephole

namespace Arena

/-- What can be done to an arena. -/
inductive Operation where
  | splice (splicing : Splicing)
  /-- Puts another table in the place of the label table, even one at odds with the code. -/
  | relabel (labels : LabelTable)
  | apply (rule : Rule) (position : Nat)
  | optimize (optimizer : Optimizer)

def Operation.perform (overflow : Overflow) : Operation → Work Unit
  | .splice splicing => discard (Work.change (Arena.change splicing))
  | .relabel labels => modify fun arena => { arena with labels := labels }
  | .apply rule position => discard (rule.apply overflow position)
  | .optimize optimizer => discard (InPlace.optimize overflow optimizer)

/-- Arenas that come about by operations, be they successful or not. -/
inductive Reachable (overflow : Overflow) : Arena → Prop
  | assemble {names : List (LabelId × String)} {code : List Instruction} {arena : Arena}
      (hassemble : Arena.assemble names code = .ok arena) : Reachable overflow arena
  | operate {arena left : Arena} {result : Except Fault Unit} (operation : Operation)
      (harena : Reachable overflow arena)
      (hleft : (operation.perform overflow).on arena = some (result, left)) :
      Reachable overflow left

open Process in
theorem Operation.keeps_perform (overflow : Overflow) (operation : Operation) :
    Keeps Intact (operation.perform overflow) := by
  cases operation with
  | splice splicing => exact (Work.keeps_change splicing).bind fun _ => keeps_pure _
  | relabel labels =>
      intro arena hintact result left hleft
      obtain ⟨lines, hholds⟩ := hintact
      cases hleft
      exact ⟨lines, hholds.withLabels labels⟩
  | apply rule position => exact (rule.keeps_apply overflow position).bind fun _ => keeps_pure _
  | optimize optimizer =>
      exact (InPlace.keeps_optimize overflow optimizer).bind fun _ => keeps_pure _

theorem Reachable.intact {overflow : Overflow} {arena : Arena}
    (hreachable : arena.Reachable overflow) : arena.Intact := by
  induction hreachable with
  | assemble hassemble =>
      obtain ⟨body, hbody, hrepresents⟩ := Arena.exists_body_of_assemble hassemble
      exact hrepresents.intact
  | operate operation harena hleft ih => exact operation.keeps_perform overflow ih hleft

end Arena

/-- An optimizer that ends without a fault leaves no position at which one of its rules
would rewrite the arena.  Used again, it makes a single pass and leaves the arena as it is,
its links and its label table included. -/
theorem optimize_comes_to_rest {overflow : Overflow} {optimizer : Optimizer}
    {arena rested : Arena} {stats : Stats} (hreachable : arena.Reachable overflow)
    (hoptimize : (InPlace.optimize overflow optimizer).on arena = some (.ok stats, rested)) :
    (∀ rule ∈ optimizer.rules, ∀ position, rule.Declines overflow rested position) ∧
      InPlace.findMatch overflow optimizer rested = some (.ok none) ∧
      (InPlace.optimize overflow optimizer).on rested =
        some (.ok ⟨1, 0, [], rested.length, rested.length⟩, rested) := by
  obtain ⟨progress, hdrive, rfl⟩ := InPlace.on_optimize_eq_some_iff.mp hoptimize
  obtain ⟨last, htrail, hrest⟩ := InPlace.trail_of_drive hreachable.intact hdrive
  obtain ⟨rfl, hpass, -⟩ := hrest stats rfl
  have hintact := htrail.intact hreachable.intact
  refine ⟨(InPlace.declines_of_pass hintact hpass).2, ?_, ?_⟩
  · rw [InPlace.findMatch_eq hintact, hpass]
    rfl
  · exact InPlace.on_optimize_eq_some_iff.mpr ⟨_, InPlace.drive_of_rest hpass, rfl⟩

/-- A label without jumps that is counted as if one went to it. -/
def miscounted : Arena where
  nodes := #[⟨.label 1, none, some 1, true⟩, ⟨.nop, some 0, none, true⟩]
  head := some 0
  length := 2
  labels := LabelTable.empty.put ⟨1, "L1", 0, 1⟩

/-- The label is not taken for dead, and the arena stays at odds with its table. -/
theorem optimize_comes_to_rest_at_miscounted :
    miscounted.Reachable .stop ∧
      let optimizer := Optimizer.ofSettings { auditEachStep := false }
      ∃ stats rested,
        (InPlace.optimize .stop optimizer).on miscounted = some (.ok stats, rested) ∧
        rested.lines? = some [⟨0, .label 1⟩] ∧
        rested.audit .stop = some (.error (.labelDesync 1 (.wrongCount 1 0))) ∧
        InPlace.findMatch .stop optimizer rested = some (.ok none) ∧
        (InPlace.optimize .stop optimizer).on rested = some (.ok ⟨1, 0, [], 1, 1⟩, rested) := by
  have hassemble : Arena.assemble [] [.label 1, .nop] = .ok _ := rfl
  have hreachable : miscounted.Reachable .stop :=
    .operate (.relabel miscounted.labels) (.assemble hassemble) rfl
  refine ⟨hreachable, ?_⟩
  intro optimizer
  -- The only rewrite takes out the instruction behind the label.
  have hrun : InPlace.rewriteAll .stop optimizer
      (optimizer.settings.limit miscounted.length miscounted.labels.size)
      ⟨miscounted, { before := miscounted.length }, []⟩ = some (.ok (), _) :=
    (InPlace.rewriteAll_of_rewrite rfl).trans (InPlace.rewriteAll_of_rest rfl)
  have hoptimize := InPlace.on_optimize_eq_some_iff.mpr
    ⟨_, InPlace.drive_eq_some_iff.mpr ⟨.ok (), hrun, rfl⟩, rfl⟩
  obtain ⟨-, hmatch, hagain⟩ := optimize_comes_to_rest hreachable hoptimize
  exact ⟨_, _, hoptimize, by rfl, by rfl, hmatch, hagain⟩

end Peephole
