import Peephole.Arena
import Peephole.Proofs.Bookkeeping.Supply

/-!
# Splicing as exchange of lines

A change of a body exchanges some lines that follow each other for new ones.  The lines
before and after keep their positions and instructions, the new lines take the next
positions of the supply, and the table follows the labels among them.  A position is
handed out once, so one whose line was taken out stays stale whatever is changed
afterwards.
-/

namespace Peephole

namespace LabelTable

theorem get?_move (table : LabelTable) (id : LabelId) (position : Nat) (other : LabelId) :
    (table.move id position).get? other =
      (table.get? other).map fun entry =>
        if id = other then { entry with position := position } else entry := by
  rw [move]
  cases hentry : table.get? id with
  | none =>
      dsimp only
      split
      · subst other
        simp [hentry]
      · simp
  | some entry =>
      have hid := id_of_get?_eq_some hentry
      subst hid
      dsimp only
      rw [get?_put]
      split
      · subst other
        simp [hentry]
      · simp

theorem get?_settle_singleton (table : LabelTable) (line : Line) (id : LabelId) :
    (table.settle [line]).get? id =
      (table.get? id).map fun entry =>
        if line.instruction = .label id then { entry with position := line.position }
        else entry := by
  rw [settle, List.foldl_cons, List.foldl_nil]
  cases hlabel : line.instruction.label? with
  | none =>
      have hne : line.instruction ≠ .label id := by
        intro heq
        rw [heq] at hlabel
        cases hlabel
      simp [hne]
  | some other =>
      dsimp only
      rw [get?_move, Code.label?_eq_some_iff.mp hlabel]
      simp

/-- Each definition is moved to the last of the lines that define its label. -/
theorem get?_settle (table : LabelTable) (lines : List Line) (id : LabelId) :
    (table.settle lines).get? id =
      (table.get? id).map fun entry =>
        { entry with position := (Line.site? id lines.reverse).getD entry.position } := by
  induction lines generalizing table with
  | nil => simp [settle]
  | cons line rest ih =>
      refine (ih (table.settle [line])).trans ?_
      rw [get?_settle_singleton, Option.map_map, List.reverse_cons, Line.site?_append,
        Line.site?_cons, Line.site?_nil]
      congr 1
      funext entry
      dsimp only [Function.comp]
      split <;> cases Line.site? id rest.reverse <;> rfl

end LabelTable

/-- The position that a change starts from. -/
def Splicing.position : Splicing → Nat
  | .replace position _ _ => position
  | .erase position => position
  | .insertAfter position _ => position

namespace Body

/-- The positions of a body that are not stale, in the order of its lines. -/
def positions (body : Body) : List Nat :=
  body.lines.map Line.position

variable {body changed : Body} {before window after lines : List Line} {index width : Nat}
variable {position : Nat} {code : List Instruction} {splicing : Splicing}

section

variable {line : Line} {rest : List Line}

theorem lines_of_ahead (hahead : body.ahead position = line :: rest) :
    body.lines = Line.before body.lines position ++ line :: rest := by
  rw [← hahead]
  exact (Line.before_append_ahead body.lines position).symm

theorem not_mem_positions_of_ahead (hahead : body.ahead position = []) :
    position ∉ body.positions := by
  intro hmem
  obtain ⟨line, hline, rfl⟩ := List.mem_map.mp hmem
  obtain ⟨before, rest, hlines⟩ := List.append_of_mem hline
  rw [ahead_eq_of_split hlines] at hahead
  cases hahead

end

theorem lines_of_split (body : Body) (position width : Nat) :
    body.lines = Line.before body.lines position ++
      ((body.ahead position).take width ++ (body.ahead position).drop width) := by
  rw [List.take_append_drop]
  exact (Line.before_append_ahead body.lines position).symm

/-- A later body has new positions only. -/
structure Precedes (body later : Body) : Prop where
  supply : body.supply ≤ later.supply
  positions : ∀ position ∈ later.positions, position ∈ body.positions ∨ body.supply ≤ position

theorem Precedes.refl (body : Body) : body.Precedes body :=
  ⟨Nat.le_refl _, fun _ => .inl⟩

theorem Precedes.trans {later last : Body} (hfirst : body.Precedes later)
    (hsecond : later.Precedes last) : body.Precedes last := by
  refine ⟨Nat.le_trans hfirst.supply hsecond.supply, fun position hposition => ?_⟩
  rcases hsecond.positions position hposition with hposition | hposition
  · exact hfirst.positions position hposition
  · exact .inr (Nat.le_trans hfirst.supply hposition)

end Body

end Peephole
