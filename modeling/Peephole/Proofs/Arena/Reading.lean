import Mathlib.Data.List.Perm.Subperm
import Peephole.Arena.Audit
import Peephole.Proofs.Arena
import Peephole.Rule.LastLoad

/-!
# Looking ahead in a represented body

Following the links of an arena from a live position on gives the lines ahead of it in the
body that the arena represents.  What an arena tells from a cursor on is therefore what
these lines tell.  No position occurs twice among them, so that all of them are within
reach and looking ahead comes to an end.
-/

namespace Peephole

/-- One line settles whether a variable is overwritten, or leaves it to the lines after it. -/
theorem LastLoad.overwrites_cons (labels : LabelTable) (slot : Slot) (line : Line)
    (rest : List Line) :
    overwrites labels slot (line :: rest) =
      match line.instruction.loses? slot with
      | some lost => lost
      | none =>
          if line.instruction.isJump || labels.isDestination line then false
          else overwrites labels slot rest := by
  obtain ⟨position, instruction⟩ := line
  cases instruction <;>
    simp only [overwrites, Instruction.loses?, Instruction.isJump, Instruction.target?,
      LabelTable.isDestination, Instruction.label?] <;> split <;> simp_all

namespace Arena

variable {arena : Arena} {body : Body} {cursor : Option Nat} {line : Line}
variable {lines rest : List Line} {position reach width : Nat}

theorem next?_of_node {node : Node} (hnode : arena.node? position = some node) :
    arena.next? position = node.next := by
  rw [next?, hnode, Option.bind_some]

namespace Follows

variable (hfollows : arena.Follows cursor lines)

include hfollows

/-! ## Cursors -/

theorem at? : arena.at? cursor = lines.head?.map Line.instruction := by
  cases hfollows with
  | nil => rfl
  | cons hnode hrest =>
      rw [Arena.at?, Option.bind_some, get?, hnode]
      rfl

theorem shape? {α : Type} (shape : Instruction → Option α) :
    arena.shape? shape cursor = lines.head?.bind fun line => shape line.instruction := by
  rw [Arena.shape?, hfollows.at?, Option.bind_map]
  rfl

theorem cursor_eq : cursor = lines.head?.map Line.position := by
  cases hfollows <;> rfl

theorem after : arena.Follows (arena.after cursor) lines.tail := by
  cases hfollows with
  | nil => exact .nil
  | cons hnode hrest =>
      rw [Arena.after, Option.bind_some, next?, hnode]
      exact hrest

theorem isDestination :
    arena.isDestination cursor = lines.head?.any arena.labels.isDestination := by
  rw [Arena.isDestination, hfollows.shape?]
  cases hfollows with
  | nil => rfl
  | @cons position node rest hnode hrest =>
      simp only [List.head?_cons, Option.bind_some, Option.any_some, LabelTable.isDestination]
      cases node.instruction.label? with
      | none => rfl
      | some id =>
          dsimp only
          cases arena.labels.get? id with
          | none => rfl
          | some entry => simp [beq_eq_decide]

/-! ## Windows -/

theorem peek (width : Nat) :
    arena.peek width cursor = Line.instructions (lines.take width) := by
  induction hfollows generalizing width with
  | nil => cases width <;> simp [Arena.peek, Line.instructions]
  | cons hnode hrest ih =>
      cases width with
      | zero => rfl
      | succ width =>
          rw [Arena.peek, get?, next?, hnode]
          simp [ih, Line.instructions]

theorem window? (width : Nat) :
    arena.window? width cursor =
      if width ≤ lines.length then some (Line.instructions (lines.take width)) else none := by
  induction hfollows generalizing width with
  | nil => cases width <;> simp [Arena.window?, Line.instructions]
  | cons hnode hrest ih =>
      cases width with
      | zero => simp [Arena.window?, Line.instructions]
      | succ width =>
          rw [Arena.window?, get?, next?, hnode]
          simp only [Option.map_some, Option.bind_some, ih, List.length_cons,
            Nat.add_le_add_iff_right]
          split <;> rfl

/-! ## Walks -/

theorem overwritesWithin (slot : Slot) (hreach : lines.length ≤ reach) :
    arena.overwritesWithin slot reach cursor =
      some (LastLoad.overwrites arena.labels slot lines) := by
  induction hfollows generalizing reach with
  | nil => simp [Arena.overwritesWithin, LastLoad.overwrites]
  | @cons position node rest hnode hrest ih =>
      cases reach with
      | zero => cases hreach
      | succ reach =>
          have hhere : arena.Follows (some position) (⟨position, node.instruction⟩ :: rest) :=
            .cons hnode hrest
          rw [Arena.overwritesWithin, hhere.shape?, hhere.shape?, hhere.isDestination,
            next?_of_node hnode, ih (Nat.le_of_succ_le_succ hreach), LastLoad.overwrites_cons]
          simp only [List.head?_cons, Option.bind_some, Option.any_some]
          cases node.instruction.loses? slot with
          | some lost => rfl
          | none => exact (apply_ite some _ _ _).symm

theorem isLastLoad (hreach : lines.length ≤ arena.reach) :
    arena.isLastLoad cursor = some (LastLoad.isAhead arena.labels lines) := by
  have hafter := hfollows.after
  rw [Arena.isLastLoad, hfollows.shape?, hfollows.shape?]
  rcases lines with _ | ⟨⟨position, instruction⟩, rest⟩
  · rfl
  · have hrest := fun slot => hafter.overwritesWithin slot (Nat.le_of_succ_le hreach)
    cases instruction with
    | load kind slot => cases kind <;> exact hrest slot
    | _ => rfl

theorem linesWithin (hreach : lines.length ≤ reach) :
    arena.linesWithin reach cursor = some lines := by
  induction hfollows generalizing reach with
  | nil => simp [Arena.linesWithin]
  | @cons position node rest hnode hrest ih =>
      cases reach with
      | zero => cases hreach
      | succ reach =>
          have hplace : arena.nodes[position]? = some node :=
            (Option.filter_eq_some_iff.mp hnode).1
          rw [Arena.linesWithin, hplace, next?_of_node hnode, ih (Nat.le_of_succ_le_succ hreach)]
          rfl

end Follows

/-! ## Represented bodies -/

namespace Represents

variable (hrepresents : arena.Represents body)

include hrepresents

theorem follows : arena.Follows arena.first? body.lines :=
  hrepresents.refines.follows

/-- The links lead from a position to the lines ahead of it. -/
theorem follows_ahead (hahead : body.ahead position = line :: rest) :
    arena.Follows (some position) (line :: rest) := by
  have hlinked := hrepresents.holds.linked
  rw [Body.lines_of_ahead hahead, linked_append] at hlinked
  have hfollows := hlinked.2.follows
  rwa [Line.start, Line.position_of_ahead_eq_cons hahead] at hfollows

/-- From a stale position they lead nowhere. -/
theorem follows_next (position : Nat) :
    arena.Follows (arena.next? position) (body.ahead position).tail := by
  cases hahead : body.ahead position with
  | nil =>
      rw [next?, hrepresents.holds.node?_of_stale hahead]
      exact .nil
  | cons line rest => exact (hrepresents.follows_ahead hahead).after

theorem get? (position : Nat) : arena.get? position = body.get? position :=
  hrepresents.refines.get position

theorem shape? {α : Type} (shape : Instruction → Option α) (position : Nat) :
    arena.shape? shape (some position) =
      (body.ahead position).head?.bind fun line => shape line.instruction := by
  rw [Arena.shape?, Arena.at?, Option.bind_some, hrepresents.get?, Body.get?, Option.bind_map]
  rfl

theorem peek (width position : Nat) :
    arena.peek width (some position) = Line.instructions ((body.ahead position).take width) := by
  cases hahead : body.ahead position with
  | nil =>
      have hstale : arena.get? position = none := by
        rw [hrepresents.get?, Body.get?, hahead]
        rfl
      cases width <;> simp [Arena.peek, hstale, Line.instructions]
  | cons line rest => exact (hrepresents.follows_ahead hahead).peek width

theorem window? (width position : Nat) :
    arena.window? width (some position) =
      if width ≤ (body.ahead position).length then
        some (Line.instructions ((body.ahead position).take width))
      else none := by
  cases hahead : body.ahead position with
  | nil =>
      have hstale : arena.get? position = none := by
        rw [hrepresents.get?, Body.get?, hahead]
        rfl
      cases width <;> simp [Arena.window?, hstale, Line.instructions]
  | cons line rest => exact (hrepresents.follows_ahead hahead).window? width

/-- A window of an arena stands at the start of the lines ahead. -/
theorem exists_of_window? {code : List Instruction}
    (hwindow : arena.window? width (some position) = some code) :
    ∃ window rest, body.ahead position = window ++ rest ∧ Line.instructions window = code := by
  rw [hrepresents.window?] at hwindow
  split at hwindow
  · exact ⟨_, _, (List.take_append_drop width _).symm, Option.some.inj hwindow⟩
  · cases hwindow

/-- No position occurs twice among the lines, so that there are no more than nodes. -/
theorem length_le_reach : body.length ≤ arena.reach := by
  have hsubset : body.lines.map Line.position ⊆ List.range body.supply := by
    intro position hposition
    obtain ⟨line, hline, rfl⟩ := List.mem_map.mp hposition
    exact List.mem_range.mpr (body.below_supply line hline)
  have hle := (List.subperm_of_subset body.distinct hsubset).length_le
  rw [List.length_map, List.length_range, ← hrepresents.size] at hle
  exact Nat.le_succ_of_le hle

theorem length_ahead_le_reach (position : Nat) : (body.ahead position).length ≤ arena.reach := by
  have hlines := congrArg List.length (Line.before_append_ahead body.lines position)
  rw [List.length_append] at hlines
  have hreach := hrepresents.length_le_reach
  rw [Body.length] at hreach
  rw [Body.ahead]
  omega

theorem lines? : arena.lines? = some body.lines :=
  hrepresents.follows.linesWithin hrepresents.length_le_reach

theorem destination_of_error {id : LabelId} {fault : Fault}
    (hlanding : body.landing id = .error fault) : arena.destination id = .error fault := by
  rw [Arena.destination, hrepresents.labels]
  rw [Body.landing] at hlanding
  cases hentry : body.labels.entry id with
  | error other =>
      rw [hentry] at hlanding
      cases hlanding
      rfl
  | ok entry =>
      rw [hentry, ok_bind] at hlanding
      rw [ok_bind, hrepresents.get?, Body.get?]
      dsimp only at hlanding
      split at hlanding
      · cases hlanding
      · rename_i hother
        rw [if_neg hother]
        cases hlanding
        rfl

/-- Where the links lead from the definition of a label. -/
theorem destination_of_ok {id : LabelId} (hlanding : body.landing id = .ok lines) :
    ∃ place, arena.destination id = .ok place ∧
      arena.Follows (arena.next? place) lines.tail := by
  simp only [Body.landing, bind_eq_ok_iff] at hlanding
  obtain ⟨entry, hentry, hlanding⟩ := hlanding
  split at hlanding
  · rename_i hlabel
    cases hlanding
    refine ⟨entry.position, ?_, ?_⟩
    · rw [Arena.destination, hrepresents.labels, hentry, ok_bind, hrepresents.get?, Body.get?,
        if_pos hlabel]
      rfl
    · cases hahead : body.ahead entry.position with
      | nil => simp [hahead] at hlabel
      | cons line rest => exact hahead ▸ hrepresents.follows_next entry.position
  · cases hlanding

end Represents

end Arena

end Peephole
