import Peephole.Proofs.Arena.Chain
import Peephole.Proofs.Splicing

/-!
# Arenas refine bodies

An arena that holds the lines of a body answers every question about them as the body
does.  Changes keep it that way: made in the arena, a change gives the same position or
the same fault as in the body, and leaves an arena that holds the lines of the changed
body.  So the links are in order after any changes, and the exchange of lines that a
change is for a body is what it is for the chain of nodes.
-/

namespace Peephole

/-- Two positions of lines of which the second follows the first. -/
def Line.Adjacent (lines : List Line) (position other : Nat) : Prop :=
  ∃ before first second after, lines = before ++ first :: second :: after ∧
    first.position = position ∧ second.position = other

namespace Arena

/-- Following the nodes from a position on gives some lines. -/
inductive Follows (arena : Arena) : Option Nat → List Line → Prop
  | nil : Follows arena none []
  | cons {position : Nat} {node : Node} {rest : List Line}
      (hnode : arena.node? position = some node) (hrest : Follows arena node.next rest) :
      Follows arena (some position) (⟨position, node.instruction⟩ :: rest)

/-- An arena whose nodes are the lines of a body. -/
structure Refines (arena : Arena) (body : Body) : Prop where
  follows : arena.Follows arena.first? body.lines
  live : ∀ position, (arena.node? position).isSome ↔ position ∈ body.positions
  /-- Links lead back to where they lead on from. -/
  inverse : ∀ position other,
    arena.next? position = some other ↔ arena.previous? other = some position
  length : arena.length = body.length
  size : arena.nodes.size = body.supply
  labels : arena.labels = body.labels
  first : arena.first? = body.first?
  get : ∀ position, arena.get? position = body.get? position
  next : ∀ position, arena.next? position = body.next? position

/-- Two results of a change: the same fault with the arena as it was, or the same position
with an arena and a body that belong together. -/
inductive Agrees (Related : Arena → Body → Prop) (arena : Arena) :
    EStateM.Result Fault Arena (Option Nat) → Except Fault (Option Nat × Body) → Prop
  | fault (fault : Fault) : Agrees Related arena (.error fault arena) (.error fault)
  | answer (first : Option Nat) {changed : Arena} {body : Body}
      (hrelated : Related changed body) :
      Agrees Related arena (.ok first changed) (.ok (first, body))

/-- An arena that was made for a body and changed as the body was. -/
structure Represents (arena : Arena) (body : Body) : Prop where
  holds : arena.Holds body.lines
  size : arena.nodes.size = body.supply
  labels : arena.labels = body.labels

variable {arena : Arena} {body : Body} {lines : List Line} {line : Line} {rest : List Line}
variable {position other : Nat}

/-! ## Reading -/

theorem node?_eq_none_iff : arena.node? position = none ↔ ¬ arena.Live position := by
  rw [Live, node?]
  cases arena.nodes[position]? <;> simp

theorem isSome_node?_iff : (arena.node? position).isSome ↔ arena.Live position := by
  rw [← Option.ne_none_iff_isSome, Ne, node?_eq_none_iff, not_not]

/-- The node of a line leads to the lines around it. -/
theorem Holds.node? {before after : List Line} (hholds : arena.Holds (before ++ line :: after)) :
    arena.node? line.position =
      some ⟨line.instruction, Line.finish none before, Line.start none after, true⟩ := by
  obtain ⟨-, hline, -⟩ := linked_append.mp hholds.linked
  rw [Arena.node?, hline]
  rfl

theorem Holds.live_iff (hholds : arena.Holds lines) :
    arena.Live position ↔ position ∈ lines.map Line.position :=
  ⟨hholds.live position, hholds.linked.live⟩

theorem Holds.exists_of_node? {node : Node} (hholds : arena.Holds lines)
    (hnode : arena.node? position = some node) :
    ∃ before line after, lines = before ++ line :: after ∧ line.position = position := by
  have hlive := isSome_node?_iff.mp (Option.isSome_of_eq_some hnode)
  obtain ⟨line, hline, hposition⟩ := List.mem_map.mp (hholds.live_iff.mp hlive)
  obtain ⟨before, after, hlines⟩ := List.append_of_mem hline
  exact ⟨before, line, after, hlines, hposition⟩

theorem Linked.follows {previous : Option Nat} (hlinked : Linked arena.nodes none previous lines) :
    arena.Follows (Line.start none lines) lines := by
  induction lines generalizing previous with
  | nil => exact .nil
  | cons line rest ih =>
      obtain ⟨hline, hrest⟩ := hlinked
      have hnode : arena.node? line.position =
          some ⟨line.instruction, previous, Line.start none rest, true⟩ := by
        rw [node?, hline]
        rfl
      exact .cons hnode (ih hrest)

theorem Holds.next?_eq_some_iff (hholds : arena.Holds lines) :
    arena.next? position = some other ↔ Line.Adjacent lines position other := by
  constructor
  · intro hnext
    obtain ⟨node, hnode, hother⟩ := Option.bind_eq_some_iff.mp hnext
    obtain ⟨before, line, after, rfl, rfl⟩ := hholds.exists_of_node? hnode
    rw [hholds.node?] at hnode
    cases hnode
    cases after with
    | nil => cases hother
    | cons second rest =>
        cases hother
        exact ⟨before, line, second, rest, rfl, rfl, rfl⟩
  · rintro ⟨before, first, second, after, rfl, rfl, rfl⟩
    rw [next?, hholds.node?]
    rfl

theorem Holds.previous?_eq_some_iff (hholds : arena.Holds lines) :
    arena.previous? other = some position ↔ Line.Adjacent lines position other := by
  constructor
  · intro hprevious
    obtain ⟨node, hnode, hposition⟩ := Option.bind_eq_some_iff.mp hprevious
    obtain ⟨before, line, after, rfl, rfl⟩ := hholds.exists_of_node? hnode
    rw [hholds.node?] at hnode
    cases hnode
    rcases List.eq_nil_or_concat' before with rfl | ⟨front, last, rfl⟩
    · cases hposition
    · rw [Line.finish_concat] at hposition
      cases hposition
      exact ⟨front, last, line, after, by simp, rfl, rfl⟩
  · rintro ⟨before, first, second, after, rfl, rfl, rfl⟩
    rw [List.append_cons] at hholds
    rw [previous?, hholds.node?, Option.bind_some, Line.finish_concat]

/-- At a position of the body stands the node of its line. -/
theorem Holds.node?_of_ahead (hholds : arena.Holds body.lines)
    (hahead : body.ahead position = line :: rest) :
    arena.node? position = some ⟨line.instruction,
      Line.finish none (Line.before body.lines position), Line.start none rest, true⟩ := by
  rw [Body.lines_of_ahead hahead] at hholds
  have hnode := hholds.node?
  rwa [Line.position_of_ahead_eq_cons hahead] at hnode

theorem Holds.node?_of_stale (hholds : arena.Holds body.lines)
    (hahead : body.ahead position = []) : arena.node? position = none := by
  rw [node?_eq_none_iff, hholds.live_iff]
  exact Body.not_mem_positions_of_ahead hahead

theorem Represents.refines (hrepresents : arena.Represents body) : arena.Refines body := by
  obtain ⟨hholds, hsize, hlabels⟩ := hrepresents
  have hfirst : arena.first? = Line.start none body.lines := hholds.head
  refine ⟨?_, fun position => ?_, fun position other => ?_, hholds.length, hsize, hlabels, ?_,
    fun position => ?_, fun position => ?_⟩
  · rw [hfirst]
    exact hholds.linked.follows
  · rw [isSome_node?_iff, hholds.live_iff, Body.positions]
  · rw [hholds.next?_eq_some_iff, hholds.previous?_eq_some_iff]
  · rw [hfirst, Body.first?]
    cases body.lines <;> rfl
  · rw [get?, Body.get?]
    cases hahead : body.ahead position with
    | nil => simp [hholds.node?_of_stale hahead]
    | cons line rest => simp [hholds.node?_of_ahead hahead]
  · rw [next?, Body.next?]
    cases hahead : body.ahead position with
    | nil => simp [hholds.node?_of_stale hahead]
    | cons line rest =>
        rw [hholds.node?_of_ahead hahead]
        cases rest <;> rfl

/-! ## Changing -/

/-- The nodes of a window are exchanged for new ones. -/
theorem Represents.exchange {before window after : List Line} {code : List Instruction}
    (hrepresents : arena.Represents body) (hlines : body.lines = before ++ (window ++ after))
    (hsublist : (before ++ after).Sublist body.lines) :
    ((arena.cut (window.map Line.position) (Line.finish none before)
      (Line.start none after)).insertAll (Line.finish none before) code).Represents
        (body.weave before after code hsublist) := by
  have hholds := hrepresents.holds
  rw [hlines, ← List.append_assoc] at hholds
  have hcut := hholds.cut
  obtain ⟨hholds, hsize, hlabels⟩ := hcut.insertAll code
  rw [size_cut, hrepresents.size] at hholds hsize hlabels
  rw [labels_cut, hrepresents.labels] at hlabels
  exact ⟨hholds, hsize, hlabels⟩

theorem Represents.gather_of_ahead (hrepresents : arena.Represents body)
    (hahead : body.ahead position = line :: rest) (width : Nat) :
    arena.gather width (some position) =
      (((line :: rest).take width).map Line.position,
        Line.start none ((line :: rest).drop width)) := by
  have hlinked := hrepresents.holds.linked
  rw [Body.lines_of_ahead hahead, linked_append] at hlinked
  rw [← gather_start hlinked.2 width, Line.start, Line.position_of_ahead_eq_cons hahead]

theorem run_replace_of_stale (hstale : arena.node? position = none) (width : Nat)
    (code : List Instruction) :
    (replace position width code).run arena = .error (.stalePosition position) arena := by
  simp only [replace, EStateM.run_bind, EStateM.run_get, hstale]
  rfl

theorem run_replace_of_node {node : Node} (hnode : arena.node? position = some node) (width : Nat)
    (code : List Instruction) :
    (replace position width code).run arena =
      if (arena.gather width (some position)).1.length < width then
        .error (.windowOverrun width (arena.gather width (some position)).1.length) arena
      else
        .ok (if code.isEmpty then none else some arena.nodes.size)
          ((arena.cut (arena.gather width (some position)).1 node.previous
            (arena.gather width (some position)).2).insertAll node.previous code) := by
  simp only [replace, EStateM.run_bind, EStateM.run_get, hnode]
  split
  · rfl
  · rw [EStateM.run_bind, EStateM.run_modify]
    dsimp only
    rw [EStateM.run_bind, EStateM.run_get]
    dsimp only
    rw [size_cut]
    rfl

theorem run_insertAfter_of_stale (hstale : arena.node? position = none)
    (instruction : Instruction) :
    (insertAfter position instruction).run arena = .error (.stalePosition position) arena := by
  simp only [insertAfter, EStateM.run_bind, EStateM.run_get, hstale]
  rfl

theorem run_insertAfter_of_node {node : Node} (hnode : arena.node? position = some node)
    (instruction : Instruction) :
    (insertAfter position instruction).run arena =
      .ok arena.nodes.size (arena.insert (some position) instruction) := by
  simp only [insertAfter, EStateM.run_bind, EStateM.run_get, hnode]
  rfl

theorem Represents.agrees_replace (hrepresents : arena.Represents body) (position width : Nat)
    (code : List Instruction) :
    Agrees Represents arena ((replace position width code).run arena)
      (body.splice position width code) := by
  have hholds := hrepresents.holds
  rcases hahead : body.ahead position with _ | ⟨line, rest⟩
  · rw [run_replace_of_stale (hholds.node?_of_stale hahead), Body.splice,
      if_pos (List.length_eq_zero_iff.mpr hahead)]
    exact .fault _
  · have hsome : ¬ (body.ahead position).length = 0 := by
      simp [hahead]
    have hgather := hrepresents.gather_of_ahead hahead width
    rw [← hahead] at hgather
    rw [run_replace_of_node (hholds.node?_of_ahead hahead), hgather, Body.splice, if_neg hsome]
    dsimp only
    rw [List.length_map, List.length_take]
    by_cases hwidth : (body.ahead position).length < width
    · rw [Nat.min_eq_right (Nat.le_of_lt hwidth), if_pos hwidth, if_pos hwidth]
      exact .fault _
    · rw [Nat.not_lt] at hwidth
      rw [Nat.min_eq_left hwidth, if_neg (Nat.lt_irrefl _), if_neg (Nat.not_lt.mpr hwidth),
        hrepresents.size]
      exact .answer _ (hrepresents.exchange (body.lines_of_split position width) _)

/-- A new node behind a position, in the arena and in the body. -/
theorem Represents.insert_of_ahead (hrepresents : arena.Represents body)
    (hahead : body.ahead position = line :: rest) (instruction : Instruction) :
    (arena.insert (some position) instruction).Represents
      (body.weave (Line.before body.lines position ++ [line]) rest [instruction]
        (body.before_append_ahead_sublist position hahead)) := by
  have hlines := Body.lines_of_ahead hahead
  rw [List.append_cons] at hlines
  obtain ⟨hinserted, hsize, hlabels⟩ := Holds.insertAll (hlines ▸ hrepresents.holds) [instruction]
  rw [Line.finish_concat, Line.position_of_ahead_eq_cons hahead, hrepresents.size]
    at hinserted hsize hlabels
  exact ⟨hinserted, hsize, hlabels.trans (hrepresents.labels ▸ rfl)⟩

theorem Represents.agrees_insertAfter (hrepresents : arena.Represents body) (position : Nat)
    (instruction : Instruction) :
    Agrees Represents arena ((change (.insertAfter position instruction)).run arena)
      (body.change (.insertAfter position instruction)) := by
  have hholds := hrepresents.holds
  rw [Body.change, Body.insertAfter]
  split
  · rename_i hahead
    rw [change, EStateM.run_bind, run_insertAfter_of_stale (hholds.node?_of_stale hahead)]
    exact .fault _
  · rename_i line rest hahead
    rw [change, EStateM.run_bind, run_insertAfter_of_node (hholds.node?_of_ahead hahead),
      hrepresents.size]
    exact .answer _ (hrepresents.insert_of_ahead hahead instruction)

/-- A change is the same for an arena and for the body that it represents. -/
theorem Represents.agrees_change (hrepresents : arena.Represents body) (splicing : Splicing) :
    Agrees Represents arena ((change splicing).run arena) (body.change splicing) := by
  cases splicing with
  | replace position width code => exact hrepresents.agrees_replace position width code
  | erase position =>
      have hagrees := hrepresents.agrees_replace position 1 []
      rw [change, erase, Body.change, Body.erase]
      simp only [EStateM.run_bind]
      generalize (replace position 1 []).run arena = inArena at hagrees ⊢
      generalize body.splice position 1 [] = inBody at hagrees ⊢
      cases hagrees with
      | fault fault => exact .fault fault
      | answer first hchanged => exact .answer none hchanged
  | insertAfter position instruction => exact hrepresents.agrees_insertAfter position instruction

theorem Agrees.mono {Related Related' : Arena → Body → Prop}
    {inArena : EStateM.Result Fault Arena (Option Nat)} {inBody : Except Fault (Option Nat × Body)}
    (hagrees : Agrees Related arena inArena inBody)
    (himplies : ∀ {arena body}, Related arena body → Related' arena body) :
    Agrees Related' arena inArena inBody := by
  cases hagrees with
  | fault fault => exact .fault fault
  | answer first hrelated => exact .answer first (himplies hrelated)

theorem holds_empty : empty.Holds [] := by
  refine ⟨rfl, trivial, fun position hlive => ?_, rfl, List.nodup_nil⟩
  cases hlive.lt_size

theorem exists_assemble {names : List (LabelId × String)} {code : List Instruction}
    (hassemble : Body.assemble names code = .ok body) :
    ∃ arena, Arena.assemble names code = .ok arena ∧ arena.Represents body := by
  have hempty : empty.Holds ([] ++ []) := holds_empty
  obtain ⟨hholds, hsize, -⟩ := hempty.insertAll code
  rw [List.append_nil, List.nil_append] at hholds
  refine ⟨{ empty.insertAll none code with labels := body.labels }, ?_, ?_, ?_, rfl⟩
  · rw [Arena.assemble, hassemble]
    rfl
  · rw [(Body.synced_of_assemble hassemble).2.1]
    exact ⟨hholds.head, hholds.linked, hholds.live, hholds.length, hholds.distinct⟩
  · rw [Body.supply_of_assemble hassemble]
    exact hsize.trans (Nat.zero_add _)

theorem exists_body_of_assemble {names : List (LabelId × String)} {code : List Instruction}
    (hassemble : Arena.assemble names code = .ok arena) :
    ∃ body, Body.assemble names code = .ok body ∧ arena.Represents body := by
  cases hbody : Body.assemble names code with
  | error fault =>
      rw [Arena.assemble, hbody] at hassemble
      cases hassemble
  | ok body =>
      obtain ⟨_, harena, hrepresents⟩ := exists_assemble hbody
      cases harena.symm.trans hassemble
      exact ⟨body, rfl, hrepresents⟩

end Arena

end Peephole
