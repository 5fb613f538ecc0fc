import Peephole.Proofs.Bookkeeping.Supply
import Peephole.Proofs.Renumbering

/-!
# Scripts under a renumbering

New lines stand at the next positions of a body.  If a renumbering takes the next
positions of one body to the next positions of the other, and the lines to the
lines, then it still does so after the same script on both.
-/

namespace Peephole

namespace Edit

variable {body edited : Body} {position : Nat}

/-- The lines after new code was put in the place of others, and the table with the
labels of the new code moved there. -/
theorem layout_of_splice {width : Nat} {code : List Instruction}
    (hperform : (Edit.splice position width code).perform body = .ok edited) :
    ∃ line rest, body.ahead position = line :: rest ∧
      edited.lines = Line.before body.lines position ++ Line.number body.supply code ++
        (line :: rest).drop width ∧
      edited.supply = body.supply + code.length ∧
      edited.labels = body.labels.settle (Line.number body.supply code) := by
  rw [perform, Body.splice] at hperform
  split at hperform
  · cases hperform
  · rename_i hnonempty
    obtain ⟨line, rest, hahead⟩ := List.exists_cons_of_length_pos (Nat.pos_of_ne_zero hnonempty)
    split at hperform
    · cases hperform
    · cases hperform
      refine ⟨line, rest, hahead, ?_, rfl, rfl⟩
      rw [← hahead]
      rfl

/-- The lines after a label was put behind one of them, and the table with its entry. -/
theorem layout_of_split {id : LabelId}
    (hperform : (Edit.split position id).perform body = .ok edited) :
    ∃ line rest, body.ahead position = line :: rest ∧
      edited.lines = Line.before body.lines position ++ [line] ++
        Line.number body.supply [.label id] ++ rest ∧
      edited.supply = body.supply + 1 ∧
      edited.labels = (body.labels.settle (Line.number body.supply [.label id])).put
        ⟨id, splitName id, body.supply, 0⟩ := by
  obtain ⟨⟨place, woven⟩, hinsert, hregister⟩ := bind_eq_ok_iff.mp hperform
  obtain ⟨labels, hlabels, hedited⟩ := bind_eq_ok_iff.mp hregister
  cases hedited
  have hput := LabelTable.eq_put_of_register hlabels
  rw [Body.insertAfter] at hinsert
  split at hinsert
  · cases hinsert
  · rename_i line rest hahead
    cases hinsert
    exact ⟨line, rest, hahead, rfl, rfl, hput⟩

/-- The other edits change the table only. -/
theorem layout_of_perform {edit : Edit} (hsplit : ∀ position id, edit ≠ .split position id)
    (hsplice : ∀ position width code, edit ≠ .splice position width code)
    (hperform : edit.perform body = .ok edited) :
    edited.lines = body.lines ∧ edited.supply = body.supply := by
  cases edit with
  | split position id => exact absurd rfl (hsplit position id)
  | splice position width code => exact absurd rfl (hsplice position width code)
  | _ =>
      obtain ⟨labels, -, hedited⟩ := bind_eq_ok_iff.mp hperform
      cases hedited
      exact ⟨rfl, rfl⟩

end Edit

/-- Positions that follow each other are taken to positions that follow each other. -/
theorem Renumbering.map_number (renumbering : Renumbering) {first first' : Nat}
    (hpositions : ∀ offset, renumbering.position (first + offset) = first' + offset)
    (code : List Instruction) :
    (Line.number first code).map renumbering.line =
      Line.number first' (code.map renumbering.instruction) := by
  induction code generalizing first first' with
  | nil => rfl
  | cons instruction rest ih =>
      have hrest : ∀ offset, renumbering.position (first + 1 + offset) = first' + 1 + offset := by
        intro offset
        rw [Nat.add_assoc, hpositions, Nat.add_assoc]
      rw [Line.number, List.map_cons, ih hrest, List.map_cons, Line.number, Renumbering.line]
      exact congrArg (Line.mk · _ :: _) (hpositions 0)

namespace Body

/-- A renumbering that takes the lines of one body to those of another, and the
positions for new lines of the one to those of the other. -/
structure Aligned (source : Body) (renumbering : Renumbering) (result : Body) : Prop where
  lines : result.lines = source.lines.map renumbering.line
  positions : ∀ offset, renumbering.position (source.supply + offset) = result.supply + offset

namespace Aligned

variable {renumbering : Renumbering} {source result next next' : Body}

theorem ahead (haligned : source.Aligned renumbering result) {position : Nat} {line : Line}
    {rest : List Line} (hahead : source.ahead position = line :: rest) :
    result.ahead (renumbering.position position) =
        renumbering.line line :: rest.map renumbering.line ∧
      Line.before result.lines (renumbering.position position) =
        (Line.before source.lines position).map renumbering.line := by
  obtain rfl := Line.position_of_ahead_eq_cons hahead
  have hsplit := Line.before_append_ahead source.lines line.position
  rw [Body.ahead] at hahead
  rw [hahead] at hsplit
  have hsplit' : result.lines = (Line.before source.lines line.position).map renumbering.line ++
      renumbering.line line :: rest.map renumbering.line := by
    rw [haligned.lines, ← List.map_cons, ← List.map_append, hsplit]
  exact ⟨Body.ahead_eq_of_split hsplit', Line.before_eq_of_split result.distinct hsplit'⟩

/-- Code in the place of some lines, and its renumbered form in that of the others. -/
theorem exchange (haligned : source.Aligned renumbering result) {before after : List Line}
    {code : List Instruction}
    (hlines : next.lines = before ++ Line.number source.supply code ++ after)
    (hsupply : next.supply = source.supply + code.length)
    (hlines' : next'.lines = before.map renumbering.line ++
      Line.number result.supply (code.map renumbering.instruction) ++ after.map renumbering.line)
    (hsupply' : next'.supply = result.supply + (code.map renumbering.instruction).length) :
    next.Aligned renumbering next' := by
  constructor
  · rw [hlines, hlines', List.map_append, List.map_append,
      renumbering.map_number haligned.positions]
  · intro offset
    rw [hsupply, hsupply', Nat.add_assoc, haligned.positions, List.length_map, Nat.add_assoc]

/-- One edit keeps two bodies aligned. -/
theorem perform (haligned : source.Aligned renumbering result) {edit : Edit}
    (hsource : edit.perform source = .ok next)
    (hresult : (renumbering.edit edit).perform result = .ok next') :
    next.Aligned renumbering next' := by
  cases edit with
  | split position id =>
      obtain ⟨line, rest, hahead, hlines, hsupply, -⟩ := Edit.layout_of_split hsource
      obtain ⟨line', rest', hahead', hlines', hsupply', -⟩ := Edit.layout_of_split hresult
      obtain ⟨hsame, hbefore⟩ := haligned.ahead hahead
      rw [hsame] at hahead'
      obtain ⟨rfl, rfl⟩ := List.cons.inj hahead'
      refine haligned.exchange hlines hsupply ?_ hsupply'
      rw [hlines', hbefore, List.map_append]
      rfl
  | splice position width code =>
      obtain ⟨line, rest, hahead, hlines, hsupply, -⟩ := Edit.layout_of_splice hsource
      obtain ⟨line', rest', hahead', hlines', hsupply', -⟩ := Edit.layout_of_splice hresult
      obtain ⟨hsame, hbefore⟩ := haligned.ahead hahead
      rw [← hahead', hsame, hbefore, ← List.map_cons, ← List.map_drop] at hlines'
      exact haligned.exchange hlines hsupply hlines' hsupply'
  | _ =>
      obtain ⟨hlines, hsupply⟩ := Edit.layout_of_perform (by simp) (by simp) hsource
      obtain ⟨hlines', hsupply'⟩ := Edit.layout_of_perform (by simp [Renumbering.edit])
        (by simp [Renumbering.edit]) hresult
      constructor
      · rw [hlines, hlines', haligned.lines]
      · rw [hsupply, hsupply']
        exact haligned.positions

theorem run (haligned : source.Aligned renumbering result) {script : Script}
    (hsource : Script.run source script = .rewritten next)
    (hresult : Script.run result (script.map renumbering.edit) = .rewritten next') :
    next.Aligned renumbering next' := by
  induction script generalizing source result with
  | nil =>
      cases hsource
      cases hresult
      exact haligned
  | cons edit rest ih =>
      obtain ⟨edited, hperform, hrest⟩ := Script.exists_perform_of_run_cons hsource
      obtain ⟨edited', hperform', hrest'⟩ := Script.exists_perform_of_run_cons hresult
      exact ih (haligned.perform hperform hperform') hrest hrest'

end Aligned

end Body

end Peephole
