import Peephole.Rule
import Peephole.Proofs.Bookkeeping.Script
import Peephole.Proofs.Rewriting

/-!
# Plans that a body admits

On a body that is in step with its table, no rule proposes a script that would
fail.  Every script that is proposed leaves the body in step and makes one of
the rewrites of its instructions.
-/

namespace Peephole

/-- Nothing is proposed, or a script that succeeds, keeps the body in step and
rewrites its instructions. -/
inductive Body.Admits (body : Body) : Plan → Prop
  | decline : Admits body (.ok none)
  | rewrite {script : Script} {rewritten : Body}
      (hrun : Script.run body script = .rewritten rewritten) (hsynced : rewritten.Synced)
      (hrewrites : Rewrites body.instructions rewritten.instructions) :
      Admits body (.ok (some script))

namespace Body

variable {body : Body} {before window after lines : List Line} {first : Line}

theorem instructions_of_split (hlines : body.lines = before ++ lines) :
    body.instructions = Line.instructions before ++ Line.instructions lines := by
  rw [instructions, hlines, Line.instructions_append]

/-- Lines without labels may be exchanged for code without labels whose jumps go
to labels of the body. -/
theorem Synced.admits_exchange {script : Script} (hsynced : body.Synced)
    (code : List Instruction) (hlines : body.lines = before ++ (first :: window) ++ after)
    (hwindow : Line.definitions (first :: window) = []) (hcode : Code.definitions code = [])
    (hclosed : ∀ id ∈ Code.targets code, id ∈ Code.definitions body.instructions)
    (hscript : script = (Line.targets (first :: window)).map .release ++
      ((Code.targets code).map .acquire ++ [.splice first.position (window.length + 1) code]))
    (hrewrites : Rewrites
      (Line.instructions before ++ Line.instructions (first :: window) ++ Line.instructions after)
      (Line.instructions before ++ code ++ Line.instructions after)) :
    body.Admits (.ok (some script)) := by
  obtain ⟨exchanged, hrun, hexchanged, hinstructions⟩ :=
    Script.run_exchange code hsynced hlines hcode hclosed (by simp [hwindow])
  rw [hwindow, List.map_nil, List.nil_append, ← hscript] at hrun
  refine .rewrite hrun hexchanged ?_
  rw [hinstructions, instructions, hlines, Line.instructions_append, Line.instructions_append]
  exact hrewrites

/-- The lines from a label on start with that label. -/
theorem Synced.landing {id : LabelId} (hsynced : body.Synced)
    (hid : id ∈ Code.definitions body.instructions) :
    ∃ front position rest, body.lines = front ++ ⟨position, .label id⟩ :: rest ∧
      body.landing id = .ok (⟨position, .label id⟩ :: rest) := by
  obtain ⟨names, hrecords⟩ := hsynced.recorded
  obtain ⟨position, hsite, hentry⟩ := hrecords.exists_entry
    ((Line.definitions_eq body.lines).symm ▸ hid)
  obtain ⟨⟨_, _⟩, hline, rfl, rfl⟩ := Line.exists_of_site?_eq_some hsite
  obtain ⟨front, rest, hlines⟩ := List.append_of_mem hline
  refine ⟨front, _, rest, hlines, ?_⟩
  simp [Body.landing, hentry, ahead_eq_of_split hlines]

/-- A number that the table holds free is above all labels. -/
theorem Synced.lt_of_fresh? {fresh : LabelId} (hsynced : body.Synced)
    (hfresh : body.labels.fresh? = some fresh) :
    ∀ id ∈ Code.definitions body.instructions, id < fresh := by
  intro id hid
  obtain ⟨names, hrecords⟩ := hsynced.recorded
  obtain ⟨position, hsite, hentry⟩ := hrecords.exists_entry
    ((Line.definitions_eq body.lines).symm ▸ hid)
  have hget := hrecords id
  rw [hsite] at hget
  have hsupply : id.toNat < body.labels.supply :=
    body.labels.below_supply _ (List.mem_of_find?_eq_some hget)
  rw [LabelTable.fresh?] at hfresh
  split at hfresh
  · rename_i hsize
    obtain rfl := Option.some.inj hfresh
    rw [UInt32.lt_iff_toNat_lt, UInt32.toNat_ofNat_of_lt' hsize]
    exact hsupply
  · simp at hfresh

/-- The table knows which labels have jumps. -/
theorem Synced.not_mem_targets_of_not_isDestination {line : Line} {id : LabelId}
    (hsynced : body.Synced) (hline : line ∈ body.lines) (hlabel : line.instruction = .label id)
    (hdestination : body.labels.isDestination line = false) :
    id ∉ Code.targets body.instructions := by
  obtain ⟨names, hrecords⟩ := hsynced.recorded
  have hsite := Line.site?_eq_some_of_mem hsynced.nodup_definitions hline hlabel
  intro hid
  rw [instructions, ← Line.targets_eq] at hid
  have hcount := Nat.ne_of_gt (List.count_pos_iff.mpr hid)
  simp [LabelTable.isDestination, hlabel, hrecords id, hsite, hcount] at hdestination

end Body

/-! ## Straight-line code -/

namespace Rule

variable {body : Body} {before lines : List Line}

/-- A contraction exchanges the first lines ahead for code that can stand in their
place. -/
theorem exists_of_contract {contraction? : List Instruction → Option Contraction}
    {script : Script}
    (hfits : ∀ ahead contraction, contraction? ahead = some contraction →
      contraction.Fits ahead)
    (hplan : contract contraction? lines = .ok (some script)) :
    ∃ first window after code, lines = (first :: window) ++ after ∧
      script = [.splice first.position (window.length + 1) code] ∧
      Replaceable (Line.instructions (first :: window)) code := by
  cases lines with
  | nil => cases hplan
  | cons first rest =>
      rw [contract, List.head?_cons] at hplan
      obtain ⟨contraction, hcontraction, hscript⟩ :=
        Option.map_eq_some_iff.mp (Except.ok.inj hplan)
      obtain ⟨window, others, hahead, hwidth, hreplaceable⟩ := hfits _ _ hcontraction
      obtain ⟨front, back, hsplit, rfl, -⟩ := List.map_eq_append_iff.mp hahead
      -- The window is not empty, so it starts with the first line.
      have hfront : front ≠ [] := fun hnil => hreplaceable.window_ne_nil (by rw [hnil]; rfl)
      obtain ⟨head, tail, rfl⟩ := List.exists_cons_of_ne_nil hfront
      have hlines : first :: rest =
          (head :: tail) ++ (back ++ (first :: rest).drop Contraction.reach) := by
        rw [← List.append_assoc, ← hsplit, List.take_append_drop]
      obtain ⟨rfl, -⟩ := List.cons.inj hlines
      refine ⟨first, tail, _, contraction.code, hlines, ?_, hreplaceable⟩
      rw [← hscript, ← hwidth, List.length_map, List.length_cons]

theorem exists_contract (contraction? : List Instruction → Option Contraction)
    (lines : List Line) : ∃ proposal, contract contraction? lines = .ok proposal := by
  rw [contract]
  cases lines.head? <;> exact ⟨_, rfl⟩

theorem admits_contract {contraction? : List Instruction → Option Contraction}
    (hfits : ∀ ahead contraction, contraction? ahead = some contraction →
      contraction.Fits ahead)
    (hsynced : body.Synced) (hlines : body.lines = before ++ lines) :
    body.Admits (contract contraction? lines) := by
  obtain ⟨proposal, hproposal⟩ := exists_contract contraction? lines
  cases proposal with
  | none =>
      rw [hproposal]
      exact .decline
  | some script =>
      obtain ⟨first, window, after, code, rfl, rfl, hreplaceable⟩ :=
        exists_of_contract hfits hproposal
      rw [hproposal]
      have hwindow : body.lines = before ++ (first :: window) ++ after := by simpa using hlines
      have hdefinitions := hreplaceable.definitions_eq_nil
      have hjumps := hreplaceable.targets_eq_nil
      refine hsynced.admits_exchange code hwindow
        ((Line.definitions_eq _).trans hdefinitions.1) hdefinitions.2 (by simp [hjumps.2]) ?_
        (.contract hreplaceable)
      rw [Line.targets_eq, hjumps.1, hjumps.2]
      rfl

end Rule

/-! ## Last loads -/

namespace LastLoad

variable {body : Body} {before lines : List Line}

/-- A line before the store does not touch the variable, and nothing jumps to it. -/
theorem of_overwrites_cons {labels : LabelTable} {slot : Slot} {line : Line} {rest : List Line}
    (hoverwrites : overwrites labels slot (line :: rest) = true)
    (hstore : ∀ kind, line.instruction ≠ .store kind slot) :
    line.instruction.avoids slot = true ∧ overwrites labels slot rest = true ∧
      (line.instruction.isLabel = true → labels.isDestination line = false) := by
  obtain ⟨position, instruction⟩ := line
  rw [overwrites] at hoverwrites
  cases instruction with
  | store kind other =>
      have hother : other ≠ slot := fun heq => hstore kind (heq ▸ rfl)
      dsimp only at hoverwrites
      rw [if_neg hother] at hoverwrites
      exact ⟨bne_iff_ne.mpr hother, hoverwrites, nofun⟩
  | load kind other =>
      have hpassed : other ≠ slot ∧ overwrites labels slot rest = true := by
        simpa using hoverwrites
      exact ⟨bne_iff_ne.mpr hpassed.1, hpassed.2, nofun⟩
  | increment other amount =>
      have hpassed : other ≠ slot ∧ overwrites labels slot rest = true := by
        simpa using hoverwrites
      exact ⟨bne_iff_ne.mpr hpassed.1, hpassed.2, nofun⟩
  | goto id => cases hoverwrites
  | branch condition id => cases hoverwrites
  | _ =>
      dsimp only at hoverwrites
      split at hoverwrites
      · cases hoverwrites
      · rename_i hquiet
        rw [Bool.or_eq_true, not_or] at hquiet
        exact ⟨rfl, hoverwrites, fun _ => eq_false_of_ne_true hquiet.2⟩

/-- Between a load and the store that makes it the last, nothing touches the
variable and no jump goes to a label. -/
theorem exists_of_overwrites {slot : Slot} (hsynced : body.Synced)
    (hlines : ∀ line ∈ lines, line ∈ body.lines)
    (hoverwrites : overwrites body.labels slot lines = true) :
    ∃ middle kind after,
      Line.instructions lines = middle ++ .store kind slot :: after ∧
      (∀ instruction ∈ middle, instruction.avoids slot = true) ∧
      ∀ id ∈ Code.definitions middle, id ∉ Code.targets body.instructions := by
  induction lines with
  | nil => simp [overwrites] at hoverwrites
  | cons line rest ih =>
      by_cases hstore : ∃ kind, line.instruction = .store kind slot
      · obtain ⟨kind, hline⟩ := hstore
        exact ⟨[], kind, Line.instructions rest, by simp [hline], by simp, by simp⟩
      · obtain ⟨havoids, hrest, hdead⟩ := of_overwrites_cons hoverwrites (not_exists.mp hstore)
        obtain ⟨middle, kind, after, hsplit, hmiddle, hlabels⟩ :=
          ih (fun other hother => hlines other (List.mem_cons_of_mem _ hother)) hrest
        refine ⟨line.instruction :: middle, kind, after, by simp [hsplit], ?_, ?_⟩
        · exact List.forall_mem_cons.mpr ⟨havoids, hmiddle⟩
        · intro id hid
          rw [Code.mem_definitions] at hid
          rcases List.mem_cons.mp hid with hid | hid
          · exact hsynced.not_mem_targets_of_not_isDestination (hlines line (by simp)) hid.symm
              (hdead (by rw [← hid]; rfl))
          · exact hlabels id (Code.mem_definitions.mpr hid)

theorem admits_removeSuperfluousStoreLoad (hsynced : body.Synced)
    (hlines : body.lines = before ++ lines) :
    body.Admits (removeSuperfluousStoreLoad body lines) := by
  unfold removeSuperfluousStoreLoad
  split
  · rename_i position kind slot place kind' slot' rest
    split
    · rename_i hmatch
      obtain ⟨rfl, rfl, hoverwrites⟩ := hmatch
      obtain ⟨middle, kind', after, hrest, havoids, hdead⟩ :=
        exists_of_overwrites hsynced (fun line hline => by simp [hlines, hline]) hoverwrites
      have hwindow : body.lines = before ++
          [⟨position, .store kind slot⟩, ⟨place, .load kind slot⟩] ++ rest := by
        simpa using hlines
      have hcode : body.instructions = Line.instructions before ++
          [.store kind slot, .load kind slot] ++ (middle ++ .store kind' slot :: after) := by
        rw [← hrest]
        simp [Body.instructions, hwindow]
      refine hsynced.admits_exchange [] hwindow rfl rfl (by simp) rfl ?_
      rw [hrest, List.append_nil]
      refine .storeLoad havoids fun id hid hjump => hdead id hid ?_
      rw [hcode]
      rw [Code.targets_append, List.mem_append] at hjump
      rcases hjump with hjump | hjump <;> simp [hjump]
    · exact .decline
  · exact .decline

end LastLoad

/-! ## Jumps and labels -/

namespace Control

variable {body : Body} {before lines : List Line}

theorem admits_removeDeadLabel (hsynced : body.Synced) (hlines : body.lines = before ++ lines) :
    body.Admits (removeDeadLabel body lines) := by
  unfold removeDeadLabel
  split
  · rename_i position id rest
    obtain ⟨names, hrecords⟩ := hsynced.recorded
    have hid : id ∈ Line.definitions body.lines := Line.mem_definitions.mpr (by simp [hlines])
    by_cases hjump : id ∈ Line.targets body.lines
    · simp only [hrecords.isDead hid, hjump, ok_bind]
      exact .decline
    · simp only [hrecords.isDead hid, hjump, ok_bind]
      obtain ⟨removed, hrun, hremoved, hinstructions⟩ :=
        Script.run_removeLabel hsynced hlines hjump
      refine .rewrite hrun hremoved ?_
      rw [Line.targets_eq, hlines] at hjump
      rw [hinstructions, Body.instructions_of_split hlines, Line.instructions_cons,
        List.append_cons]
      exact .deadLabel (by simpa using hjump)
  · exact .decline

theorem exists_of_mem_leadingLabels {target : LabelId}
    (htarget : target ∈ Line.leadingLabels lines) :
    ∃ (labels : List LabelId) (after : List Instruction),
      Line.instructions lines = labels.map .label ++ .label target :: after := by
  fun_induction Line.leadingLabels lines with
  | case1 position id rest ih =>
      rcases List.mem_cons.mp htarget with rfl | hrest
      · exact ⟨[], Line.instructions rest, rfl⟩
      · obtain ⟨labels, after, hafter⟩ := ih hrest
        exact ⟨id :: labels, after, by simp [hafter]⟩
  | case2 lines hlabel => simp at htarget

theorem not_label_of_leadingLabels_eq_nil (hnone : Line.leadingLabels lines = []) :
    ∀ id rest, Line.instructions lines ≠ .label id :: rest := by
  intro id rest hlines
  obtain ⟨⟨position, instruction⟩, others, rfl, hlabel, -⟩ := List.map_eq_cons_iff.mp hlines
  dsimp only at hlabel
  rw [hlabel] at hnone
  exact List.cons_ne_nil _ _ hnone

theorem exists_of_leadingLabels_eq_cons {next : LabelId} {more : List LabelId}
    (hnext : Line.leadingLabels lines = next :: more) :
    ∃ later, Line.instructions lines = .label next :: later := by
  unfold Line.leadingLabels at hnext
  split at hnext
  · obtain ⟨rfl, -⟩ := List.cons.inj hnext
    exact ⟨_, rfl⟩
  · simp at hnext

theorem admits_removeGotoNextLabel (hsynced : body.Synced)
    (hlines : body.lines = before ++ lines) :
    body.Admits (removeGotoNextLabel body lines) := by
  unfold removeGotoNextLabel
  split
  · rename_i position target rest
    split
    · rename_i htarget
      obtain ⟨labels, after, hrest⟩ := exists_of_mem_leadingLabels htarget
      have hwindow : body.lines = before ++ [⟨position, .goto target⟩] ++ rest := by
        simpa using hlines
      refine hsynced.admits_exchange [] hwindow rfl rfl (by simp) rfl ?_
      rw [hrest, List.append_nil]
      exact .gotoNext
    · exact .decline
  · exact .decline

theorem admits_removeUnreachableAfterGoto (hsynced : body.Synced)
    (hlines : body.lines = before ++ lines) :
    body.Admits (removeUnreachableAfterGoto body lines) := by
  unfold removeUnreachableAfterGoto
  split
  · rename_i position target place dead rest
    split
    · exact .decline
    · rename_i hlabel
      have hlabel : dead.label? = none := by simpa [Instruction.isLabel] using hlabel
      have hwindow : body.lines =
          (before ++ [⟨position, .goto target⟩]) ++ [⟨place, dead⟩] ++ rest := by
        simpa using hlines
      refine hsynced.admits_exchange [] hwindow ?_ rfl (by simp) ?_ ?_
      · simp [Line.definitions_eq, hlabel]
      · simp [Line.targets_eq]
      · simpa using Rewrites.unreachable hlabel
  · exact .decline

theorem admits_simplifyConstantBranch (hsynced : body.Synced)
    (hlines : body.lines = before ++ lines) :
    body.Admits (simplifyConstantBranch body lines) := by
  unfold simplifyConstantBranch
  split
  · rename_i position value place check target rest
    have hwindow : body.lines = before ++
        [⟨position, .const value⟩, ⟨place, .branch (.test check) target⟩] ++ rest := by
      simpa using hlines
    split
    · rename_i hcheck
      have htarget : target ∈ Code.definitions body.instructions :=
        hsynced.wellFormed.closed target (by simp [Body.instructions, hlines])
      exact hsynced.admits_exchange [.goto target] hwindow rfl rfl (by simpa using htarget) rfl
        (.constantTaken hcheck)
    · rename_i hcheck
      refine hsynced.admits_exchange [] hwindow rfl rfl (by simp) rfl ?_
      rw [List.append_nil]
      exact .constantPassed (by simpa using hcheck)
  · exact .decline

theorem admits_simplifyGotoGoto (hsynced : body.Synced) (hlines : body.lines = before ++ lines) :
    body.Admits (simplifyGotoGoto body lines) := by
  unfold simplifyGotoGoto
  split
  · rename_i position jump rest
    split
    · exact .decline
    · rename_i target hjump
      have hwindow : body.lines = before ++ [⟨position, jump⟩] ++ rest := by simpa using hlines
      have htarget : target ∈ Code.definitions body.instructions :=
        hsynced.wellFormed.closed target (by simp [Body.instructions, hlines, hjump])
      obtain ⟨front, site, behind, hsite, hlanding⟩ := hsynced.landing htarget
      simp only [hlanding, ok_bind, List.tail_cons]
      split
      · rename_i place final others
        split
        · rename_i hsmaller
          have hfinal : final ∈ Code.definitions body.instructions :=
            hsynced.wellFormed.closed final (by simp [Body.instructions, hsite])
          have hland : Line.instructions before ++ [jump] ++ Line.instructions rest =
              Line.instructions front ++ .label target :: .goto final ::
                Line.instructions others := by
            simpa using congrArg Line.instructions (hwindow.symm.trans hsite)
          have hretarget := Instruction.target?_retarget hjump final
          refine hsynced.admits_exchange [jump.retarget final] hwindow ?_ ?_ ?_ ?_
            (.chain hjump hland hsmaller)
          · simp [Line.definitions_eq, Instruction.label?_eq_none_of_target? hjump]
          · simp [Instruction.label?_eq_none_of_target? hretarget]
          · simpa [hretarget] using hfinal
          · simp [Line.targets_eq, hjump, hretarget]
        · exact .decline
      · exact .decline
  · exact .decline

theorem admits_invertBranchOverGoto (hsynced : body.Synced)
    (hlines : body.lines = before ++ lines) :
    body.Admits (invertBranchOverGoto body lines) := by
  unfold invertBranchOverGoto
  split
  · rename_i position condition skip place target site id rest
    split
    · rename_i hskip
      subst id
      have hwindow : body.lines = before ++
          [⟨position, .branch condition skip⟩, ⟨place, .goto target⟩] ++
            ⟨site, .label skip⟩ :: rest := by
        simpa using hlines
      have htarget : target ∈ Code.definitions body.instructions :=
        hsynced.wellFormed.closed target (by simp [Body.instructions, hlines])
      exact hsynced.admits_exchange [.branch condition.negate target] hwindow rfl rfl
        (by simpa using htarget) rfl .invert
    · exact .decline
  · exact .decline

/-- Two lines that stand next to each other still do so after a line has been put
in behind another one than the first. -/
theorem exists_adjacent_of_insert {left right after : List Line} {first second last : Line}
    (hlines : before ++ first :: second :: after = left ++ last :: right)
    (hlast : first ≠ last) (extra : Line) :
    ∃ before' after', left ++ last :: extra :: right = before' ++ [first, second] ++ after' := by
  rcases List.append_eq_append_iff.mp hlines with ⟨middle, rfl, hmiddle⟩ | ⟨middle, rfl, hmiddle⟩
  · cases middle with
    | nil => exact absurd (List.cons.inj hmiddle).1 hlast
    | cons head middle =>
        cases middle with
        | nil =>
            simp only [List.cons_append, List.nil_append, List.cons.injEq] at hmiddle
            obtain ⟨rfl, rfl, rfl⟩ := hmiddle
            exact ⟨before, extra :: after, by simp⟩
        | cons next middle =>
            simp only [List.cons_append, List.cons.injEq] at hmiddle
            obtain ⟨rfl, rfl, -⟩ := hmiddle
            exact ⟨before, middle ++ last :: extra :: right, by simp⟩
  · cases middle with
    | nil => exact absurd (List.cons.inj hmiddle).1.symm hlast
    | cons head middle =>
        simp only [List.cons_append, List.cons.injEq] at hmiddle
        obtain ⟨rfl, rfl⟩ := hmiddle
        exact ⟨left ++ last :: extra :: middle, after, by simp⟩

/-- A constant and a jump to a test that it fails become a jump to a new label
behind the test. -/
theorem admits_split {front others rest : List Line} {position jumping site place : Nat}
    {value : Int32} {check : ZeroTest} {target final fresh : LabelId} (hsynced : body.Synced)
    (hlines : body.lines =
      before ++ ⟨position, .const value⟩ :: ⟨jumping, .goto target⟩ :: rest)
    (hsite : body.lines = (front ++ [⟨site, .label target⟩]) ++
      ⟨place, .branch (.test check) final⟩ :: others)
    (hcheck : check.holds value = false) (hnext : Line.leadingLabels others = [])
    (hfresh : body.labels.fresh? = some fresh) :
    body.Admits (.ok (some [.split place fresh, .release target, .acquire fresh,
      .splice position 2 [.goto fresh]])) := by
  have habove := hsynced.lt_of_fresh? hfresh
  have hnew : fresh ∉ Line.definitions body.lines := by
    rw [Line.definitions_eq]
    exact fun hmem => UInt32.lt_irrefl fresh (habove fresh hmem)
  obtain ⟨divided, hsplit, hdivided, hdividedLines⟩ := Script.run_split hsynced hsite hnew
    [.release target, .acquire fresh, .splice position 2 [.goto fresh]]
  -- The new label may stand in front of the constant or behind the jump.
  obtain ⟨before', after', hadjacent⟩ := exists_adjacent_of_insert
    (hlines.symm.trans hsite) (by simp) ⟨body.supply, .label fresh⟩
  have hwindow := hdividedLines.trans hadjacent
  have hfinal : fresh ∈ Code.definitions divided.instructions := by
    simp [Body.instructions, hdividedLines, Code.mem_definitions]
  obtain ⟨exchanged, hexchange, hexchanged, hinstructions⟩ :=
    Script.run_exchange [.goto fresh] hdivided hwindow rfl (by simpa using hfinal)
      (by simp [Line.definitions_eq])
  refine .rewrite (hsplit.trans hexchange) hexchanged ?_
  have hland := congrArg Line.instructions (hwindow.symm.trans hdividedLines)
  rw [Body.instructions, hsite] at habove
  rw [hinstructions, Body.instructions, hsite]
  have hresult := Rewrites.throughSplit (by simpa using hland) hcheck (by simpa using habove)
    (not_label_of_leadingLabels_eq_nil hnext)
  simpa using hresult

theorem admits_simplifyConstantBranchThroughGoto (hsynced : body.Synced)
    (hlines : body.lines = before ++ lines) :
    body.Admits (simplifyConstantBranchThroughGoto body lines) := by
  unfold simplifyConstantBranchThroughGoto
  split
  · rename_i position value jumping target rest
    have hwindow : body.lines = before ++
        [⟨position, .const value⟩, ⟨jumping, .goto target⟩] ++ rest := by
      simpa using hlines
    have htarget : target ∈ Code.definitions body.instructions :=
      hsynced.wellFormed.closed target (by simp [Body.instructions, hlines])
    obtain ⟨front, site, behind, hsite, hlanding⟩ := hsynced.landing htarget
    simp only [hlanding, ok_bind, List.tail_cons]
    split
    · rename_i place check final others
      have hland := congrArg Line.instructions (hwindow.symm.trans hsite)
      split
      · rename_i hcheck
        have hfinal : final ∈ Code.definitions body.instructions :=
          hsynced.wellFormed.closed final (by simp [Body.instructions, hsite])
        exact hsynced.admits_exchange [.goto final] hwindow rfl rfl (by simpa using hfinal) rfl
          (.throughTaken (by simpa using hland) hcheck)
      · rename_i hcheck
        have hcheck : check.holds value = false := by simpa using hcheck
        split
        · rename_i next more hnext
          obtain ⟨later, hothers⟩ := exists_of_leadingLabels_eq_cons hnext
          have hfinal : next ∈ Code.definitions body.instructions := by
            simp [Body.instructions, hsite, hothers, Code.mem_definitions]
          refine hsynced.admits_exchange [.goto next] hwindow rfl rfl (by simpa using hfinal) rfl ?_
          exact .throughPassed (by simpa [hothers] using hland) hcheck
        · rename_i hnext
          cases hfresh : body.labels.fresh? with
          | none => exact .decline
          | some fresh =>
              exact admits_split hsynced hlines (by simpa using hsite) hcheck hnext hfresh
    · exact .decline
  · exact .decline

theorem bothUnique_of_records {table : LabelTable} {names : LabelId → String}
    {marks : List Line} {jumps : List LabelId} {left right : LabelId}
    (hrecords : table.Records names marks jumps) (hleft : left ∈ Line.definitions marks)
    (hright : right ∈ Line.definitions marks) :
    bothUnique table left right = .ok (jumps.count left == 1 && jumps.count right == 1) := by
  rw [bothUnique, hrecords.isUnique hleft, ok_bind]
  cases hcount : jumps.count left == 1 with
  | false => rfl
  | true => simpa using hrecords.isUnique hright

theorem not_mem_of_count_eq_one {id : LabelId} {left right : List LabelId}
    (hcount : (left ++ id :: right).count id = 1) : id ∉ left ++ right := by
  simp only [List.count_append, List.count_cons_self] at hcount
  rw [← List.count_eq_zero, List.count_append]
  omega

theorem admits_collapseComparisonTail (hsynced : body.Synced)
    (hlines : body.lines = before ++ lines) :
    body.Admits (collapseComparisonTail body lines) := by
  unfold collapseComparisonTail
  split
  · rename_i position condition holds _ otherwise _ finish _ id _ value _ id' _ check target rest
    split
    · rename_i hmatch
      obtain ⟨rfl, rfl, hvalues⟩ := hmatch
      obtain ⟨names, hrecords⟩ := hsynced.recorded
      have hholds : holds ∈ Line.definitions body.lines :=
        Line.mem_definitions.mpr (by simp [hlines])
      have hfinish : finish ∈ Line.definitions body.lines :=
        Line.mem_definitions.mpr (by simp [hlines])
      rw [bothUnique_of_records hrecords hholds hfinish]
      simp only [ok_bind]
      split
      · rename_i hunique
        simp only [Bool.and_eq_true, beq_iff_eq] at hunique
        have hwindow := hlines.trans
          (List.append_assoc before [_, _, _, _, _, _, _] rest).symm
        have htargets : Line.targets body.lines =
            Line.targets before ++ [holds, finish, target] ++ Line.targets rest := by
          simp [hlines, Line.targets_eq]
        have hholds : holds ∉ Line.targets before ++ [finish, target] ++ Line.targets rest := by
          have hcount : (Line.targets before ++ holds :: finish :: target ::
              Line.targets rest).count holds = 1 := by
            simpa [htargets] using hunique.1
          simpa using not_mem_of_count_eq_one hcount
        have hfinish : finish ∉ Line.targets before ++ [holds, target] ++ Line.targets rest := by
          have hcount : (Line.targets before ++ [holds] ++ finish :: target ::
              Line.targets rest).count finish = 1 := by
            simpa [htargets] using hunique.2
          simpa using not_mem_of_count_eq_one hcount
        have htarget : target ∈ Code.definitions body.instructions :=
          hsynced.wellFormed.closed target (by simp [Body.instructions, hlines])
        have hretired : ∀ id ∈ [holds, finish],
            id ∉ [target] ++ (Line.targets before ++ Line.targets rest) := by
          simp only [List.mem_append, List.mem_cons] at hholds hfinish ⊢
          grind
        obtain ⟨exchanged, hrun, hexchanged, hinstructions⟩ := Script.run_exchange
          [.branch (if check.holds value then condition else condition.negate) target]
          hsynced hwindow rfl (by simpa using htarget) hretired
        refine .rewrite hrun hexchanged ?_
        rw [Line.targets_eq, Line.targets_eq] at hholds hfinish
        rw [hinstructions, Body.instructions_of_split hwindow, Line.instructions_append]
        exact .collapse hvalues hholds hfinish
      · exact .decline
    · exact .decline
  · exact .decline

end Control

/-! ## All rules -/

namespace Rule

variable {body : Body} {before lines : List Line}

/-- All rules outside the category of jumps contract straight-line code, but for the one
that asks for a last load. -/
theorem contracts_of_category {rule : Rule} (hcategory : rule.category ≠ .jumps)
    (hrule : rule ≠ .removeSuperfluousStoreLoad) :
    ∃ contraction? : List Instruction → Option Contraction,
      (∀ ahead contraction, contraction? ahead = some contraction → contraction.Fits ahead) ∧
        ∀ body, rule.plan body = contract contraction? := by
  cases rule with
  | removeNop => exact ⟨_, fun _ _ => Straight.fits_removeNop, fun _ => rfl⟩
  | simplifyDupStorePop => exact ⟨_, fun _ _ => Straight.fits_simplifyDupStorePop, fun _ => rfl⟩
  | removePushPop => exact ⟨_, fun _ _ => Straight.fits_removePushPop, fun _ => rfl⟩
  | removeLoadStoreSameSlot =>
      exact ⟨_, fun _ _ => Straight.fits_removeLoadStoreSameSlot, fun _ => rfl⟩
  | foldConstants => exact ⟨_, fun _ _ => Straight.fits_foldConstants, fun _ => rfl⟩
  | simplifyMultiplication =>
      exact ⟨_, fun _ _ => Straight.fits_simplifyMultiplication, fun _ => rfl⟩
  | removeIdentityOperation =>
      exact ⟨_, fun _ _ => Straight.fits_removeIdentityOperation, fun _ => rfl⟩
  | simplifyRemainderByOne =>
      exact ⟨_, fun _ _ => Straight.fits_simplifyRemainderByOne, fun _ => rfl⟩
  | simplifySelfSubtraction =>
      exact ⟨_, fun _ _ => Straight.fits_simplifySelfSubtraction, fun _ => rfl⟩
  | simplifyNegation => exact ⟨_, fun _ _ => Straight.fits_simplifyNegation, fun _ => rfl⟩
  | foldIncrement => exact ⟨_, fun _ _ => Straight.fits_foldIncrement, fun _ => rfl⟩
  | mergeIncrements => exact ⟨_, fun _ _ => Straight.fits_mergeIncrements, fun _ => rfl⟩
  | removeSuperfluousStoreLoad => exact absurd rfl hrule
  | _ => exact absurd rfl hcategory

theorem admits_plan (rule : Rule) (hsynced : body.Synced) (hlines : body.lines = before ++ lines) :
    body.Admits (rule.plan body lines) := by
  by_cases hcontracts : rule.category ≠ .jumps ∧ rule ≠ .removeSuperfluousStoreLoad
  · obtain ⟨contraction?, hfits, hplan⟩ := contracts_of_category hcontracts.1 hcontracts.2
    rw [hplan]
    exact admits_contract hfits hsynced hlines
  · cases rule with
    | removeSuperfluousStoreLoad =>
        exact LastLoad.admits_removeSuperfluousStoreLoad hsynced hlines
    | removeDeadLabel => exact Control.admits_removeDeadLabel hsynced hlines
    | removeGotoNextLabel => exact Control.admits_removeGotoNextLabel hsynced hlines
    | removeUnreachableAfterGoto =>
        exact Control.admits_removeUnreachableAfterGoto hsynced hlines
    | simplifyGotoGoto => exact Control.admits_simplifyGotoGoto hsynced hlines
    | simplifyConstantBranch => exact Control.admits_simplifyConstantBranch hsynced hlines
    | simplifyConstantBranchThroughGoto =>
        exact Control.admits_simplifyConstantBranchThroughGoto hsynced hlines
    | invertBranchOverGoto => exact Control.admits_invertBranchOverGoto hsynced hlines
    | collapseComparisonTail => exact Control.admits_collapseComparisonTail hsynced hlines
    | _ => exact absurd ⟨by decide, by decide⟩ hcontracts

/-- A rule leaves a body that is in step as it is, or rewrites it and keeps it in
step.  It never fails. -/
theorem attempt_cases (rule : Rule) (hsynced : body.Synced)
    (hlines : body.lines = before ++ lines) :
    rule.attempt body lines = .declined ∨
      ∃ rewritten, rule.attempt body lines = .rewritten rewritten ∧ rewritten.Synced ∧
        Rewrites body.instructions rewritten.instructions := by
  have hadmits := rule.admits_plan hsynced hlines
  rw [attempt]
  cases hplan : rule.plan body lines with
  | error fault =>
      rw [hplan] at hadmits
      cases hadmits
  | ok proposal =>
      rw [hplan] at hadmits
      cases hadmits with
      | decline => exact .inl rfl
      | rewrite hrun hrewritten hrewrites => exact .inr ⟨_, hrun, hrewritten, hrewrites⟩

/-- A rule that rewrites a body in step keeps it so and makes one rewrite of its
instructions. -/
theorem rewrites_of_attempt {rule : Rule} {next : Body} (hsynced : body.Synced)
    (hlines : body.lines = before ++ lines)
    (hattempt : rule.attempt body lines = .rewritten next) :
    next.Synced ∧ Rewrites body.instructions next.instructions := by
  rcases rule.attempt_cases hsynced hlines with hdeclined | ⟨other, hother, hstep⟩
  · rw [hdeclined] at hattempt
    cases hattempt
  · rw [hother] at hattempt
    cases hattempt
    exact hstep

theorem applyAt_cases (rule : Rule) (hsynced : body.Synced) (position : Nat) :
    rule.applyAt body position = .declined ∨
      ∃ rewritten, rule.applyAt body position = .rewritten rewritten ∧ rewritten.Synced ∧
        Rewrites body.instructions rewritten.instructions :=
  rule.attempt_cases hsynced (Line.before_append_ahead body.lines position).symm

end Rule

end Peephole
