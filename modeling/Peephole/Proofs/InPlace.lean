import Peephole.Program.InPlace
import Peephole.Proofs.Repetition

/-!
# Programs in place

The three rounds over a program in place agree item by item with going through the lists
as a whole.  The first two write to the bodies only, and the last one, which writes to the
methods, cannot fail.  So a program is rewritten as a whole or it is left as it was.
-/

namespace Peephole

/-! ## Going through a list -/

section

variable {α β γ : Type} {f : α → Except Fault β} {g : β → Except Fault γ} {items : List α}
variable {values : List β} {fault : Fault}

theorem bind_eq_error_iff {first : Except Fault α} :
    first >>= f = .error fault ↔
      first = .error fault ∨ ∃ value, first = .ok value ∧ f value = .error fault := by
  cases first with
  | error other => simp [bind, Except.bind]
  | ok value => simp

theorem mapM_cons_eq_error_iff {head : α} :
    (head :: items).mapM f = .error fault ↔
      f head = .error fault ∨ (∃ value, f head = .ok value) ∧ items.mapM f = .error fault := by
  simp [List.mapM_cons, bind_eq_error_iff]

/-- Going through a list fails where it first does. -/
theorem mapM_eq_error_iff :
    items.mapM f = .error fault ↔
      ∃ before item after, items = before ++ item :: after ∧
        (∀ earlier ∈ before, ∃ value, f earlier = .ok value) ∧ f item = .error fault := by
  induction items with
  | nil => simp
  | cons head rest ih =>
      rw [mapM_cons_eq_error_iff, ih]
      constructor
      · rintro (hhead | ⟨hhead, before, item, after, rfl, hbefore, hitem⟩)
        · exact ⟨[], head, rest, rfl, by simp, hhead⟩
        · exact ⟨head :: before, item, after, rfl, List.forall_mem_cons.mpr ⟨hhead, hbefore⟩, hitem⟩
      · rintro ⟨_ | ⟨first, before⟩, item, after, hitems, hbefore, hitem⟩
        · cases hitems
          exact .inl hitem
        · cases hitems
          obtain ⟨hhead, hbefore⟩ := List.forall_mem_cons.mp hbefore
          exact .inr ⟨hhead, before, item, after, rfl, hbefore, hitem⟩

theorem exists_mapM_eq_ok_iff :
    (∃ values, items.mapM f = .ok values) ↔ ∀ item ∈ items, ∃ value, f item = .ok value := by
  induction items with
  | nil => simp
  | cons head rest ih =>
      rw [List.forall_mem_cons, ← ih]
      simp only [List.mapM_cons, bind_eq_ok_iff, pure_eq_ok]
      constructor
      · rintro ⟨_, value, hvalue, values, hvalues, ⟨⟩⟩
        exact ⟨⟨value, hvalue⟩, values, hvalues⟩
      · rintro ⟨⟨value, hvalue⟩, values, hvalues⟩
        exact ⟨value :: values, value, hvalue, values, hvalues, rfl⟩

theorem length_of_mapM_eq_ok (hvalues : items.mapM f = .ok values) :
    values.length = items.length := by
  induction items generalizing values with
  | nil =>
      cases hvalues
      rfl
  | cons head rest ih =>
      simp only [List.mapM_cons, bind_eq_ok_iff, pure_eq_ok] at hvalues
      obtain ⟨value, -, values, hrest, ⟨⟩⟩ := hvalues
      rw [List.length_cons, List.length_cons, ih hrest]

/-- Going through the results of a first round is doing both at each item. -/
theorem mapM_of_mapM_eq_ok (hvalues : items.mapM f = .ok values) :
    values.mapM g = items.mapM fun item => f item >>= g := by
  induction items generalizing values with
  | nil =>
      cases hvalues
      rfl
  | cons head rest ih =>
      simp only [List.mapM_cons, bind_eq_ok_iff, pure_eq_ok] at hvalues
      obtain ⟨value, hvalue, values, hrest, ⟨⟩⟩ := hvalues
      rw [List.mapM_cons, List.mapM_cons, hvalue, ok_bind, ih hrest]

end

/-! ## Three rounds -/

namespace Program

section

variable {optimizer : Optimizer} {fault : Fault} {body : Body}

theorem optimizeBody_eq_error_iff :
    optimizeBody optimizer body = .error fault ↔ (optimizer.optimize body).1 = .error fault := by
  rw [optimizeBody]
  rcases optimizer.optimize body with ⟨_ | _, _⟩ <;> simp

theorem exists_optimizeBody_iff :
    (∃ result, optimizeBody optimizer body = .ok result) ↔
      ∃ report, (optimizer.optimize body).1 = .ok report := by
  rw [optimizeBody]
  rcases optimizer.optimize body with ⟨_ | _, _⟩ <;> simp

end

namespace Worksheet

variable {optimizer : Optimizer} {program rewritten : Program} {reports : List MethodReport}
variable {method : Method} {methods : List Method} {body optimized : Body} {bodies : List Body}
variable {report : Report} {results : List (Report × Body)} {fault : Fault}

theorem improveOne_of_ok (hbody : optimizeBody optimizer body = .ok (report, optimized)) :
    improveOne optimizer method body = .ok ⟨method.name, report⟩ optimized := by
  rw [improveOne, optimizeBody_eq_ok_iff.mp hbody]

theorem improveOne_of_error (hbody : optimizeBody optimizer body = .error fault) :
    improveOne optimizer method body = .error fault (optimizer.optimize body).2 := by
  rw [optimizeBody_eq_error_iff] at hbody
  rw [improveOne]
  rcases hoptimize : optimizer.optimize body with ⟨outcome, left⟩
  rw [hoptimize] at hbody
  cases hbody
  rfl

/-- Bodies that can all be optimized are, beside the methods they were made of. -/
theorem alongside_improveOne_of_ok (hlength : bodies.length = methods.length)
    (hresults : bodies.mapM (optimizeBody optimizer) = .ok results) :
    alongside (improveOne optimizer) methods bodies =
      .ok (methods.zipWith (fun method result => ⟨method.name, result.1⟩) results)
        (results.map Prod.snd) := by
  induction bodies generalizing methods results with
  | nil =>
      obtain rfl := List.eq_nil_of_length_eq_zero hlength.symm
      cases hresults
      rfl
  | cons body bodies ih =>
      obtain ⟨method, methods, rfl⟩ := List.exists_cons_of_length_eq_add_one hlength.symm
      simp only [List.mapM_cons, bind_eq_ok_iff, pure_eq_ok] at hresults
      obtain ⟨⟨report, optimized⟩, hbody, results, hresults, ⟨⟩⟩ := hresults
      rw [alongside, improveOne_of_ok hbody, ih (Nat.succ.inj hlength) hresults]
      rfl

/-- The fault of the first body that cannot be optimized ends the round. -/
theorem alongside_improveOne_of_error (hlength : bodies.length = methods.length)
    (hfault : bodies.mapM (optimizeBody optimizer) = .error fault) :
    ∃ left, alongside (improveOne optimizer) methods bodies = .error fault left := by
  induction bodies generalizing methods with
  | nil => cases hfault
  | cons body bodies ih =>
      obtain ⟨method, methods, rfl⟩ := List.exists_cons_of_length_eq_add_one hlength.symm
      rcases mapM_cons_eq_error_iff.mp hfault with hbody | ⟨⟨⟨report, optimized⟩, hbody⟩, hrest⟩
      · exact ⟨_, by rw [alongside, improveOne_of_error hbody]⟩
      · obtain ⟨left, hleft⟩ := ih (Nat.succ.inj hlength) hrest
        exact ⟨_, by rw [alongside, improveOne_of_ok hbody, hleft]⟩

/-- The methods take the bodies over one by one, and nothing can fail any more. -/
theorem alongside_storeOne (hlength : bodies.length = methods.length) :
    ∃ done, alongside storeOne bodies methods = .ok done (methods.zipWith Method.store bodies) := by
  induction bodies generalizing methods with
  | nil =>
      obtain rfl := List.eq_nil_of_length_eq_zero hlength.symm
      exact ⟨[], rfl⟩
  | cons body bodies ih =>
      obtain ⟨method, methods, rfl⟩ := List.exists_cons_of_length_eq_add_one hlength.symm
      obtain ⟨done, hdone⟩ := ih (Nat.succ.inj hlength)
      refine ⟨() :: done, ?_⟩
      rw [alongside, hdone]
      rfl

theorem run_build_of_ok (hbodies : program.methods.mapM Method.toBody = .ok bodies) :
    build.run ⟨program, []⟩ = .ok () ⟨program, bodies⟩ := by
  rw [EStateM.run, build, hbodies]

theorem run_optimize_of_ok
    (hoptimize : Program.optimize optimizer program = .ok (rewritten, reports)) :
    ∃ left, (Worksheet.optimize optimizer).run ⟨program, []⟩ = .ok reports ⟨rewritten, left⟩ := by
  simp only [Program.optimize, bind_eq_ok_iff, pure_eq_ok] at hoptimize
  obtain ⟨bodies, hbodies, results, hresults, ⟨⟩⟩ := hoptimize
  have hlength := length_of_mapM_eq_ok hbodies
  have hsame : (results.map Prod.snd).length = program.methods.length := by
    rw [List.length_map, length_of_mapM_eq_ok hresults, hlength]
  obtain ⟨done, hdone⟩ := alongside_storeOne hsame
  refine ⟨results.map Prod.snd, ?_⟩
  -- Each round starts from the sheet that the one before it has left.
  rw [Worksheet.optimize, EStateM.run_bind, run_build_of_ok hbodies]
  dsimp only
  rw [EStateM.run_bind, EStateM.run, improve, alongside_improveOne_of_ok hlength hresults]
  dsimp only
  rw [EStateM.run_bind, EStateM.run, store, hdone, List.zipWith_map_right]
  rfl

theorem run_optimize_of_error (hoptimize : Program.optimize optimizer program = .error fault) :
    ∃ left, (Worksheet.optimize optimizer).run ⟨program, []⟩ = .error fault ⟨program, left⟩ := by
  rw [Program.optimize, bind_eq_error_iff] at hoptimize
  rcases hoptimize with hfault | ⟨bodies, hbodies, hoptimize⟩
  · refine ⟨[], ?_⟩
    rw [Worksheet.optimize, EStateM.run_bind, EStateM.run, build, hfault]
  · simp only [bind_eq_error_iff, pure_eq_ok, reduceCtorEq, and_false, exists_false, or_false]
      at hoptimize
    obtain ⟨left, hleft⟩ := alongside_improveOne_of_error (length_of_mapM_eq_ok hbodies) hoptimize
    refine ⟨left, ?_⟩
    rw [Worksheet.optimize, EStateM.run_bind, run_build_of_ok hbodies]
    dsimp only
    rw [EStateM.run_bind, EStateM.run, improve, hleft]

end Worksheet

end Program

end Peephole
