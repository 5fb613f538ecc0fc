import Peephole.Proofs.Construction
import Peephole.Proofs.InPlace

/-!
# Programs method by method

What becomes of a method does not depend on the methods around it: a program is optimized
exactly if each of its methods can be optimized alone, and the results and the reports
stand in the order of the methods.  Otherwise the fault is that of the first method which
is not well formed, wherever it stands, and only if there is none that of the first method
whose rewriting fails.  A program that is optimized in place is then as it was before.
-/

namespace Peephole

/-! ## Reports -/

namespace Report

/-- The sum of a number over some reports. -/
def sum (number : Report → Nat) : List Report → Nat
  | [] => 0
  | report :: rest => number report + sum number rest

/-- A report whose numbers are the sums of those of other reports. -/
structure IsSumOf (whole : Report) (reports : List Report) : Prop where
  passes : whole.passes = sum Report.passes reports
  rewrites : whole.rewrites = sum Report.rewrites reports
  hits : ∀ rule, whole.hits rule = sum (fun report => report.hits rule) reports
  before : whole.before = sum Report.before reports
  after : whole.after = sum Report.after reports

theorem number_foldl_add {number : Report → Nat}
    (hnumber : ∀ left right, number (add left right) = number left + number right)
    (start : Report) (reports : List Report) :
    number (reports.foldl add start) = number start + sum number reports := by
  induction reports generalizing start with
  | nil => rfl
  | cons report rest ih => rw [List.foldl_cons, ih, hnumber, sum, Nat.add_assoc]

theorem isSumOf_total (reports : List Report) : (total reports).IsSumOf reports := by
  have htotal : ∀ number : Report → Nat,
      (∀ left right, number (add left right) = number left + number right) →
        number empty = 0 → number (total reports) = sum number reports := by
    intro number hnumber hempty
    rw [total, number_foldl_add hnumber, hempty, Nat.zero_add]
  constructor
  case passes => exact htotal Report.passes (fun _ _ => rfl) rfl
  case rewrites => exact htotal Report.rewrites (fun _ _ => rfl) rfl
  case hits => exact fun rule => htotal (fun report => report.hits rule) (fun _ _ => rfl) rfl
  case before => exact htotal Report.before (fun _ _ => rfl) rfl
  case after => exact htotal Report.after (fun _ _ => rfl) rfl

theorem add_right_comm (first second third : Report) :
    add (add first second) third = add (add first third) second := by
  apply Report.ext
  · exact Nat.add_right_comm ..
  · exact Nat.add_right_comm ..
  · funext rule
    exact Nat.add_right_comm ..
  · exact Nat.add_right_comm ..
  · exact Nat.add_right_comm ..

theorem total_perm {reports order : List Report} (hperm : order.Perm reports) :
    total order = total reports :=
  hperm.foldl_eq' (fun _ _ _ _ whole => add_right_comm whole _ _) empty

end Report

/-! ## Methods on their own -/

/-- A method and a report as they come of optimizing another method alone. -/
structure Method.OptimizesTo (optimizer : Optimizer) (method result : Method)
    (report : MethodReport) : Prop where
  name : result.name = method.name
  kind : result.kind = method.kind
  reported : report.name = method.name
  rewritten : ∃ body optimized, method.toBody = .ok body ∧
    optimizer.optimize body = (.ok report.report, optimized) ∧
      result.code = optimized.instructions ∧ result.labels = ownNames optimized.labels
  alone : Program.optimize optimizer ⟨[method]⟩ = .ok (⟨[result]⟩, [report])

/-- A program and reports that come of optimizing each method of another program alone. -/
structure Program.OptimizesTo (optimizer : Optimizer) (program result : Program)
    (reports : List MethodReport) : Prop where
  length_methods : result.methods.length = program.methods.length
  length_reports : reports.length = program.methods.length
  pointwise : ∀ (index : Nat) (method rewritten : Method) (report : MethodReport),
    program.methods[index]? = some method → result.methods[index]? = some rewritten →
      reports[index]? = some report → method.OptimizesTo optimizer rewritten report

/-- The fault for which a program is not optimized.  A method that is not well formed comes
before one that cannot be rewritten, even if it stands behind it. -/
inductive Program.Fails (optimizer : Optimizer) (program : Program) : Fault → Prop
  | malformed {before after : List Method} {method : Method} {reason : Malformation}
      (hmethods : program.methods = before ++ method :: after)
      (hbefore : ∀ earlier ∈ before, Code.WellFormed earlier.code)
      (hreason : Code.Malformed method.code reason) :
      Fails optimizer program (.malformedBody (some method.name) reason)
  | stopped {before after : List Method} {method : Method} {body : Body} {fault : Fault}
      (hwell : ∀ method ∈ program.methods, Code.WellFormed method.code)
      (hmethods : program.methods = before ++ method :: after)
      (hbefore : ∀ earlier ∈ before, ∃ body report, earlier.toBody = .ok body ∧
        (optimizer.optimize body).1 = .ok report)
      (hbody : method.toBody = .ok body)
      (hfault : (optimizer.optimize body).1 = .error fault) : Fails optimizer program fault

section

variable {optimizer : Optimizer} {method : Method} {program rewritten : Program}
variable {reports : List MethodReport} {fault : Fault}

theorem Method.exists_toBody_iff :
    (∃ body, method.toBody = .ok body) ↔ Code.WellFormed method.code := by
  constructor
  · rintro ⟨body, hbody⟩
    exact Body.exists_assemble_iff.mp ⟨body, assemble_of_toBody hbody⟩
  · intro hwell
    obtain ⟨body, hassemble⟩ := Body.exists_assemble
      (method.labels.map fun label => (label.id, label.name)) hwell
    refine ⟨body, ?_⟩
    rw [toBody, hassemble]
    rfl

/-- A method that is not well formed is refused under its name. -/
theorem Method.toBody_eq_error_iff :
    method.toBody = .error fault ↔
      ∃ reason, fault = .malformedBody (some method.name) reason ∧
        Code.Malformed method.code reason := by
  constructor
  · intro hfault
    cases hassemble : Body.assemble (method.labels.map fun label => (label.id, label.name))
        method.code with
    | ok body =>
        rw [toBody, hassemble] at hfault
        cases hfault
    | error other =>
        obtain ⟨reason, rfl, hreason⟩ := Body.assemble_eq_error_iff.mp hassemble
        rw [toBody, hassemble] at hfault
        cases hfault
        exact ⟨reason, rfl, hreason⟩
  · rintro ⟨reason, rfl, hreason⟩
    rw [toBody, Body.assemble_eq_error_iff.mpr ⟨reason, rfl, hreason⟩]
    rfl

theorem Method.optimizesTo_iff {result : Method} {report : MethodReport} :
    method.OptimizesTo optimizer result report ↔
      method.optimize optimizer = .ok (result, report) := by
  rw [optimize_eq_ok_iff]
  constructor
  · intro hresult
    obtain ⟨body, optimized, hbody, hoptimized, hcode, hlabels⟩ := hresult.rewritten
    refine ⟨body, optimized, hbody, hoptimized, ?_, hresult.reported⟩
    obtain ⟨name, kind, code, labels⟩ := result
    obtain rfl : name = method.name := hresult.name
    obtain rfl : kind = method.kind := hresult.kind
    cases hcode
    cases hlabels
    rfl
  · rintro ⟨body, optimized, hbody, hoptimized, rfl, hname⟩
    refine ⟨rfl, rfl, hname, ⟨body, optimized, hbody, hoptimized, rfl, rfl⟩, ?_⟩
    apply Program.optimize_cons_eq_ok_iff.mpr
    exact ⟨_, report, [], [], optimize_eq_ok_iff.mpr ⟨body, optimized, hbody, hoptimized, rfl, hname⟩,
      rfl, rfl, rfl⟩

theorem Program.optimizesTo_cons_iff {methods : List Method} :
    OptimizesTo optimizer ⟨method :: methods⟩ rewritten reports ↔
      ∃ first report rest others, method.OptimizesTo optimizer first report ∧
        OptimizesTo optimizer ⟨methods⟩ ⟨rest⟩ others ∧
        rewritten = ⟨first :: rest⟩ ∧ reports = report :: others := by
  constructor
  · intro hresult
    obtain ⟨results⟩ := rewritten
    obtain ⟨first, rest, rfl⟩ := List.exists_cons_of_length_eq_add_one hresult.length_methods
    obtain ⟨report, others, rfl⟩ := List.exists_cons_of_length_eq_add_one hresult.length_reports
    refine ⟨first, report, rest, others, hresult.pointwise 0 _ _ _ rfl rfl rfl, ?_, rfl, rfl⟩
    exact ⟨Nat.succ.inj hresult.length_methods, Nat.succ.inj hresult.length_reports,
      fun index => hresult.pointwise (index + 1)⟩
  · rintro ⟨first, report, rest, others, hfirst, hrest, rfl, rfl⟩
    refine ⟨congrArg Nat.succ hrest.length_methods, congrArg Nat.succ hrest.length_reports, ?_⟩
    intro index
    cases index with
    | zero =>
        rintro _ _ _ ⟨⟩ ⟨⟩ ⟨⟩
        exact hfirst
    | succ index => exact hrest.pointwise index

/-- A program is optimized exactly if each of its methods can be, and comes out method by
method. -/
theorem Program.optimize_eq_ok_iff :
    optimize optimizer program = .ok (rewritten, reports) ↔
      program.OptimizesTo optimizer rewritten reports := by
  obtain ⟨methods⟩ := program
  induction methods generalizing rewritten reports with
  | nil =>
      constructor
      · intro hoptimize
        cases hoptimize
        exact ⟨rfl, rfl, by simp⟩
      · intro hresult
        obtain ⟨results⟩ := rewritten
        obtain rfl := List.eq_nil_of_length_eq_zero hresult.length_methods
        obtain rfl := List.eq_nil_of_length_eq_zero hresult.length_reports
        rfl
  | cons method methods ih =>
      rw [optimize_cons_eq_ok_iff, optimizesTo_cons_iff]
      simp only [Method.optimizesTo_iff, ih]

/-! ## Faults -/

/-- The bodies are all made before the first of them is worked on. -/
theorem Program.optimize_eq_error_iff :
    optimize optimizer program = .error fault ↔
      program.methods.mapM Method.toBody = .error fault ∨
        (∀ method ∈ program.methods, ∃ body, method.toBody = .ok body) ∧
          program.methods.mapM (fun method => method.toBody >>= optimizeBody optimizer) =
            .error fault := by
  rw [optimize, bind_eq_error_iff, ← exists_mapM_eq_ok_iff]
  -- A round over the bodies is a second round over the methods that they were made of.
  have hresults : ∀ bodies, program.methods.mapM Method.toBody = .ok bodies →
      bodies.mapM (optimizeBody optimizer) =
        program.methods.mapM fun method => method.toBody >>= optimizeBody optimizer :=
    fun _ hbodies => mapM_of_mapM_eq_ok hbodies
  simp only [bind_eq_error_iff, pure_eq_ok, reduceCtorEq, and_false, exists_false, or_false]
  apply or_congr_right
  constructor
  · rintro ⟨bodies, hbodies, hfault⟩
    exact ⟨⟨bodies, hbodies⟩, hresults bodies hbodies ▸ hfault⟩
  · rintro ⟨⟨bodies, hbodies⟩, hfault⟩
    exact ⟨bodies, hbodies, hresults bodies hbodies ▸ hfault⟩

theorem Program.optimize_eq_error_iff_fails :
    optimize optimizer program = .error fault ↔ program.Fails optimizer fault := by
  rw [optimize_eq_error_iff, mapM_eq_error_iff, mapM_eq_error_iff]
  simp only [Method.exists_toBody_iff]
  constructor
  · rintro (⟨before, method, after, hmethods, hbefore, hmethod⟩ |
      ⟨hwell, before, method, after, hmethods, hbefore, hmethod⟩)
    · obtain ⟨reason, rfl, hreason⟩ := Method.toBody_eq_error_iff.mp hmethod
      exact .malformed hmethods hbefore hreason
    · obtain ⟨body, hbody⟩ := Method.exists_toBody_iff.mpr (hwell method (by simp [hmethods]))
      rw [hbody, ok_bind, optimizeBody_eq_error_iff] at hmethod
      refine .stopped hwell hmethods ?_ hbody hmethod
      intro earlier hearlier
      obtain ⟨result, hresult⟩ := hbefore earlier hearlier
      obtain ⟨body, hbody, hresult⟩ := bind_eq_ok_iff.mp hresult
      obtain ⟨report, hreport⟩ := exists_optimizeBody_iff.mp ⟨result, hresult⟩
      exact ⟨body, report, hbody, hreport⟩
  · intro hfails
    cases hfails with
    | malformed hmethods hbefore hreason =>
        exact .inl ⟨_, _, _, hmethods, hbefore, Method.toBody_eq_error_iff.mpr ⟨_, rfl, hreason⟩⟩
    | stopped hwell hmethods hbefore hbody hfault =>
        refine .inr ⟨hwell, _, _, _, hmethods, ?_, ?_⟩
        · intro earlier hearlier
          obtain ⟨body, report, hbody, hreport⟩ := hbefore earlier hearlier
          obtain ⟨result, hresult⟩ := exists_optimizeBody_iff.mpr ⟨report, hreport⟩
          exact ⟨result, bind_eq_ok_iff.mpr ⟨body, hbody, hresult⟩⟩
        · rw [hbody, ok_bind, optimizeBody_eq_error_iff]
          exact hfault

end

/-- A program is optimized method by method, each as if it were alone, or it is left as it
was, for the first method that is not well formed or else for the first that cannot be
rewritten.  The reports can be added up in any order. -/
theorem Program.optimize_pointwise_or_not_at_all (optimizer : Optimizer) (program : Program) :
    (∀ rewritten reports, optimize optimizer program = .ok (rewritten, reports) ↔
        program.OptimizesTo optimizer rewritten reports) ∧
      (∀ fault, optimize optimizer program = .error fault ↔ program.Fails optimizer fault) ∧
      (∀ name reason, (Fault.malformedBody (some name) reason).message =
        "MalformedBody: " ++ (name ++ ": " ++ reason.message)) ∧
      (∀ reports order : List MethodReport, order.Perm reports →
        (total reports).IsSumOf (reports.map MethodReport.report) ∧
          total order = total reports) ∧
      (∀ reports sheet, (Worksheet.optimize optimizer).run ⟨program, []⟩ = .ok reports sheet →
        optimize optimizer program = .ok (sheet.program, reports)) ∧
      ∀ fault sheet, (Worksheet.optimize optimizer).run ⟨program, []⟩ = .error fault sheet →
        sheet.program = program ∧ optimize optimizer program = .error fault := by
  refine ⟨fun _ _ => optimize_eq_ok_iff, fun _ => optimize_eq_error_iff_fails, fun _ _ => rfl,
    fun reports order hperm => ⟨Report.isSumOf_total _, Report.total_perm (hperm.map _)⟩, ?_, ?_⟩
  · intro reports sheet hrun
    cases hoptimize : optimize optimizer program with
    | error fault =>
        obtain ⟨left, hleft⟩ := Worksheet.run_optimize_of_error hoptimize
        cases hrun.symm.trans hleft
    | ok result =>
        obtain ⟨left, hleft⟩ := Worksheet.run_optimize_of_ok hoptimize
        cases hrun.symm.trans hleft
        rfl
  · intro fault sheet hrun
    cases hoptimize : optimize optimizer program with
    | error other =>
        obtain ⟨left, hleft⟩ := Worksheet.run_optimize_of_error hoptimize
        cases hrun.symm.trans hleft
        exact ⟨rfl, rfl⟩
    | ok result =>
        obtain ⟨left, hleft⟩ := Worksheet.run_optimize_of_ok hoptimize
        cases hrun.symm.trans hleft

-- A method that is not well formed is reported before one that needs too many rewrites.
example :
    (Program.optimize (.ofSettings { maxRewrites := some 1 })
        ⟨[⟨"A.f", .method, [.nop, .nop], []⟩, ⟨"A.g", .method, [.goto 1], []⟩]⟩).map Prod.fst =
      .error (.malformedBody (some "A.g") (.undefinedTarget 1)) := rfl

/-- Two methods that need one rewrite and two. -/
def Program.padded : Program :=
  ⟨[⟨"A.f", .method, [.nop, .pop], []⟩, ⟨"A.g", .method, [.nop, .nop], []⟩]⟩

/-- If one rewrite is allowed the second method fails.  The body of the first has been
rewritten by then, but not the method. -/
theorem Program.optimize_pointwise_or_not_at_all_at_padded :
    (∃ rewritten reports, optimize (.ofSettings {}) padded = .ok (rewritten, reports) ∧
      rewritten.methods.map Method.code = [[.pop], []] ∧
      padded.OptimizesTo (.ofSettings {}) rewritten reports) ∧
    ∃ fault sheet,
      (Worksheet.optimize (.ofSettings { maxRewrites := some 1 })).run ⟨padded, []⟩ =
        .error fault sheet ∧
      fault = .rewriteLimitExceeded 1 ∧
      sheet.bodies.map Body.instructions = [[.pop], []] ∧
      sheet.program = padded ∧
      padded.Fails (.ofSettings { maxRewrites := some 1 }) fault := by
  constructor
  · have hoptimize : optimize (.ofSettings {}) padded = .ok (_, _) := rfl
    obtain ⟨hok, -⟩ := optimize_pointwise_or_not_at_all (.ofSettings {}) padded
    exact ⟨_, _, hoptimize, rfl, (hok _ _).mp hoptimize⟩
  · have hrun : (Worksheet.optimize (.ofSettings { maxRewrites := some 1 })).run ⟨padded, []⟩ =
        .error _ _ := rfl
    obtain ⟨-, herror, -, -, -, hfailed⟩ :=
      optimize_pointwise_or_not_at_all (.ofSettings { maxRewrites := some 1 }) padded
    obtain ⟨hsame, hoptimize⟩ := hfailed _ _ hrun
    exact ⟨_, _, hrun, rfl, rfl, hsame, (herror _).mp hoptimize⟩

end Peephole
