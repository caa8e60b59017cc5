import Mixsheet.Proofs.Command.Files
import Mixsheet.Proofs.Processor.Warnings

/-! # What a command line comes to

A task on a file that can be read asks for at most one file to be written, and only when it succeeds. So a build that
fails leaves all files as they are, its own among them, and the text of one that succeeds is found in one place. The
report starts with a line for each warning. -/

namespace Mixsheet.Command

variable {words : List String} {files : Files} {task : Task} {units : Units} {text css : String}
  {warnings : List Warning}

/-! ### Plans -/

namespace Plan

/-- The files that are still to be written, with their texts. -/
def writes : Plan → List (String × String)
  | .finish _ => []
  | .write path css _ => [(path, css)]

/-- The outcome when the files are written. -/
def outcome : Plan → Outcome
  | .finish outcome => outcome
  | .write path _ report => written path report (.ok ())

end Plan

/-- A run does what the pipeline of a command line does, and writes the stylesheet as text. -/
theorem run_eq_process (text : String) (units : Units) :
    run text units = (process text units).map fun e => (Stylesheet.render ⟨e.nodes⟩, e.warnings) := rfl

theorem plan_of_error {e : ProcessError} (h : run text units = .error e) :
    Invocation.plan ⟨task, units⟩ (.text text) =
      .finish (reported 1 (line ("Error in " ++ task.path ++ ": " ++ e.message))) := by
  have hprocess : process text units = .error e := map_eq_error_iff.mp ((run_eq_process text units).symm.trans h)
  simp only [Invocation.plan, hprocess]

/-- A run that succeeds is a stylesheet that the task goes on with. -/
theorem exists_plan (task : Task) (h : run text units = .ok (css, warnings)) : ∃ expanded : Expanded,
    Stylesheet.render ⟨expanded.nodes⟩ = css ∧ expanded.warnings = warnings ∧
      Invocation.plan ⟨task, units⟩ (.text text) = task.plan expanded := by
  obtain ⟨expanded, hprocess, hresult⟩ := map_eq_ok_iff.mp ((run_eq_process text units).symm.trans h)
  obtain ⟨hrender, hwarnings⟩ := Prod.mk.inj hresult
  exact ⟨expanded, hrender, hwarnings, by simp only [Invocation.plan, hprocess]⟩

theorem plan_build {path : String} {output? : Option String} (h : run text units = .ok (css, warnings)) :
    Invocation.plan ⟨.build path output?, units⟩ (.text text) =
      buildPlan path output? css (warningLines path warnings) := by
  obtain ⟨expanded, rfl, rfl, hplan⟩ := exists_plan (.build path output?) h
  exact hplan

theorem plan_check {path : String} {denyWarnings : Bool} (h : run text units = .ok (css, warnings)) :
    Invocation.plan ⟨.check path denyWarnings, units⟩ (.text text) =
      .finish (checkOutcome path denyWarnings warnings) := by
  obtain ⟨expanded, -, rfl, hplan⟩ := exists_plan (.check path denyWarnings) h
  exact hplan

/-- A build prints its text, or writes it to one file, or would write to its own file and does nothing. -/
theorem buildPlan_cases (path : String) (output? : Option String) (css report : String) :
    (output? = some "-" ∧ buildPlan path output? css report = .finish ⟨0, css, report⟩) ∨
      (output? ≠ some "-" ∧ (output?.isSome ∨ withCss path ≠ path) ∧
        buildPlan path output? css report = .write (output?.getD (withCss path)) css report) ∨
      (output? = none ∧ withCss path = path ∧ buildPlan path output? css report =
        .finish (reported 1 (report ++ line ("Error: output would overwrite " ++ path ++ "; pass --output")))) := by
  cases output? with
  | some output =>
    by_cases houtput : output = "-"
    · exact .inl ⟨congrArg some houtput, if_pos houtput⟩
    · exact .inr (.inl ⟨by simpa using houtput, .inl rfl, if_neg houtput⟩)
  | none =>
    by_cases hcss : withCss path = path
    · exact .inr (.inr ⟨rfl, hcss, if_pos hcss⟩)
    · exact .inr (.inl ⟨nofun, .inr hcss, if_neg hcss⟩)

theorem checkOutcome_cases (path : String) (denyWarnings : Bool) (warnings : List Warning) :
    ((denyWarnings = true ∧ warnings ≠ []) ∧ checkOutcome path denyWarnings warnings =
        reported 1 (warningLines path warnings ++
          line ("Failed: " ++ path ++ " (" ++ toString warnings.length ++ " warnings)"))) ∨
      (¬ (denyWarnings = true ∧ warnings ≠ []) ∧ checkOutcome path denyWarnings warnings =
        reported 0 (warningLines path warnings ++ line ("OK: " ++ path))) := by
  by_cases hdeny : denyWarnings = true ∧ warnings ≠ []
  · exact .inl ⟨hdeny, if_pos (by simpa using hdeny)⟩
  · exact .inr ⟨hdeny, if_neg (by simpa using hdeny)⟩

/-! ### Builds and checks -/

/-- A build of a text succeeds exactly if its run does and its output is not its own file. Then the text of the run
goes to one place; otherwise nothing is written. -/
structure BuildsTo (path : String) (output? : Option String) (text : String) (units : Units) (outcome : Outcome)
    (writes : List (String × String)) : Prop where
  code_eq_zero_iff : outcome.code = 0 ↔
    (∃ css warnings, run text units = .ok (css, warnings)) ∧ (output?.isSome ∨ withCss path ≠ path)
  emits : outcome.code = 0 → ∃ css warnings, run text units = .ok (css, warnings) ∧
    if output? = some "-" then outcome.out = css ∧ writes = []
    else outcome.out = "" ∧ writes = [(output?.getD (withCss path), css)]
  fails : outcome.code ≠ 0 → outcome.code = 1 ∧ outcome.out = "" ∧ writes = []

/-- A check of a text succeeds exactly if its run does, without warnings where they are denied. -/
structure ChecksTo (denyWarnings : Bool) (text : String) (units : Units) (outcome : Outcome)
    (writes : List (String × String)) : Prop where
  code_eq_zero_iff : outcome.code = 0 ↔
    ∃ css warnings, run text units = .ok (css, warnings) ∧ ¬ (denyWarnings = true ∧ warnings ≠ [])
  fails : outcome.code ≠ 0 → outcome.code = 1
  silent : outcome.out = "" ∧ writes = []

theorem buildsTo_plan (path : String) (output? : Option String) (text : String) (units : Units) :
    BuildsTo path output? text units (Invocation.plan ⟨.build path output?, units⟩ (.text text)).outcome
      (Invocation.plan ⟨.build path output?, units⟩ (.text text)).writes := by
  cases hrun : run text units with
  | error e =>
    rw [plan_of_error hrun]
    refine ⟨⟨nofun, ?_⟩, nofun, fun _ => ⟨rfl, rfl, rfl⟩⟩
    rintro ⟨⟨css, warnings, hok⟩, -⟩
    cases hrun.symm.trans hok
  | ok result =>
    obtain ⟨css, warnings⟩ := result
    rw [plan_build hrun]
    obtain ⟨rfl, hplan⟩ | ⟨houtput, htarget, hplan⟩ | ⟨rfl, hcss, hplan⟩ :=
      buildPlan_cases path output? css (warningLines path warnings) <;> rw [hplan]
    · exact ⟨⟨fun _ => ⟨⟨css, warnings, hrun⟩, .inl rfl⟩, fun _ => rfl⟩, fun _ => ⟨css, warnings, hrun, rfl, rfl⟩,
        fun h => absurd rfl h⟩
    · refine ⟨⟨fun _ => ⟨⟨css, warnings, hrun⟩, htarget⟩, fun _ => rfl⟩, fun _ => ⟨css, warnings, hrun, ?_⟩,
        fun h => absurd rfl h⟩
      rw [if_neg houtput]
      exact ⟨rfl, rfl⟩
    · refine ⟨⟨nofun, ?_⟩, nofun, fun _ => ⟨rfl, rfl, rfl⟩⟩
      rintro ⟨-, hsome | hne⟩
      · cases hsome
      · exact absurd hcss hne

theorem checksTo_plan (path : String) (denyWarnings : Bool) (text : String) (units : Units) :
    ChecksTo denyWarnings text units (Invocation.plan ⟨.check path denyWarnings, units⟩ (.text text)).outcome
      (Invocation.plan ⟨.check path denyWarnings, units⟩ (.text text)).writes := by
  cases hrun : run text units with
  | error e =>
    rw [plan_of_error hrun]
    refine ⟨⟨nofun, ?_⟩, fun _ => rfl, rfl, rfl⟩
    rintro ⟨css, warnings, hok, -⟩
    cases hrun.symm.trans hok
  | ok result =>
    obtain ⟨css, warnings⟩ := result
    rw [plan_check hrun]
    obtain ⟨hdeny, houtcome⟩ | ⟨hdeny, houtcome⟩ := checkOutcome_cases path denyWarnings warnings <;> rw [houtcome]
    · refine ⟨⟨nofun, ?_⟩, fun _ => rfl, rfl, rfl⟩
      rintro ⟨css', warnings', hok, hallowed⟩
      obtain ⟨-, rfl⟩ := Prod.mk.inj (Except.ok.inj (hrun.symm.trans hok))
      exact absurd hdeny hallowed
    · exact ⟨⟨fun _ => ⟨css, warnings, hrun, hdeny⟩, fun _ => rfl⟩, fun h => absurd rfl h, rfl, rfl⟩

/-! ### Reports -/

/-- A report starts with one line for each warning about a file, in their order, and no such line stands behind
them. -/
def Reports (path : String) (warnings : List Warning) (report : String) : Prop :=
  (∀ w ∈ warnings, '\n' ∉ w.render.toList) ∧ ∃ last : String,
    report = String.join (warnings.map fun w => "Warning: " ++ path ++ ":" ++ w.render ++ "\n") ++ last ∧
      ¬ "Warning: ".toList <+: last.toList

theorem reports_warningLines {path last : String} (hlines : ∀ w ∈ warnings, '\n' ∉ w.render.toList)
    (hlast : last.toList.head? ≠ some 'W') : Reports path warnings (warningLines path warnings ++ last) := by
  refine ⟨hlines, last, rfl, ?_⟩
  rintro ⟨rest, hrest⟩
  rw [← hrest] at hlast
  exact hlast rfl

theorem reports_plan (h : run text units = .ok (css, warnings)) :
    Reports task.path warnings (Invocation.plan ⟨task, units⟩ (.text text)).outcome.err := by
  have hlines := newline_not_mem_of_run h
  cases task with
  | build path output? =>
    rw [plan_build h]
    obtain ⟨-, hplan⟩ | ⟨-, -, hplan⟩ | ⟨-, -, hplan⟩ :=
      buildPlan_cases path output? css (warningLines path warnings) <;> rw [hplan]
    · rw [Plan.outcome, ← String.append_empty (s := warningLines path warnings)]
      exact reports_warningLines hlines nofun
    · exact reports_warningLines hlines (by simp [line])
    · exact reports_warningLines hlines (by simp [line])
  | check path denyWarnings =>
    rw [plan_check h]
    obtain ⟨-, houtcome⟩ | ⟨-, houtcome⟩ := checkOutcome_cases path denyWarnings warnings <;> rw [houtcome]
    · exact reports_warningLines hlines (by simp [line])
    · exact reports_warningLines hlines (by simp [line])

/-! ### Command lines -/

/-- The files that a command line asks to write, with their texts. -/
def writes (words : List String) (files : Files) : List (String × String) :=
  match Invocation.ofWords words with
  | .ok invocation => (invocation.plan (files.read invocation.task.path)).writes
  | .error _ => []

/-- The files after a list was written; no more than one file is asked for. -/
inductive Files.StoresAll (before : Files) : List (String × String) → Files → Prop where
  | none : StoresAll before [] before
  | one {path text : String} {after : Files} (stores : before.Stores path text after) :
    StoresAll before [(path, text)] after

theorem writes_of_text (hwords : Invocation.ofWords words = .ok ⟨task, units⟩)
    (hread : files.read task.path = .text text) :
    writes words files = (Invocation.plan ⟨task, units⟩ (.text text)).writes := by
  rw [← hread, writes, hwords]

/-- A plan comes to its outcome when the file that it asks for can be written. -/
theorem perform_of_plan {plan : Plan} (hwords : Invocation.ofWords words = .ok ⟨task, units⟩)
    (hplan : Invocation.plan ⟨task, units⟩ (files.read task.path) = plan)
    (hwrite : ∀ file ∈ plan.writes, ∃ after, files.write file.1 file.2 = .ok after) :
    ∃ after, perform words files = (plan.outcome, after) ∧ files.StoresAll plan.writes after := by
  simp only [perform, hwords, Invocation.perform, hplan]
  cases plan with
  | finish outcome => exact ⟨files, rfl, .none⟩
  | write path css report =>
    obtain ⟨after, hafter⟩ := hwrite (path, css) List.mem_cons_self
    dsimp only at hafter ⊢
    rw [hafter]
    exact ⟨after, rfl, .one (Files.stores_of_write hafter)⟩

/-- A task on a file that can be read, where its output can be written. A build succeeds if the run of the text does and
an output is given or the file has another name than its own with the extension `css`; it prints the text of the run
or writes it to one file, and nothing if it fails. A check writes nothing, and fails for warnings where they are
denied. Either reports each warning of the run in a line. -/
theorem perform_of_text (hwords : Invocation.ofWords words = .ok ⟨task, units⟩)
    (hread : files.read task.path = .text text)
    (hwrite : ∀ file ∈ writes words files, ∃ after, files.write file.1 file.2 = .ok after) :
    ∃ outcome after, perform words files = (outcome, after) ∧ files.StoresAll (writes words files) after ∧
      (∀ css warnings, run text units = .ok (css, warnings) → Reports task.path warnings outcome.err) ∧
      match task with
      | .build path output? => BuildsTo path output? text units outcome (writes words files)
      | .check _ denyWarnings => ChecksTo denyWarnings text units outcome (writes words files) := by
  rw [writes_of_text hwords hread] at hwrite ⊢
  obtain ⟨after, hperform, hstores⟩ := perform_of_plan hwords (congrArg _ hread) hwrite
  refine ⟨_, after, hperform, hstores, fun css warnings => reports_plan, ?_⟩
  cases task with
  | build path output? => exact buildsTo_plan path output? text units
  | check path denyWarnings => exact checksTo_plan path denyWarnings text units

/-- A build with a warning, to another file. -/
theorem perform_of_text_of_build : ∃ outcome after,
    perform ["build", "a", "-o", "b"] ⟨[(["a"], "x();a\x7bb:c\x7d")]⟩ = (outcome, after) ∧ outcome.code = 0 ∧
      Reports "a" [⟨"Mixin not found.", "x", ⟨1, 1⟩⟩] outcome.err ∧
      Files.Stores ⟨[(["a"], "x();a\x7bb:c\x7d")]⟩ "b" "a \x7b\n  b: c;\n\x7d\n" after := by
  have hwords : Invocation.ofWords ["build", "a", "-o", "b"] = .ok ⟨.build "a" (some "b"), .standard⟩ := by cbv
  have hread : Files.read ⟨[(["a"], "x();a\x7bb:c\x7d")]⟩ "a" = .text "x();a\x7bb:c\x7d" := by cbv
  have hrun : run "x();a\x7bb:c\x7d" .standard =
      .ok ("a \x7b\n  b: c;\n\x7d\n", [⟨"Mixin not found.", "x", ⟨1, 1⟩⟩]) := by cbv
  have hwrites : writes ["build", "a", "-o", "b"] ⟨[(["a"], "x();a\x7bb:c\x7d")]⟩ =
      [("b", "a \x7b\n  b: c;\n\x7d\n")] := by
    rw [writes_of_text hwords hread, plan_build hrun]
    rfl
  have hlocate : Files.locate ⟨[(["a"], "x();a\x7bb:c\x7d")]⟩ "b" = .ok (.vacant ["b"]) := by cbv
  have hwrite : ∀ file ∈ writes ["build", "a", "-o", "b"] ⟨[(["a"], "x();a\x7bb:c\x7d")]⟩,
      ∃ after, Files.write ⟨[(["a"], "x();a\x7bb:c\x7d")]⟩ file.1 file.2 = .ok after := by
    intro file hfile
    rw [hwrites] at hfile
    obtain rfl := List.mem_singleton.mp hfile
    exact ⟨_, by rw [Files.write, hlocate]⟩
  obtain ⟨outcome, after, hperform, hstores, hreports, hbuild⟩ := perform_of_text hwords hread hwrite
  have hcode : outcome.code = 0 := hbuild.code_eq_zero_iff.mpr ⟨⟨_, _, hrun⟩, .inl rfl⟩
  rw [hwrites] at hstores
  obtain _ | stores := hstores
  exact ⟨outcome, after, hperform, hcode, hreports _ _ hrun, stores⟩

end Mixsheet.Command
