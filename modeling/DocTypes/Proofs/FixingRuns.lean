import DocTypes.Proofs.FileSelection
import DocTypes.Proofs.FlagReading

namespace DocTypes.Cli

/-- The text of a file after it was fixed, or as it is where its check fails. -/
def fixedText (parse : Check.FrontEnd) (strict : Bool) (text : String) : String :=
  match Check.fixSource parse strict text.toList with
  | .ok (fixed, _) => String.ofList fixed
  | .error _ => text

section Texts

variable {parse : Check.FrontEnd} {strict : Bool} {text : String} {diagnostics : List Diagnostic}
  (checks : Check.checkSource parse strict text.toList = .ok diagnostics)

include checks

theorem fixSource_of_checks : Check.fixSource parse strict text.toList =
    .ok (Diagnostic.applyFixes text.toList diagnostics, diagnostics) := by
  rw [Check.fixSource, checks]
  rfl

theorem fixedText_of_checks :
    fixedText parse strict text = String.ofList (Diagnostic.applyFixes text.toList diagnostics) := by
  rw [fixedText, fixSource_of_checks checks]

theorem fixedText_of_none (noFix : diagnostics.all fun diagnostic => diagnostic.fix.isNone) :
    fixedText parse strict text = text := by
  have noEdits : diagnostics.flatMap (fun diagnostic => diagnostic.fix.getD []) = [] := by
    rw [List.flatMap_eq_nil_iff]
    intro diagnostic member
    rw [Option.isNone_iff_eq_none.mp (List.all_eq_true.mp noFix diagnostic member)]
    rfl
  rw [fixedText_of_checks checks, Diagnostic.applyFixes, noEdits, Edit.applyAll, List.mergeSort_nil, Edit.applyFrom,
    String.ofList_toList]

end Texts

/-- A tree after the files at some paths were fixed. -/
structure Rewritten (parse : Check.FrontEnd) (strict : Bool) (files : FileMap) (paths : List Path) (now : FileMap) :
    Prop where
  dirs : now.dirs = files.dirs
  names : now.entries.map Prod.fst = files.entries.map Prod.fst
  read : ∀ path, now.read? path =
    if path ∈ paths then (files.read? path).map (fixedText parse strict) else files.read? path

namespace Rewritten

variable {parse : Check.FrontEnd} {strict : Bool} {files now next : FileMap} {paths : List Path} {path : Path}
  {text : String}

theorem refl (files : FileMap) : Rewritten parse strict files [] files :=
  ⟨rfl, rfl, fun _ => by simp⟩

theorem sameRules (rewritten : Rewritten parse strict files paths now) {isRule : Path → Bool}
    (ordinary : ∀ path ∈ paths, isRule path = false) : FileMap.SameRules isRule files now := by
  refine ⟨rewritten.dirs, rewritten.names, fun path holdsRules => ?_⟩
  rw [rewritten.read, if_neg]
  intro member
  simp [ordinary path member] at holdsRules

theorem trans (first : Rewritten parse strict files paths now) (second : Rewritten parse strict now [path] next)
    (apart : path ∉ paths) : Rewritten parse strict files (paths ++ [path]) next := by
  refine ⟨second.dirs.trans first.dirs, second.names.trans first.names, fun other => ?_⟩
  rw [second.read, first.read]
  by_cases isPath : other = path
  · simp [isPath, apart]
  · simp [isPath]

theorem of_same (isText : now.read? path = some text) (same : fixedText parse strict text = text) :
    Rewritten parse strict now [path] now := by
  refine ⟨rfl, rfl, fun other => ?_⟩
  by_cases isPath : other = path
  · simp [isPath, isText, same]
  · simp [isPath]

theorem write (isText : now.read? path = some text) :
    Rewritten parse strict now [path] (now.write path (fixedText parse strict text)) := by
  refine ⟨rfl, ?_, fun other => ?_⟩
  · simp only [FileMap.write, List.map_map]
    refine List.map_congr_left fun entry _ => ?_
    by_cases isPath : entry.1 = path <;> simp [isPath]
  · rw [FileMap.read?_write]
    by_cases isPath : other = path
    · simp [isPath, isText]
    · simp [isPath]

end Rewritten

theorem exists_writeFixes {parse : Check.FrontEnd} {strict : Bool} {now : FileMap} {target : Target} {text : String}
    {diagnostics : List Diagnostic} (isText : now.read? target.path = some text)
    (checks : Check.checkSource parse strict text.toList = .ok diagnostics) :
    ∃ next, writeFixes now target diagnostics = .ok next ∧ Rewritten parse strict now [target.path] next := by
  have isFixed := fixedText_of_checks checks
  unfold writeFixes
  split
  next noFix => exact ⟨now, rfl, .of_same isText (fixedText_of_none checks noFix)⟩
  next =>
    rw [isText]
    dsimp only
    rw [← isFixed]
    by_cases same : fixedText parse strict text = text
    · exact ⟨now, congrArg Except.ok (if_pos same), .of_same isText same⟩
    · exact ⟨_, congrArg Except.ok (if_neg same), .write isText⟩

/-- The report on a file as it is in a tree. -/
def IsReport (parse : Check.FrontEnd) (strict : Bool) (files : FileMap) (target : Target) (report : FileReport) :
    Prop :=
  ∃ text diagnostics, files.read? target.path = some text ∧
    Check.checkSource parse strict text.toList = .ok diagnostics ∧ report = ⟨target.shown, diagnostics⟩

/-- A run that only checks and a run that fixes, both through with the same files of a tree. What was rewritten so
far does not show: all reports are on the texts at the start. -/
structure Lockstep (parse : Check.FrontEnd) (strict : Bool) (files : FileMap) (done : List Target)
    (plain fixing : Progress) : Prop where
  reported : ∀ target ∈ done, ∃ report ∈ plain.reports, IsReport parse strict files target report
  reports : ∀ report ∈ plain.reports, ∃ target ∈ done, IsReport parse strict files target report
  same : fixing.reports = plain.reports
  kept : plain.files = files
  rewritten : Rewritten parse strict files (done.map Target.path) fixing.files

/-- The files that paths stand for, up to a path that stands for nothing. -/
def selection (platform : Platform) (config : Config) (files : FileMap) : List String → List Target
  | [] => []
  | text :: texts =>
    match platform.select config files text with
    | .error _ => []
    | .ok found => found ++ selection platform config files texts

namespace Lockstep

variable {parse : Check.FrontEnd} {strict : Bool} {files : FileMap} {done : List Target} {plain fixing : Progress}

theorem start (parse : Check.FrontEnd) (strict : Bool) (files : FileMap) :
    Lockstep parse strict files [] ⟨[], files⟩ ⟨[], files⟩ :=
  ⟨nofun, nofun, rfl, rfl, .refl files⟩

/-- At a file that neither run has been through, both fail alike or both go on. -/
theorem step (lockstep : Lockstep parse strict files done plain fixing) {target : Target}
    (apart : target.path ∉ done.map Target.path) :
    (∃ error, checkTarget parse false strict plain target = .error error ∧
      checkTarget parse true strict fixing target = .error error) ∨
    ∃ plain' fixing', checkTarget parse false strict plain target = .ok plain' ∧
      checkTarget parse true strict fixing target = .ok fixing' ∧
      Lockstep parse strict files (done ++ [target]) plain' fixing' := by
  have readPlain : plain.files.read? target.path = files.read? target.path := by rw [lockstep.kept]
  -- Nothing was written to this file yet, so both reads of it give the text from the start.
  have readFixing : fixing.files.read? target.path = files.read? target.path := by
    rw [lockstep.rewritten.read, if_neg apart]
  cases isText : files.read? target.path with
  | none =>
    rw [isText] at readPlain readFixing
    exact Or.inl ⟨.missing target.shown, by simp only [checkTarget, readPlain],
      by simp only [checkTarget, readFixing]⟩
  | some text =>
    rw [isText] at readPlain readFixing
    cases checks : Check.checkSource parse strict text.toList with
    | error error =>
      exact Or.inl ⟨.check target.shown error, by simp only [checkTarget, readPlain, checks],
        by simp only [checkTarget, readFixing, checks]⟩
    | ok diagnostics =>
      obtain ⟨next, isNext, rewritten⟩ := exists_writeFixes readFixing checks
      have isReport : IsReport parse strict files target ⟨target.shown, diagnostics⟩ :=
        ⟨text, diagnostics, isText, checks, rfl⟩
      refine Or.inr ⟨⟨plain.reports ++ [⟨target.shown, diagnostics⟩], plain.files⟩,
        ⟨fixing.reports ++ [⟨target.shown, diagnostics⟩], next⟩, ?_, ?_, ?_, ?_, ?_, lockstep.kept, ?_⟩
      · simp only [checkTarget, readPlain, checks]
        rfl
      · simp only [checkTarget, readFixing, checks, if_true, isNext]
        rfl
      · refine List.forall_mem_append.mpr ⟨fun other member => ?_, by simpa using Or.inr isReport⟩
        obtain ⟨report, isOld, ofOther⟩ := lockstep.reported other member
        exact ⟨report, List.mem_append_left _ isOld, ofOther⟩
      · refine List.forall_mem_append.mpr ⟨fun report member => ?_, by simpa using Or.inr isReport⟩
        obtain ⟨other, isOld, ofReport⟩ := lockstep.reports report member
        exact ⟨other, List.mem_append_left _ isOld, ofReport⟩
      · rw [lockstep.same]
      · rw [List.map_append]
        exact lockstep.rewritten.trans rewritten apart

theorem stepAll (lockstep : Lockstep parse strict files done plain fixing) {found : List Target}
    (once : ((done ++ found).map Target.path).Nodup) :
    let plainRun := Cli.stepAll (checkTarget parse false strict) plain found
    let fixingRun := Cli.stepAll (checkTarget parse true strict) fixing found
    fixingRun.2 = plainRun.2 ∧
      (plainRun.2 = none → Lockstep parse strict files (done ++ found) plainRun.1 fixingRun.1) := by
  induction found generalizing done plain fixing with
  | nil => exact ⟨rfl, fun _ => by rwa [List.append_nil]⟩
  | cons target found ih =>
    have apart : target.path ∉ done.map Target.path := by
      rw [List.map_append, List.nodup_append] at once
      exact fun member => once.2.2 _ member _ List.mem_cons_self rfl
    rcases lockstep.step apart with ⟨error, isPlain, isFixing⟩ | ⟨plain', fixing', isPlain, isFixing, further⟩
    · simp [Cli.stepAll, isPlain, isFixing]
    · simp only [Cli.stepAll, isPlain, isFixing]
      rw [List.append_cons] at once ⊢
      exact ih further once

theorem checkPaths {platform : Platform} {isRule : Path → Bool} (steady : platform.Steady isRule) {config : Config}
    (lockstep : Lockstep platform.parse config.strict files done plain fixing) {texts : List String}
    (once : ((done ++ selection platform config files texts).map Target.path).Nodup)
    (ordinary : ∀ target ∈ done ++ selection platform config files texts, isRule target.path = false) :
    let plainRun := Cli.checkPaths platform false config plain texts
    let fixingRun := Cli.checkPaths platform true config fixing texts
    fixingRun.2 = plainRun.2 ∧ (plainRun.2 = none →
      Lockstep platform.parse config.strict files (done ++ selection platform config files texts) plainRun.1
        fixingRun.1) := by
  induction texts generalizing done plain fixing with
  | nil =>
    rw [selection, List.append_nil]
    exact ⟨rfl, fun _ => lockstep⟩
  | cons text texts ih =>
    -- The next path is looked up in the trees as they are now, which selects what the tree at the start does.
    have sameRules : FileMap.SameRules isRule files fixing.files := by
      refine lockstep.rewritten.sameRules fun path member => ?_
      obtain ⟨target, isDone, rfl⟩ := List.mem_map.mp member
      exact ordinary target (List.mem_append_left _ isDone)
    simp only [Cli.checkPaths, checkPath, lockstep.kept, steady config files fixing.files text sameRules]
    simp only [selection] at once ordinary ⊢
    cases isFound : platform.select config files text with
    | error error => exact ⟨rfl, fun faultless => by cases faultless⟩
    | ok found =>
      simp only [isFound, ← List.append_assoc] at once ordinary ⊢
      have onceFound := once
      rw [List.map_append, List.nodup_append] at onceFound
      obtain ⟨sameFault, onward⟩ := lockstep.stepAll onceFound.1
      cases isPlain : Cli.stepAll (checkTarget platform.parse false config.strict) plain found with
      | mk plain' fault =>
        cases isFixing : Cli.stepAll (checkTarget platform.parse true config.strict) fixing found with
        | mk fixing' fault' =>
          rw [isPlain, isFixing] at sameFault onward
          obtain rfl : fault' = fault := sameFault
          cases fault' with
          | some error => exact ⟨rfl, fun faultless => by cases faultless⟩
          | none => exact ih (onward rfl) once ordinary

end Lockstep

theorem exitCode_ending (reports : List FileReport) :
    (ending reports).exitCode = 1 ↔ ∃ report ∈ reports, ∃ diagnostic ∈ report.diagnostics, diagnostic.isError := by
  unfold ending
  split
  next found => simpa [Ending.exitCode, FileReport.errorCount, List.countP_pos_iff] using found
  next found => simpa [Ending.exitCode, FileReport.errorCount, List.countP_pos_iff] using found

section Plain

variable {platform : Platform} {config : Config} {progress : Progress}

theorem files_stepAll {parse : Check.FrontEnd} {strict : Bool} (found : List Target) :
    (stepAll (checkTarget parse false strict) progress found).1.files = progress.files := by
  induction found generalizing progress with
  | nil => rfl
  | cons target found ih =>
    rw [stepAll]
    split
    next next isNext =>
      have kept : next.files = progress.files := by
        unfold checkTarget at isNext
        split at isNext
        next => cases isNext
        next =>
          split at isNext <;> cases isNext
          rfl
      rw [ih, kept]
    next => rfl

theorem files_checkPaths (texts : List String) :
    (checkPaths platform false config progress texts).1.files = progress.files := by
  induction texts generalizing progress with
  | nil => rfl
  | cons text texts ih =>
    have kept : (checkPath platform false config progress text).1.files = progress.files := by
      unfold checkPath
      split
      next => rfl
      next found _ => exact files_stepAll found
    rw [checkPaths]
    split
    next next isNext =>
      rw [isNext] at kept
      rw [ih, kept]
    next next error isNext =>
      rw [isNext] at kept
      exact kept

theorem files_conclude (format : OutputFormat) (done : Progress × Option RunError) :
    (conclude format done).files = done.1.files := by
  obtain ⟨progress, fault⟩ := done
  cases fault <;> rfl

theorem files_check {options : Options} (notFixing : options.fix = false) (files : FileMap) :
    (check platform options files).files = files := by
  unfold check
  split
  next => rfl
  next =>
    rw [files_conclude, notFixing]
    exact files_checkPaths _

theorem files_run {plain fixing : List String} (adds : AddsFix platform.request plain fixing) (files : FileMap) :
    (run platform plain files).files = files := by
  unfold run
  split
  next => rfl
  next => rfl
  next => rfl
  next options isCheck => exact files_check (adds.absent options isCheck) files

end Plain

/-- What a run that fixes some files of a tree leaves and how it ends. -/
structure FixesOnly (parse : Check.FrontEnd) (strict : Bool) (files : FileMap) (paths : List Path)
    (outcome : Outcome) :
    Prop where
  fixed : ∀ path ∈ paths, ∃ text fixed diagnostics, files.read? path = some text ∧
    Check.fixSource parse strict text.toList = .ok (fixed, diagnostics) ∧
    outcome.files.read? path = some (String.ofList fixed)
  others : ∀ path, path ∉ paths → outcome.files.read? path = files.read? path
  errors : outcome.ending.exitCode = 1 ↔ ∃ path ∈ paths, ∃ text diagnostics, files.read? path = some text ∧
    Check.checkSource parse strict text.toList = .ok diagnostics ∧ ∃ diagnostic ∈ diagnostics, diagnostic.isError

section Outcomes

variable {parse : Check.FrontEnd} {strict : Bool} {files : FileMap} {done : List Target} {plain fixing : Progress}

theorem fixesOnly_nil (parse : Check.FrontEnd) (strict : Bool) (files : FileMap) (output : String) :
    FixesOnly parse strict files [] ⟨.clean, output, files⟩ :=
  ⟨nofun, fun _ _ => rfl, by simp [Ending.exitCode]⟩

/-- What the two runs come to. -/
theorem Lockstep.fixesOnly (lockstep : Lockstep parse strict files done plain fixing) (output : String) :
    FixesOnly parse strict files (done.map Target.path) ⟨ending fixing.reports, output, fixing.files⟩ := by
  refine ⟨fun path member => ?_, fun path other => ?_, (exitCode_ending _).trans ⟨?_, ?_⟩⟩
  · obtain ⟨target, isTarget, rfl⟩ := List.mem_map.mp member
    obtain ⟨_, _, text, diagnostics, isText, checks, _⟩ := lockstep.reported target isTarget
    refine ⟨text, _, diagnostics, isText, fixSource_of_checks checks, ?_⟩
    rw [lockstep.rewritten.read, if_pos member, isText, Option.map_some, fixedText_of_checks checks]
  · rw [lockstep.rewritten.read, if_neg other]
  · rintro ⟨report, isReport, diagnostic, isDiagnostic, isError⟩
    obtain ⟨target, isTarget, text, diagnostics, isText, checks, rfl⟩ :=
      lockstep.reports report (lockstep.same ▸ isReport)
    exact ⟨_, List.mem_map_of_mem isTarget, text, diagnostics, isText, checks, diagnostic, isDiagnostic, isError⟩
  · rintro ⟨path, member, text, diagnostics, isText, checks, diagnostic, isDiagnostic, isError⟩
    obtain ⟨target, isTarget, rfl⟩ := List.mem_map.mp member
    obtain ⟨_, isReport, _, found, isText', checks', rfl⟩ := lockstep.reported target isTarget
    obtain rfl := Option.some.inj (isText.symm.trans isText')
    obtain rfl := Except.ok.inj (checks.symm.trans checks')
    exact ⟨_, lockstep.same ▸ isReport, diagnostic, isDiagnostic, isError⟩

end Outcomes

/-- The outcome of a run that fixes files of a tree against that of a run that only checks them. -/
structure OnlyRewrites (parse : Check.FrontEnd) (strict : Bool) (files : FileMap) (paths : List Path)
    (plain fixing : Outcome) : Prop where
  output : fixing.output = plain.output
  exitCode : fixing.ending.exitCode = plain.ending.exitCode
  fixes : fixing.ending.exitCode ≠ 2 → FixesOnly parse strict files paths fixing

theorem onlyRewrites_failed (parse : Check.FrontEnd) (strict : Bool) (files left now : FileMap)
    (paths : List Path) :
    OnlyRewrites parse strict files paths ⟨.failed, "", left⟩ ⟨.failed, "", now⟩ :=
  ⟨rfl, rfl, fun ended => absurd rfl ended⟩

theorem onlyRewrites_clean (parse : Check.FrontEnd) (strict : Bool) (files : FileMap) (output : String) :
    OnlyRewrites parse strict files [] ⟨.clean, output, files⟩ ⟨.clean, output, files⟩ :=
  ⟨rfl, rfl, fun _ => fixesOnly_nil parse strict files output⟩

theorem onlyRewrites_check {platform : Platform} {isRule : Path → Bool} (steady : platform.Steady isRule)
    {options : Options} {files : FileMap} {base : Config}
    (isBase : platform.settings options.config files = .ok base)
    (once : ((selection platform (options.override base) files options.checkedPaths).map Target.path).Nodup)
    (ordinary : ∀ target ∈ selection platform (options.override base) files options.checkedPaths,
      isRule target.path = false) :
    OnlyRewrites platform.parse (options.override base).strict files
      ((selection platform (options.override base) files options.checkedPaths).map Target.path)
      (check platform (options.withFix false) files) (check platform (options.withFix true) files) := by
  obtain ⟨sameFault, lockstep⟩ :=
    (Lockstep.start platform.parse (options.override base).strict files).checkPaths steady once ordinary
  have opened (fix : Bool) : check platform (options.withFix fix) files = conclude (options.override base).format
      (checkPaths platform fix (options.override base) ⟨[], files⟩ options.checkedPaths) := by
    have sameBase : platform.settings (options.withFix fix).config files = .ok base := isBase
    rw [check, sameBase]
    rfl
  rw [opened, opened]
  generalize checkPaths platform false (options.override base) ⟨[], files⟩ options.checkedPaths = plainRun at *
  generalize checkPaths platform true (options.override base) ⟨[], files⟩ options.checkedPaths = fixingRun at *
  obtain ⟨plain, fault⟩ := plainRun
  obtain ⟨fixing, fault'⟩ := fixingRun
  obtain rfl : fault' = fault := sameFault
  cases fault' with
  | some error => exact onlyRewrites_failed ..
  | none =>
    have lockstep := lockstep rfl
    have same : fixing.reports = plain.reports := lockstep.same
    exact ⟨congrArg (render (options.override base).format) same, congrArg (Ending.exitCode ∘ ending) same,
      fun _ => lockstep.fixesOnly _⟩

/-- The options that a command line asks for a check with, and the configuration they lead to. -/
def configured? (platform : Platform) (arguments : List String) (files : FileMap) : Option (Options × Config) :=
  match platform.request arguments with
  | .ok (.check options) =>
    (platform.settings options.config files).toOption.map fun base => (options, options.override base)
  | _ => none

/-- The files that a run selects. -/
def selected (platform : Platform) (arguments : List String) (files : FileMap) : List Path :=
  match configured? platform arguments files with
  | some (options, config) => (selection platform config files options.checkedPaths).map Target.path
  | none => []

/-- Whether a run is strict. -/
def isStrict (platform : Platform) (arguments : List String) (files : FileMap) : Bool :=
  (configured? platform arguments files).any fun (_, config) => config.strict

/-- A run without the flag for fixing changes no file, and one with it only rewrites the files it selects. That
holds as long as no file is selected twice and none of them holds rules for selecting files, for any way to read the
command line and the settings, to select files and to parse sources. -/
theorem fix_only_rewrites {platform : Platform} {isRule : Path → Bool} (steady : platform.Steady isRule)
    {plain fixing : List String} (adds : AddsFix platform.request plain fixing) (files : FileMap) :
    (run platform plain files).files = files ∧
      ((selected platform plain files).Nodup → (∀ path ∈ selected platform plain files, isRule path = false) →
        OnlyRewrites platform.parse (isStrict platform plain files) files (selected platform plain files)
          (run platform plain files) (run platform fixing files)) := by
  refine ⟨files_run adds files, fun once ordinary => ?_⟩
  have added := adds.added
  cases isRequest : platform.request plain with
  | error error =>
    simp only [run, added, isRequest, Except.map]
    exact onlyRewrites_failed ..
  | ok request =>
    cases request with
    | help | version =>
      simp only [run, selected, configured?, added, isRequest, Except.map, Request.withFix]
      exact onlyRewrites_clean ..
    | check options =>
      have same := options.withFix_self
      rw [adds.absent options isRequest] at same
      simp only [selected, isStrict, configured?, isRequest] at once ordinary ⊢
      simp only [run, added, isRequest, Except.map, Request.withFix]
      cases isBase : platform.settings options.config files with
      | error error =>
        have fails (fix : Bool) : check platform (options.withFix fix) files = ⟨.failed, "", files⟩ := by
          have sameBase : platform.settings (options.withFix fix).config files = .error error := isBase
          rw [check, sameBase]
        have failsPlain := fails false
        rw [same] at failsPlain
        rw [fails, failsPlain]
        exact onlyRewrites_failed ..
      | ok base =>
        simp only [isBase, Except.toOption, Option.map_some, Option.any_some] at once ordinary ⊢
        have rewrites := onlyRewrites_check steady isBase once fun target member =>
          ordinary target.path (List.mem_map_of_mem member)
        rwa [same] at rewrites

/-- A directory with a file to fix and a file that is left out, and beside it a file at fault. -/
def mixedTree : FileMap :=
  ⟨[(["src", "a.php"], "<?php /** @return boolean */ function f(): bool \x7b\x7d"),
    (["src", "b.php"], "<?php /** @return boolean */ function g(): bool \x7b\x7d"),
    (["src", ".ignore"], "b.php"),
    (["c.php"], "<?php /** @return string */ function h(): int \x7b\x7d")], []⟩

theorem fix_only_rewrites_mixedTree :
    let here := platform ⟨[], ["home"]⟩
    here.Steady FileMap.isRuleFile ∧
      AddsFix here.request ["--strict", "src", "c.php"] ["--strict", "src", "--fix", "c.php"] ∧
      selected here ["--strict", "src", "c.php"] mixedTree = [["src", "a.php"], ["c.php"]] ∧
      (run here ["--strict", "src", "c.php"] mixedTree).files = mixedTree ∧
      OnlyRewrites here.parse true mixedTree [["src", "a.php"], ["c.php"]]
        (run here ["--strict", "src", "c.php"] mixedTree)
        (run here ["--strict", "src", "--fix", "c.php"] mixedTree) ∧
      (run here ["--strict", "src", "--fix", "c.php"] mixedTree).ending = .errorsFound ∧
      (run here ["--strict", "src", "--fix", "c.php"] mixedTree).files.read? ["src", "a.php"] =
        some "<?php /** @return bool */ function f(): bool \x7b\x7d" := by
  intro here
  have flag : FlagPlace ["--strict", "src"] ["c.php"] := ⟨by decide, by decide, by decide, by decide⟩
  have steady : here.Steady FileMap.isRuleFile := steady_platform _
  have adds : AddsFix here.request ["--strict", "src", "c.php"] ["--strict", "src", "--fix", "c.php"] :=
    flag.addsFix
  have chosen : selected here ["--strict", "src", "c.php"] mixedTree = [["src", "a.php"], ["c.php"]] := by
    decide +kernel
  have strict : isStrict here ["--strict", "src", "c.php"] mixedTree = true := by decide +kernel
  obtain ⟨unchanged, rewrites⟩ := fix_only_rewrites steady adds mixedTree
  rw [chosen, strict] at rewrites
  exact ⟨steady, adds, chosen, unchanged, rewrites (by decide) (by decide), by decide +kernel⟩

end DocTypes.Cli
