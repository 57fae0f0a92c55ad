import DocTypes.Check.Source
import DocTypes.Proofs.TagVerdicts

namespace DocTypes.Check

open DocTypes.Php (Comment)

/-- The verdicts on a doc comment. -/
def Verdicts (doc : DocComment) (found : List Finding) : Prop :=
  ∃ codes names, Code.unchecked ∉ codes ∧ CommentVerdicts codes names doc found

/-- Doc comments of a file, each with the verdicts on it. -/
structure Judged (file : SourceFile) (checked : List (Comment × List Finding)) : Prop where
  ofFile : ∀ entry ∈ checked, entry.1 ∈ file.comments
  verdicts : ∀ entry ∈ checked, Verdicts (docComment entry.1) entry.2

/-- Doc comments of a file at different places, each with the verdicts on it. -/
structure Ledger (file : SourceFile) (checked : List (Comment × List Finding)) :
    Prop extends Judged file checked where
  once : (checked.map (·.1.span.start)).Nodup

/-- The verdicts of the walk so far are those on the comments that it has given away. -/
def Sound (file : SourceFile) (progress : Progress) : Prop :=
  ∃ checked, Ledger file checked ∧ progress.consumed = (checked.map (·.1.span.start)).reverse ∧
    progress.findings = checked.flatMap Prod.snd

theorem sound_start (file : SourceFile) : Sound file ⟨[], [], []⟩ :=
  ⟨[], ⟨⟨nofun, nofun⟩, .nil⟩, rfl, rfl⟩

/-- A part of the walk that completes and keeps the progress sound. -/
def Keeps {α : Type} (file : SourceFile) (step : Walk α) : Prop :=
  ∀ progress, Sound file progress → Completes (step progress) fun result => Sound file result.2

/-- A part of the walk that only adds verdicts. -/
def Reports {α : Type} (step : Walk α) (holds : List Finding → Prop) : Prop :=
  ∀ progress, ∃ value found,
    step progress = .ok (value, { progress with findings := progress.findings ++ found }) ∧ holds found

section Steps

variable {α β : Type} {file : SourceFile}

theorem keeps_pure (value : α) : Keeps file (pure value) :=
  fun _ sound => completes_pure sound

theorem Keeps.bind {step : Walk α} {next : α → Walk β} (keeps : Keeps file step)
    (keepsNext : ∀ value, Keeps file (next value)) :
    Keeps file (step >>= next) :=
  fun progress sound => (keeps progress sound).bind fun result soundAfter => keepsNext result.1 result.2 soundAfter

theorem Keeps.discard {step : Walk α} (keeps : Keeps file step) : Keeps file (discard step) :=
  fun progress sound => (keeps progress sound).bind fun _ soundAfter => completes_pure soundAfter

theorem keeps_leave (span : Php.Span) (scope : Scope) : Keeps file (Walk.leave span scope) :=
  fun _ sound => ⟨_, rfl, sound⟩

theorem reports_pure {holds : List Finding → Prop} (value : α) (holdsNone : holds []) :
    Reports (pure value) holds :=
  fun progress => ⟨value, [], by rw [List.append_nil]; rfl, holdsNone⟩

/-- A check of tags, and what follows it. -/
theorem reports_check {check : Except CheckError α} {next : α → Walk β} {holdsCheck : α → Prop}
    {holds : List Finding → Prop} (completes : Completes check holdsCheck)
    (reports : ∀ value, holdsCheck value → Reports (next value) holds) : Reports (liftM check >>= next) holds := by
  obtain ⟨value, isOk, holdsValue⟩ := completes
  intro progress
  obtain ⟨result, found, isNext, holdsFound⟩ := reports value holdsValue progress
  exact ⟨result, found, by rw [isOk]; exact isNext, holdsFound⟩

theorem reports_report {found : List Finding} {next : Walk α} {holds : List Finding → Prop}
    (reports : Reports next fun more => holds (found ++ more)) :
    Reports (Walk.report found >>= fun _ => next) holds := by
  intro progress
  obtain ⟨value, more, isNext, holdsAll⟩ := reports { progress with findings := progress.findings ++ found }
  refine ⟨value, found ++ more, ?_, holdsAll⟩
  rw [← List.append_assoc]
  exact isNext

end Steps

section Comments

variable {file : SourceFile}

theorem attachedBack_mem {source : List Char} {boundary : Nat} {comments : List Comment} {comment : Comment}
    (isAttached : attachedBack source boundary comments = some comment) : comment ∈ comments := by
  induction comments generalizing boundary with
  | nil => simp [attachedBack] at isAttached
  | cons first earlier ih =>
    unfold attachedBack at isAttached
    split at isAttached
    · simp at isAttached
    · split at isAttached
      · simp at isAttached
      · split at isAttached
        · obtain rfl := Option.some.inj isAttached
          exact List.mem_cons_self
        · exact List.mem_cons_of_mem _ (ih isAttached)

theorem attached?_mem {source : List Char} {comments : List Comment} {start : Nat} {comment : Comment}
    (isAttached : attached? source comments start = some comment) : comment ∈ comments :=
  (List.takeWhile_subset _) (List.mem_reverse.mp (attachedBack_mem isAttached))

/-- A comment is given away only if no declaration has it. -/
theorem takeDoc_cases (file : SourceFile) (start : Nat) (progress : Progress) :
    Walk.takeDoc file start progress = .ok (none, progress) ∨
      ∃ comment ∈ file.comments, comment.span.start ∉ progress.consumed ∧
        Walk.takeDoc file start progress = .ok (some (docComment comment),
          { progress with consumed := comment.span.start :: progress.consumed }) := by
  unfold Walk.takeDoc
  cases isAttached : attached? file.text file.comments start with
  | none => exact Or.inl rfl
  | some comment =>
    by_cases taken : progress.consumed.contains comment.span.start
    · refine Or.inl ?_
      show (if progress.consumed.contains comment.span.start then _ else _ : Walk (Option DocComment)) progress = _
      rw [if_pos taken]
      rfl
    · refine Or.inr ⟨comment, attached?_mem isAttached, by simpa using taken, ?_⟩
      show (if progress.consumed.contains comment.span.start then _ else _ : Walk (Option DocComment)) progress = _
      rw [if_neg taken]
      rfl

/-- Checking the comment that a declaration is given. -/
theorem keeps_takeDoc {α : Type} {start : Nat} {next : Option DocComment → Walk α}
    (without : Keeps file (next none))
    (reports : ∀ comment, Reports (next (some (docComment comment))) (Verdicts (docComment comment))) :
    Keeps file (Walk.takeDoc file start >>= next) := by
  rintro progress ⟨checked, ledger, consumed, findings⟩
  rcases takeDoc_cases file start progress with isNone | ⟨comment, ofFile, fresh, isSome⟩
  · have sound : Completes (Walk.takeDoc file start progress) fun result => result = (none, progress) :=
      ⟨_, isNone, rfl⟩
    refine sound.bind ?_
    rintro _ rfl
    exact without progress ⟨checked, ledger, consumed, findings⟩
  · obtain ⟨value, found, isNext, verdicts⟩ :=
      reports comment { progress with consumed := comment.span.start :: progress.consumed }
    refine Completes.bind ⟨_, isSome, rfl⟩ ?_
    rintro _ rfl
    refine ⟨_, isNext, checked ++ [(comment, found)], ⟨⟨?_, ?_⟩, ?_⟩, ?_, ?_⟩
    · exact List.forall_mem_append.mpr ⟨ledger.ofFile, by simpa using ofFile⟩
    · exact List.forall_mem_append.mpr ⟨ledger.verdicts, by simpa using verdicts⟩
    · rw [consumed, List.mem_reverse] at fresh
      rw [List.map_append]
      exact ledger.once.append (List.nodup_singleton _) (by simpa using fresh)
    · simp [consumed]
    · simp [findings]

theorem keeps_enterClass (scope : Scope) (head : Php.ClassHead) : Keeps file (Walk.enterClass file scope head) := by
  refine keeps_takeDoc (keeps_pure _) fun comment => ?_
  refine reports_check (completes_templates _) fun templates onTemplates => ?_
  refine reports_report (reports_check (completes_propertyTags _) fun properties onProperties => ?_)
  have codesApart : templateCodes.Disjoint propertyCodes := by simp [templateCodes, propertyCodes]
  have all : Verdicts (docComment comment) (templates.2 ++ properties) :=
    ⟨_, _, by decide, onTemplates.append onProperties distinct_offsets codesApart (by simp)⟩
  exact reports_report (reports_pure _ (by simpa using all))

theorem keeps_enterFunction (scope : Scope) (head : Php.FunctionHead) (parameters : List Php.Parameter) :
    Keeps file (Walk.enterFunction file scope head parameters) := by
  refine keeps_takeDoc (keeps_pure _) fun comment => ?_
  refine reports_check (completes_templates _) fun templates onTemplates => ?_
  refine reports_report (reports_check (completes_paramTags _ _) fun params onParams => ?_)
  refine reports_report (reports_check (completes_returnTags _ _) fun results onResults => ?_)
  have paramsApart : templateCodes.Disjoint (.paramCount :: paramCodes) := by simp [templateCodes, paramCodes]
  have resultsApart : (templateCodes ++ .paramCount :: paramCodes).Disjoint
      (.returnMultiple :: typeCodes .result .returnTypeMismatch) := by
    simp [templateCodes, paramCodes, typeCodes, Subject.result]
  have onBoth := onTemplates.append onParams distinct_offsets paramsApart (by simp)
  have all : Verdicts (docComment comment) ((templates.2 ++ params) ++ results) :=
    ⟨_, _, by decide, onBoth.append onResults distinct_offsets resultsApart (by simp)⟩
  exact reports_report (reports_pure _ (by simpa using all))

theorem verdicts_varTags (reader : Reader) (comment : Comment) (hint : Option String) :
    Completes (reader.varTags (docComment comment) hint) (Verdicts (docComment comment)) :=
  (completes_varTags reader hint).imp fun _ onVars => ⟨_, _, by decide, onVars⟩

theorem keeps_checkVar (scope : Scope) (start : Nat) (hint : Option Php.Hint) :
    Keeps file (Walk.checkVar file scope start hint) := by
  refine keeps_takeDoc (keeps_pure _) fun comment => ?_
  refine reports_check (verdicts_varTags _ comment _) fun found verdicts => ?_
  have last : Reports (pure () : Walk Unit) fun more => Verdicts (docComment comment) (found ++ more) :=
    reports_pure () (by simpa using verdicts)
  exact reports_report last

end Comments

/-- The walk completes from every sound progress, on every program. -/
theorem keeps_walk (file : SourceFile) :
    (∀ scope node, Keeps file (walk file scope node)) ∧
      (∀ scope nodes, Keeps file (walkParameters file scope nodes)) ∧
      (∀ scope nodes, Keeps file (walkAll file scope nodes)) ∧
      ∀ scope nodes, Keeps file (walkSequence file scope nodes) := by
  refine walk.mutual_induct file _ _ _ _ ?namespaceBlock ?imports ?classLike ?functionLike ?parameter ?property
    ?constant ?compound ?noParameters ?promotedParameter ?plainParameter ?otherParameter ?nil ?cons ?noStatements
    ?importStatement ?otherStatement
  case namespaceBlock =>
    intro scope span name body keepsBody
    rw [walk]
    exact keepsBody.bind fun _ => keeps_leave _ _
  case imports =>
    intro scope items
    rw [walk]
    exact keeps_pure _
  case classLike =>
    intro scope head attributes arguments members keepsArguments keepsMembers
    rw [walk]
    exact keepsArguments.bind fun _ => (keeps_enterClass scope head).bind fun inside =>
      (keepsMembers inside).bind fun _ => keeps_leave _ _
  case functionLike =>
    intro scope head attributes parameters body keepsParameters keepsBody
    rw [walk]
    refine (keeps_enterFunction scope head _).bind fun inside => (keepsParameters inside).bind fun _ => ?_
    exact (Keeps.discard (keepsBody inside)).bind fun _ => keeps_leave _ _
  case parameter =>
    intro scope head attributes default hooks keepsAttributes keepsDefault keepsHooks
    rw [walk]
    exact keepsAttributes.bind fun _ => keepsDefault.bind fun _ => keepsHooks
  case property =>
    intro scope start hint parts keepsParts
    rw [walk]
    exact (keeps_checkVar scope start hint).bind fun _ => keepsParts
  case constant =>
    intro scope start parts keepsParts
    rw [walk]
    exact (keeps_checkVar scope start none).bind fun _ => keepsParts
  case compound =>
    intro scope construct parts keepsParts
    rw [walk]
    exact keepsParts
  case noParameters =>
    intro scope
    rw [walkParameters]
    exact keeps_pure _
  case promotedParameter =>
    intro scope head attributes default hooks nodes promoted keepsDefault keepsNodes
    rw [walkParameters, if_pos promoted]
    exact (keeps_checkVar scope _ _).bind fun _ => keepsDefault.bind fun _ => keepsNodes
  case plainParameter =>
    intro scope head attributes default hooks nodes plain keepsDefault keepsNodes
    rw [walkParameters, if_neg plain]
    exact keepsDefault.bind fun _ => keepsNodes
  case otherParameter =>
    intro scope node nodes other keepsNode keepsNodes
    rw [walkParameters]
    · exact keepsNode.bind fun _ => keepsNodes
    · exact other
  case nil =>
    intro scope
    rw [walkAll]
    exact keeps_pure _
  case cons =>
    intro scope node nodes keepsNode keepsNodes
    rw [walkAll]
    exact keepsNode.bind fun _ => keepsNodes
  case noStatements =>
    intro scope
    rw [walkSequence]
    exact keeps_pure _
  case importStatement =>
    intro scope items nodes keepsNodes
    rw [walkSequence]
    exact keepsNodes
  case otherStatement =>
    intro scope node nodes other keepsNode keepsNodes
    rw [walkSequence]
    · exact keepsNode.bind fun _ => keepsNodes
    · exact other

/-- The doc comments that no declaration has. -/
def Progress.lone (file : SourceFile) (progress : Progress) : List Comment :=
  file.comments.filter fun comment => comment.isDoc && !progress.consumed.contains comment.span.start

section Files

variable {file : SourceFile} {checked : List (Comment × List Finding)} {progress : Progress}

/-- The comments left over are each checked. -/
theorem completes_loneFindings (file : SourceFile) (progress : Progress) (top : Scope) :
    Completes (loneFindings file progress top) fun found =>
      ∃ more, more.map Prod.fst = progress.lone file ∧ Judged file more ∧ found = more.flatMap Prod.snd := by
  have completes (readerOf : Comment → Reader) :
      Completes ((progress.lone file).mapM fun comment => (readerOf comment).varTags (docComment comment) none)
        (List.Forall₂ (fun comment => Verdicts (docComment comment)) (progress.lone file)) :=
    completes_mapM fun comment _ => verdicts_varTags (readerOf comment) comment none
  refine (completes _).bind fun founds verdicts => ?_
  refine completes_pure ⟨(progress.lone file).zip founds, ?_, ⟨fun entry member => ?_, fun entry member => ?_⟩, ?_⟩
  · exact List.map_fst_zip verdicts.length_eq.le
  · exact List.mem_of_mem_filter (List.of_mem_zip member).1
  · exact (List.forall₂_iff_zip.mp verdicts).2 member
  · rw [List.flatMap_def, List.map_snd_zip verdicts.length_eq.ge]

/-- The comments left over are other ones than those given away. -/
theorem Ledger.append_lone (ledger : Ledger file checked)
    (consumed : progress.consumed = (checked.map (·.1.span.start)).reverse)
    (distinct : (file.comments.map (·.span.start)).Nodup) :
    (checked.map (·.1.span.start) ++ (progress.lone file).map (·.span.start)).Nodup := by
  have loneDistinct : ((progress.lone file).map (·.span.start)).Nodup :=
    distinct.sublist (List.filter_sublist.map _)
  refine ledger.once.append loneDistinct fun start isChecked isLoneStart => ?_
  obtain ⟨comment, member, rfl⟩ := List.mem_map.mp isLoneStart
  have test := (List.mem_filter.mp member).2
  rw [Bool.and_eq_true_iff, consumed] at test
  exact absurd isChecked (by simpa using test.2)

/-- All verdicts on a file are those on some of its comments. Where no two comments start at one byte, each of them
is checked once at most. -/
theorem completes_findings (file : SourceFile) (statements : List Php.Node) :
    Completes (findings file statements) fun found =>
      ∃ checked, Judged file checked ∧ found = checked.flatMap Prod.snd ∧
        ((file.comments.map (·.span.start)).Nodup → (checked.map (·.1.span.start)).Nodup) := by
  refine ((keeps_walk file).2.2.2 .root statements _ (sound_start file)).bind ?_
  rintro ⟨top, progress⟩ ⟨checked, ledger, consumed, walked⟩
  refine (completes_loneFindings file progress top).bind ?_
  rintro _ ⟨more, areLone, judged, rfl⟩
  refine completes_pure ⟨checked ++ more, ⟨?_, ?_⟩, by rw [walked, List.flatMap_append], fun distinct => ?_⟩
  · exact List.forall_mem_append.mpr ⟨ledger.ofFile, judged.ofFile⟩
  · exact List.forall_mem_append.mpr ⟨ledger.verdicts, judged.verdicts⟩
  · have once := ledger.append_lone consumed distinct
    rw [← areLone, List.map_map] at once
    rw [List.map_append]
    exact once

end Files

/-- The check of a source that was parsed completes, whatever the program. -/
theorem completes_checkProgram (source : List Char) (program : Php.Program) :
    Completes (checkProgram source program) fun diagnostics => ∃ checked,
      Judged (sourceFile source program) checked ∧
      diagnostics = Diagnostic.inSourceOrder ((checked.flatMap Prod.snd).map (Finding.locate source)) ∧
      ((program.comments.map (·.span.start)).Nodup → (checked.map (·.1.span.start)).Nodup) := by
  refine (completes_findings (sourceFile source program) program.statements).bind ?_
  rintro _ ⟨checked, judged, rfl, once⟩
  exact completes_pure ⟨checked, judged, rfl, once⟩

theorem checkSource_of_parsed {parse : FrontEnd} {source : List Char} {program : Php.Program}
    (parsed : parse source = some program) {diagnostics : List Diagnostic}
    (checks : checkProgram source program = .ok diagnostics) (strict : Bool) :
    checkSource parse strict source = .ok diagnostics := by
  rw [checkSource, completeCheck, parsed]
  simp only [checks]

theorem checkSource_of_panicked {parse : FrontEnd} {source : List Char} (panicked : parse source = none)
    (strict : Bool) :
    checkSource parse strict source = if strict then .error .parserPanicked else .ok [.fileLevel] := by
  rw [checkSource, completeCheck, panicked]

/-- A proposed spelling of a tag's content can always be written back. So the check of a source that the front end
parses completes, strict or not, and does not fall back on the verdict on the whole file. The only error there is
comes from a front end that panics. -/
theorem layout_errors_unreachable :
    (∀ raw offset, ∀ tag ∈ (DocComment.parse raw offset).tags, ∀ classes scope fixed,
      ClassTable.Suggests classes scope tag.content fixed → ∃ edits, tag.withContent fixed = .ok edits) ∧
    ∀ (parse : FrontEnd) (source : List Char),
      (∀ program, parse source = some program → ∃ diagnostics,
        (∀ strict, checkSource parse strict source = .ok diagnostics) ∧
          ∀ diagnostic ∈ diagnostics, diagnostic.code ≠ Diagnostic.fileLevel.code) ∧
      ∀ strict error, checkSource parse strict source = .error error →
        parse source = none ∧ strict = true ∧ error = .parserPanicked := by
  have completes (parse : FrontEnd) (source : List Char) (program : Php.Program)
      (parsed : parse source = some program) :
      ∃ diagnostics, (∀ strict, checkSource parse strict source = .ok diagnostics) ∧
        ∀ diagnostic ∈ diagnostics, diagnostic.code ≠ Diagnostic.fileLevel.code := by
    obtain ⟨diagnostics, isOk, checked, judged, rfl, _⟩ := completes_checkProgram source program
    refine ⟨_, checkSource_of_parsed parsed isOk, fun diagnostic member => ?_⟩
    obtain ⟨finding, isFinding, rfl⟩ := List.mem_map.mp (List.mem_mergeSort.mp member)
    obtain ⟨entry, isEntry, ofEntry⟩ := List.mem_flatMap.mp isFinding
    obtain ⟨codes, names, notListed, verdicts⟩ := judged.verdicts entry isEntry
    intro same
    have isUnchecked : finding.code = .unchecked := same
    exact notListed (isUnchecked ▸ verdicts.listed finding ofEntry)
  refine ⟨fun raw offset tag isTag classes scope fixed suggests => ?_,
    fun parse source => ⟨completes parse source, ?_⟩⟩
  · exact ⟨_, DocComment.withContent_of_suggests isTag suggests⟩
  · intro strict error isError
    cases parsed : parse source with
    | some program =>
      obtain ⟨diagnostics, checks, _⟩ := completes parse source program parsed
      rw [checks] at isError
      cases isError
    | none =>
      rw [checkSource_of_panicked parsed] at isError
      cases strict <;> cases isError
      exact ⟨rfl, rfl, rfl⟩

theorem layout_errors_unreachable_nested :
    (∃ tag ∈ (DocComment.parse "/** @var Array<\n * INT> */".toList 6).tags,
      ClassTable.Suggests .empty .root tag.content "array<\nint>" ∧
        ∃ edits, tag.withContent "array<\nint>" = .ok edits) ∧
    ∃ diagnostics,
      (∀ strict, checkSource frontEnd strict "<?php /** @var Array<\n * INT> */ $x;".toList = .ok diagnostics) ∧
        ∀ diagnostic ∈ diagnostics, diagnostic.code ≠ Diagnostic.fileLevel.code := by
  have isTag : (⟨"@var", 10, [⟨15, "Array<".toList⟩, ⟨25, "INT>".toList⟩]⟩ : DocTag) ∈
      (DocComment.parse "/** @var Array<\n * INT> */".toList 6).tags := by decide +kernel
  have isFixed : (ClassTable.readTypedName .empty .root "Array<\nINT>" .typeOnly false).fixed =
      some "array<\nint>" := by
    decide +kernel
  have suggests : ClassTable.Suggests .empty .root "Array<\nINT>" "array<\nint>" := Or.inl ⟨_, _, isFixed⟩
  exact ⟨⟨_, isTag, suggests, layout_errors_unreachable.1 _ _ _ isTag _ _ _ suggests⟩,
    (layout_errors_unreachable.2 frontEnd _).1 _ rfl⟩

end DocTypes.Check
