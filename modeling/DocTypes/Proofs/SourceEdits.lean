import DocTypes.Proofs.WalkVerdicts
import Mathlib.Data.List.Pairwise

namespace DocTypes

/-- The edits of a verdict. -/
def Finding.edits (finding : Finding) : List Edit :=
  finding.fix.getD []

/-- All edits of some verdicts. -/
def Diagnostic.edits (diagnostics : List Diagnostic) : List Edit :=
  diagnostics.flatMap fun diagnostic => diagnostic.toFinding.edits

/-- The edit replaces the content of a line. -/
structure Edit.Over (line : TagLine) (edit : Edit) : Prop where
  offset : edit.offset = line.start
  stop : edit.stop = line.stop
  nonempty : line.text ≠ []

namespace DocTag

variable {lines : List TagLine} {texts : List (List Char)}

/-- The edits of lines are each over a line. -/
theorem exists_line (filled : List.Forall₂ (fun line text => text = [] ↔ line.text = []) lines texts) {edit : Edit}
    (isEdit : edit ∈ changes lines texts) : ∃ line ∈ lines, edit.Over line := by
  induction filled with
  | nil => simp [changes] at isEdit
  | @cons line text lines texts first _ ih =>
    have others : edit ∈ changes lines texts → ∃ other ∈ line :: lines, edit.Over other := by
      intro isOther
      obtain ⟨other, isLine, covers⟩ := ih isOther
      exact ⟨other, List.mem_cons_of_mem _ isLine, covers⟩
    rw [changes_cons] at isEdit
    split at isEdit
    next => exact others isEdit
    next differs =>
      rcases List.mem_cons.mp isEdit with rfl | isOther
      · have nonempty : line.text ≠ [] := fun empty => differs (empty.trans (first.mpr empty).symm)
        exact ⟨line, List.mem_cons_self, rfl, rfl, nonempty⟩
      · exact others isOther

/-- Edits of lines that follow each other follow each other. -/
theorem ordered_changes (filled : List.Forall₂ (fun line text => text = [] ↔ line.text = []) lines texts)
    (ordered : lines.Pairwise fun line other => line.stop ≤ other.start) :
    (changes lines texts).Pairwise fun edit other => edit.stop ≤ other.offset := by
  induction filled with
  | nil => exact .nil
  | @cons line text lines texts first others ih =>
    obtain ⟨before, more⟩ := List.pairwise_cons.mp ordered
    rw [changes_cons]
    split
    next => exact ih more
    next =>
      refine List.pairwise_cons.mpr ⟨fun edit isEdit => ?_, ih more⟩
      obtain ⟨other, isLine, covers⟩ := exists_line others isEdit
      rw [covers.offset]
      exact before other isLine

end DocTag

theorem Edit.Over.fits {edit : Edit} {line : TagLine} {source : List Char} {lines : List TagLine}
    (covers : edit.Over line)
    (standing : Standing 0 source lines) (isLine : line ∈ lines) : edit.Fits source := by
  obtain ⟨before, after, split, starts⟩ := standing.found line isLine
  refine ⟨before, line.text, after, split, by rw [covers.offset, starts, Nat.zero_add], ?_, covers.nonempty⟩
  have stop := covers.stop
  simp only [Edit.stop, TagLine.stop, covers.offset] at stop
  omega

/-- Of two members of a list one stands before the other. -/
theorem rel_or_rel {α : Type} {R : α → α → Prop} {items : List α} (pairwise : items.Pairwise R) {first second : α}
    (isFirst : first ∈ items) (isSecond : second ∈ items) (different : first ≠ second) :
    R first second ∨ R second first := by
  have symmetric : Std.Symm fun first second => R first second ∨ R second first := ⟨fun _ _ => Or.symm⟩
  have either : items.Pairwise fun first second => R first second ∨ R second first := pairwise.imp Or.inl
  exact either.forall isFirst isSecond different

/-- Lines of a part of a text stand in the text. -/
theorem Standing.embed {part before after : List Char} {lines : List TagLine}
    (standing : Standing (Text.byteSize before) part lines) : Standing 0 (before ++ (part ++ after)) lines := by
  refine ⟨fun line isLine => ?_, standing.ordered⟩
  obtain ⟨front, back, rfl, starts⟩ := standing.found line isLine
  exact ⟨before ++ front, back ++ after, by simp, by rw [starts, Text.byteSize_append, Nat.zero_add]⟩

namespace Check

open DocTypes.Php (Comment Separate)

/-- Two verdicts with no edits that overlap. -/
def EditsApart (first second : Finding) : Prop :=
  ∀ edit ∈ first.edits, ∀ other ∈ second.edits, edit.Apart other

/-- What the verdicts on a comment give for the source around it. -/
structure Within (source : List Char) (comment : Comment) (found : List Finding) : Prop where
  places : ∀ finding ∈ found, comment.span.start ≤ finding.offset ∧ finding.offset < comment.stretch.stop
  fits : ∀ finding ∈ found, ∀ edit ∈ finding.edits, edit.Fits source
  inside : ∀ finding ∈ found, ∀ edit ∈ finding.edits,
    comment.span.start ≤ edit.offset ∧ edit.stop ≤ comment.stretch.stop
  ordered : ∀ finding ∈ found, finding.edits.Pairwise Edit.Apart
  apart : found.Pairwise fun first second => first.Apart second ∧ EditsApart first second

section Comments

variable {source : List Char} {comments : List Comment} {comment : Comment} {found : List Finding}

/-- The lines of a comment's tags stand in the source. -/
theorem standing_docComment (separate : Separate source comments) (isComment : comment ∈ comments) :
    Standing 0 source ((docComment comment).tags.flatMap DocTag.lines) := by
  obtain ⟨before, after, rfl, isStart⟩ := separate.found comment isComment
  have inComment := DocComment.standing_tags comment.text comment.span.start
  rw [isStart] at inComment
  unfold docComment
  rw [isStart]
  exact inComment.embed

/-- The edits of a verdict are over lines of a tag that starts where the verdict stands. -/
theorem edits_cases {doc : DocComment} (verdicts : Verdicts doc found) {finding : Finding}
    (isFinding : finding ∈ found) :
    finding.edits = [] ∨ ∃ tag ∈ doc.tags, finding.offset = tag.offset ∧ ∃ texts,
      List.Forall₂ (fun line text => text = [] ↔ line.text = []) tag.lines texts ∧
        finding.edits = DocTag.changes tag.lines texts := by
  obtain ⟨_, _, _, verdicts⟩ := verdicts
  cases isFix : finding.fix with
  | none => exact Or.inl (by rw [Finding.edits, isFix]; rfl)
  | some edits =>
    rcases verdicts.fixed finding isFinding with noFix | ⟨tag, isTag, _, onTag⟩
    · rw [isFix] at noFix
      cases noFix
    · obtain ⟨texts, filled, isEdits⟩ := onTag.fix edits isFix
      exact Or.inr ⟨tag, isTag, onTag.offset, texts, filled, by rw [Finding.edits, isFix]; exact isEdits⟩

theorem exists_edit_line {doc : DocComment} (verdicts : Verdicts doc found) {finding : Finding}
    (isFinding : finding ∈ found)
    {edit : Edit} (isEdit : edit ∈ finding.edits) :
    ∃ tag ∈ doc.tags, finding.offset = tag.offset ∧ finding.fix ≠ none ∧ ∃ line ∈ tag.lines, edit.Over line := by
  have hasFix : finding.fix ≠ none := by
    intro noFix
    simp [Finding.edits, noFix] at isEdit
  rcases edits_cases verdicts isFinding with none | ⟨tag, isTag, offset, texts, filled, isEdits⟩
  · simp [none] at isEdit
  · exact ⟨tag, isTag, offset, hasFix, DocTag.exists_line filled (isEdits ▸ isEdit)⟩

/-- The verdicts on a comment of a source. -/
theorem within_of_verdicts (separate : Separate source comments) (isComment : comment ∈ comments)
    (verdicts : Verdicts (docComment comment) found) : Within source comment found := by
  have standing := standing_docComment separate isComment
  have inComment := DocComment.standing_tags comment.text comment.span.start
  obtain ⟨tagOrdered, tagsApart⟩ := List.pairwise_flatMap.mp standing.ordered
  have isLine : ∀ {tag : DocTag} {line : TagLine}, tag ∈ (docComment comment).tags → line ∈ tag.lines →
      line ∈ (docComment comment).tags.flatMap DocTag.lines :=
    fun isTag ofTag => List.mem_flatMap.mpr ⟨_, isTag, ofTag⟩
  constructor
  case places =>
    intro finding isFinding
    obtain ⟨_, _, _, verdicts⟩ := verdicts
    rcases verdicts.placed finding isFinding with atStart | ⟨tag, isTag, atTag⟩
    · have positive := Text.byteSize_pos (separate.nonempty comment isComment)
      have isStart : finding.offset = comment.span.start := atStart
      simp only [TagLine.stop, Php.Comment.stretch]
      omega
    · rw [atTag]
      exact DocComment.offset_within isTag
  case fits =>
    intro finding isFinding edit isEdit
    obtain ⟨tag, isTag, _, _, line, ofTag, covers⟩ := exists_edit_line verdicts isFinding isEdit
    exact covers.fits standing (isLine isTag ofTag)
  case inside =>
    intro finding isFinding edit isEdit
    obtain ⟨tag, isTag, _, _, line, ofTag, covers⟩ := exists_edit_line verdicts isFinding isEdit
    rw [covers.offset, covers.stop]
    exact ⟨inComment.start_le (isLine isTag ofTag), inComment.stop_le (isLine isTag ofTag)⟩
  case ordered =>
    intro finding isFinding
    rcases edits_cases verdicts isFinding with none | ⟨tag, isTag, _, texts, filled, isEdits⟩
    · rw [none]
      exact .nil
    · rw [isEdits]
      exact (DocTag.ordered_changes filled (tagOrdered tag isTag)).imp Or.inl
  case apart =>
    obtain ⟨_, _, _, ofComment⟩ := id verdicts
    refine ofComment.apart.imp_of_mem fun {first second} isFirst isSecond apart => ⟨apart, ?_⟩
    intro edit isEdit other isOther
    obtain ⟨tag, isTag, atTag, hasFix, line, ofTag, covers⟩ := exists_edit_line verdicts isFirst isEdit
    obtain ⟨tag', isTag', atTag', hasFix', line', ofTag', covers'⟩ := exists_edit_line verdicts isSecond isOther
    have different : tag ≠ tag' := by
      rintro rfl
      exact (apart.2 (atTag.trans atTag'.symm)).elim hasFix hasFix'
    rw [Edit.Apart, covers.offset, covers.stop, covers'.offset, covers'.stop]
    exact (rel_or_rel tagsApart isTag isTag' different).imp (fun before => before line ofTag line' ofTag')
      fun before => before line' ofTag' line ofTag

end Comments

section Ledgers

variable {file : SourceFile} {checked : List (Comment × List Finding)}

/-- Comments at different places do not overlap. -/
theorem comments_apart {source : List Char} {comments : List Comment} {comment other : Comment}
    (separate : Separate source comments) (isComment : comment ∈ comments) (isOther : other ∈ comments)
    (different : comment.span.start ≠ other.span.start) :
    comment.stretch.stop ≤ other.span.start ∨ other.stretch.stop ≤ comment.span.start := by
  have symmetric : Std.Symm fun first second : Comment =>
      first.span.stop ≤ second.span.start ∨ second.span.stop ≤ first.span.start := ⟨fun _ _ => Or.symm⟩
  have apart := separate.apart.forall isComment isOther fun same => different (same ▸ rfl)
  rwa [separate.stop comment isComment, separate.stop other isOther] at apart

/-- The verdicts of a file: no two are the same, and no edits of theirs overlap. -/
theorem apart_of_ledger (separate : Separate file.text file.comments) (ledger : Ledger file checked) :
    (checked.flatMap Prod.snd).Pairwise fun first second => first.Apart second ∧ EditsApart first second := by
  have within : ∀ entry ∈ checked, Within file.text entry.1 entry.2 := fun entry isEntry =>
    within_of_verdicts separate (ledger.ofFile entry isEntry) (ledger.verdicts entry isEntry)
  refine List.pairwise_flatMap.mpr ⟨fun entry isEntry => (within entry isEntry).apart, ?_⟩
  refine (List.pairwise_map.mp ledger.once).imp_of_mem fun {entry other} isEntry isOther different => ?_
  intro first isFirst second isSecond
  have apart := comments_apart separate (ledger.ofFile entry isEntry) (ledger.ofFile other isOther) different
  obtain ⟨firstFrom, firstTo⟩ := (within entry isEntry).places first isFirst
  obtain ⟨secondFrom, secondTo⟩ := (within other isOther).places second isSecond
  have elsewhere : first.offset ≠ second.offset := by omega
  refine ⟨⟨fun _ => elsewhere, fun same => absurd same elsewhere⟩, fun edit isEdit change isChange => ?_⟩
  obtain ⟨editFrom, editTo⟩ := (within entry isEntry).inside first isFirst edit isEdit
  obtain ⟨changeFrom, changeTo⟩ := (within other isOther).inside second isSecond change isChange
  simp only [Edit.Apart]
  omega

/-- Every edit of the verdicts covers whole characters of the source, and none overlaps another. -/
theorem edits_of_ledger (separate : Separate file.text file.comments) (ledger : Ledger file checked) :
    (∀ finding ∈ checked.flatMap Prod.snd, ∀ edit ∈ finding.edits, edit.Fits file.text) ∧
      ∀ finding ∈ checked.flatMap Prod.snd, finding.edits.Pairwise Edit.Apart := by
  have within : ∀ finding ∈ checked.flatMap Prod.snd,
      ∃ comment found, Within file.text comment found ∧ finding ∈ found := by
    intro finding isFinding
    obtain ⟨entry, isEntry, ofEntry⟩ := List.mem_flatMap.mp isFinding
    exact ⟨_, _, within_of_verdicts separate (ledger.ofFile entry isEntry) (ledger.verdicts entry isEntry), ofEntry⟩
  refine ⟨fun finding isFinding => ?_, fun finding isFinding => ?_⟩
  all_goals obtain ⟨comment, found, within, ofFound⟩ := within finding isFinding
  · exact within.fits finding ofFound
  · exact within.ordered finding ofFound

/-- Verdicts in the order of a source, none given twice, with edits that fit the source and do not overlap. -/
structure Orderly (source : List Char) (diagnostics : List Diagnostic) : Prop where
  sorted : diagnostics.Pairwise fun first second => first.offset ≤ second.offset
  distinct : (diagnostics.map fun diagnostic => (diagnostic.code, diagnostic.offset)).Nodup
  fits : ∀ edit ∈ Diagnostic.edits diagnostics, edit.Fits source
  apart : (Diagnostic.edits diagnostics).Pairwise Edit.Apart

/-- The verdict on a whole file edits nothing. -/
theorem orderly_fileLevel (source : List Char) : Orderly source [.fileLevel] :=
  ⟨List.pairwise_singleton .., List.nodup_singleton _, nofun, .nil⟩

theorem orderly_of_ledger (separate : Separate file.text file.comments) (ledger : Ledger file checked) :
    Orderly file.text (Diagnostic.inSourceOrder ((checked.flatMap Prod.snd).map (Finding.locate file.text))) := by
  have perm : (Diagnostic.inSourceOrder ((checked.flatMap Prod.snd).map (Finding.locate file.text))).Perm _ :=
    List.mergeSort_perm _ _
  have apart := apart_of_ledger separate ledger
  obtain ⟨fits, orderedEach⟩ := edits_of_ledger separate ledger
  have ofFound :
      ∀ diagnostic ∈ Diagnostic.inSourceOrder ((checked.flatMap Prod.snd).map (Finding.locate file.text)),
      diagnostic.toFinding ∈ checked.flatMap Prod.snd := by
    intro diagnostic isDiagnostic
    obtain ⟨finding, isFinding, rfl⟩ := List.mem_map.mp (perm.mem_iff.mp isDiagnostic)
    exact isFinding
  have apartAll : (Diagnostic.inSourceOrder ((checked.flatMap Prod.snd).map (Finding.locate file.text))).Pairwise
      fun first second => first.toFinding.Apart second.toFinding ∧ EditsApart first.toFinding second.toFinding := by
    refine (perm.pairwise_iff fun {first second} both => ?_).mpr (List.pairwise_map.mpr apart)
    exact ⟨both.1.symm, fun edit isEdit other isOther => (both.2 other isOther edit isEdit).symm⟩
  refine ⟨ascending_mergeSort (fun diagnostic : Diagnostic => diagnostic.offset) _, ?_, ?_, ?_⟩
  · refine List.pairwise_map.mpr (apartAll.imp fun both same => ?_)
    obtain ⟨sameCode, samePlace⟩ := Prod.mk.inj same
    exact both.1.1 sameCode samePlace
  · intro edit isEdit
    obtain ⟨diagnostic, isDiagnostic, ofDiagnostic⟩ := List.mem_flatMap.mp isEdit
    exact fits _ (ofFound diagnostic isDiagnostic) edit ofDiagnostic
  · exact List.pairwise_flatMap.mpr ⟨fun diagnostic isDiagnostic => orderedEach _ (ofFound diagnostic isDiagnostic),
      apartAll.imp And.right⟩

end Ledgers

/-- The verdicts on a source, whether it was parsed or not. -/
theorem exists_orderly {parse : FrontEnd} {strict : Bool} {source : List Char}
    (separate : ∀ program, parse source = some program → Separate source program.comments)
    (lenient : parse source = none → strict = false) :
    ∃ diagnostics, checkSource parse strict source = .ok diagnostics ∧ Orderly source diagnostics := by
  cases parsed : parse source with
  | none =>
    refine ⟨_, ?_, orderly_fileLevel source⟩
    rw [checkSource_of_panicked parsed, lenient parsed, if_neg Bool.false_ne_true]
  | some program =>
    obtain ⟨diagnostics, isOk, checked, judged, rfl, once⟩ := completes_checkProgram source program
    have separate := separate program parsed
    have ledger : Ledger (sourceFile source program) checked := ⟨judged, once separate.distinct⟩
    exact ⟨_, checkSource_of_parsed parsed isOk strict, orderly_of_ledger separate ledger⟩

/-- The verdicts on a source are in its order. No two have one code and one place, and all their edits are made by
fixing the source: each covers whole characters, none overlaps another, and what they do not cover stays. That holds
with any front end that gives separate stretches of the source as comments. Where it panics there are no verdicts if
the check is strict. -/
theorem fixes_never_conflict {parse : FrontEnd} {strict : Bool} {source : List Char}
    (separate : ∀ program, parse source = some program → Separate source program.comments)
    (lenient : parse source = none → strict = false) :
    ∃ diagnostics fixed ordered, checkSource parse strict source = .ok diagnostics ∧
      fixSource parse strict source = .ok (fixed, diagnostics) ∧
      diagnostics.Pairwise (fun first second => first.offset ≤ second.offset) ∧
      (diagnostics.map fun diagnostic => (diagnostic.code, diagnostic.offset)).Nodup ∧
      (∀ edit ∈ Diagnostic.edits diagnostics, 0 < edit.len ∧ edit.stop ≤ Text.byteSize source ∧
        Text.isBoundary edit.offset source ∧ Text.isBoundary edit.stop source) ∧
      (Diagnostic.edits diagnostics).Pairwise Edit.Apart ∧
      ordered.Perm (Diagnostic.edits diagnostics) ∧ Edit.Rewrites 0 ordered source fixed := by
  obtain ⟨diagnostics, checks, orderly⟩ := exists_orderly separate lenient
  obtain ⟨ordered, fixed, permEdits, rewrites⟩ := Edit.exists_ordered orderly.fits orderly.apart
  refine ⟨diagnostics, fixed, ordered, checks, ?_, orderly.sorted, orderly.distinct, fun edit isEdit => ?_,
    orderly.apart, permEdits, rewrites⟩
  · have applied : Diagnostic.applyFixes source diagnostics = fixed :=
      Edit.applyAll_of_rewrites permEdits.symm rewrites
    rw [fixSource, checks, ← applied]
    rfl
  · exact ⟨(orderly.fits edit isEdit).len_pos, (orderly.fits edit isEdit).boundaries⟩

/-- A function with a tag to fix, behind a character of three bytes. -/
def misspelled : List Char :=
  "<?php /* € */ /** @return boolean */ function f(): bool \x7b\x7d".toList

theorem fixes_never_conflict_misspelled :
    Separate misspelled (Php.Program.ofSource misspelled).comments ∧
      ∃ diagnostics, checkSource frontEnd true misspelled = .ok diagnostics ∧ diagnostics.length = 1 ∧
        fixSource frontEnd true misspelled =
          .ok ("<?php /* € */ /** @return bool */ function f(): bool \x7b\x7d".toList, diagnostics) ∧
        ∀ edit ∈ Diagnostic.edits diagnostics, 0 < edit.len ∧ edit.stop ≤ Text.byteSize misspelled := by
  have separate : Separate misspelled (Php.Program.ofSource misspelled).comments :=
    (Php.wellPlaced_comments misspelled).separate
  have result : (fixSource frontEnd true misspelled).toOption.map
      (fun (fixed, diagnostics) => (fixed, diagnostics.length)) =
      some ("<?php /* € */ /** @return bool */ function f(): bool \x7b\x7d".toList, 1) := by decide +kernel
  have parsed : ∀ program, frontEnd misspelled = some program → Separate misspelled program.comments := by
    rintro _ ⟨⟩
    exact separate
  obtain ⟨diagnostics, fixed, _, checks, fixes, _, _, inRange, _⟩ :=
    @fixes_never_conflict frontEnd true misspelled parsed nofun
  rw [fixes] at result
  obtain ⟨isFixed, one⟩ := Prod.mk.inj (Option.some.inj result)
  exact ⟨separate, diagnostics, checks, one, isFixed ▸ fixes,
    fun edit isEdit => ⟨(inRange edit isEdit).1, (inRange edit isEdit).2.1⟩⟩

end Check

end DocTypes
