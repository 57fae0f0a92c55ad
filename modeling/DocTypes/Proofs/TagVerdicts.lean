import DocTypes.Check.Tags
import DocTypes.Proofs.CommentRoundTrip
import DocTypes.Proofs.SourcePlaces

namespace DocTypes

/-- A check that gives a result, and what holds of the result. -/
def Completes {α : Type} (check : Except CheckError α) (holds : α → Prop) : Prop :=
  ∃ value, check = .ok value ∧ holds value

section Completes

variable {α β : Type} {check : Except CheckError α} {holds : α → Prop}

theorem completes_pure {value : α} (holdsValue : holds value) : Completes (pure value) holds :=
  ⟨value, rfl, holdsValue⟩

theorem Completes.bind {next : α → Except CheckError β} {holdsNext : β → Prop} (completes : Completes check holds)
    (step : ∀ value, holds value → Completes (next value) holdsNext) : Completes (check >>= next) holdsNext := by
  obtain ⟨value, isOk, holdsValue⟩ := completes
  obtain ⟨result, isNext, holdsResult⟩ := step value holdsValue
  exact ⟨result, by rw [isOk]; exact isNext, holdsResult⟩

theorem Completes.imp {holds' : α → Prop} (completes : Completes check holds)
    (weaker : ∀ value, holds value → holds' value) :
    Completes check holds' := by
  obtain ⟨value, isOk, holdsValue⟩ := completes
  exact ⟨value, isOk, weaker value holdsValue⟩

theorem completes_mapM {item : α → Except CheckError β} {each : α → β → Prop} {items : List α}
    (completes : ∀ value ∈ items, Completes (item value) (each value)) :
    Completes (items.mapM item) (List.Forall₂ each items) := by
  induction items with
  | nil => exact completes_pure .nil
  | cons value items ih =>
    obtain ⟨first, others⟩ := List.forall_mem_cons.mp completes
    rw [List.mapM_cons]
    exact first.bind fun _ holdsFirst => (ih others).bind fun _ holdsOthers =>
      completes_pure (.cons holdsFirst holdsOthers)

end Completes

namespace Finding

/-- Two verdicts that differ in their code or their place, and have no two fixes for one place. -/
def Apart (first second : Finding) : Prop :=
  (first.code = second.code → first.offset ≠ second.offset) ∧
    (first.offset = second.offset → first.fix = none ∨ second.fix = none)

theorem Apart.symm {first second : Finding} (apart : Apart first second) : Apart second first :=
  ⟨fun sameCode samePlace => apart.1 sameCode.symm samePlace.symm, fun samePlace => (apart.2 samePlace.symm).symm⟩

/-- A verdict on a tag. A fix gives lines of the tag other contents, and keeps the empty ones. -/
structure OnTag (tag : DocTag) (finding : Finding) : Prop where
  offset : finding.offset = tag.offset
  fix : ∀ edits ∈ finding.fix, ∃ texts,
    List.Forall₂ (fun line text => text = [] ↔ line.text = []) tag.lines texts ∧
    edits = DocTag.changes tag.lines texts

end Finding

namespace Check

/-- The verdicts of one check of a tag. -/
structure TagVerdicts (codes : List Code) (tag : DocTag) (found : List Finding) : Prop where
  listed : ∀ finding ∈ found, finding.code ∈ codes
  onTag : ∀ finding ∈ found, finding.OnTag tag
  apart : found.Pairwise fun first second => first.code ≠ second.code ∧ (first.fix = none ∨ second.fix = none)

namespace TagVerdicts

variable {codes : List Code} {tag : DocTag}

theorem nil : TagVerdicts codes tag [] :=
  ⟨by simp, by simp, .nil⟩

theorem single {finding : Finding} (listed : finding.code ∈ codes) (onTag : finding.OnTag tag) :
    TagVerdicts codes tag [finding] :=
  ⟨by simpa using listed, by simpa using onTag, List.pairwise_singleton ..⟩

/-- Verdicts of which only the first ones may have a fix. -/
theorem append {others : List Finding} {found : List Finding} (verdicts : TagVerdicts codes tag found)
    (verdictsOthers : TagVerdicts codes tag others) (noFix : ∀ finding ∈ others, finding.fix = none)
    (distinct : ∀ finding ∈ found, ∀ other ∈ others, finding.code ≠ other.code) :
    TagVerdicts codes tag (found ++ others) where
  listed finding member := (List.mem_append.mp member).elim (verdicts.listed finding)
    (verdictsOthers.listed finding)
  onTag finding member := (List.mem_append.mp member).elim (verdicts.onTag finding) (verdictsOthers.onTag finding)
  apart := List.pairwise_append.mpr ⟨verdicts.apart, verdictsOthers.apart, fun finding member other isOther =>
    ⟨distinct finding member other isOther, Or.inr (noFix other isOther)⟩⟩

/-- A verdict on the tag as it is. -/
theorem plain (subject : Subject) {code : Code} (listed : code ∈ codes) (what : String) :
    TagVerdicts codes tag [subject.finding code tag what] :=
  single listed ⟨rfl, by simp [Subject.finding]⟩

end TagVerdicts

section Tags

variable {raw : List Char} {offset : Nat} {tag : DocTag}

/-- A proposed spelling can be written back. -/
theorem completes_styleFindings {classes : ClassTable} {scope : Scope} {fixed : Option String} {codes : List Code}
    (subject : Subject) (listed : subject.style ∈ codes) (isTag : tag ∈ (DocComment.parse raw offset).tags)
    (suggests : ∀ text ∈ fixed, classes.Suggests scope tag.content text) :
    Completes (subject.styleFindings tag fixed) fun found =>
      TagVerdicts codes tag found ∧ ∀ finding ∈ found, finding.code = subject.style := by
  cases fixed with
  | none => exact completes_pure ⟨.nil, by simp⟩
  | some text =>
    have written := DocComment.withContent_of_suggests isTag (suggests text rfl)
    have reworded := DocComment.reworded_lines isTag (suggests text rfl)
    refine ⟨_, by rw [Subject.styleFindings, written]; rfl, .single listed ⟨rfl, ?_⟩, by simp [Subject.finding]⟩
    rintro edits isFix
    obtain rfl := Option.some.inj isFix
    exact ⟨_, (List.forall₂_map_left_iff.mp reworded).imp fun _ _ reworded => reworded.eq_nil_iff, rfl⟩

theorem suggests_documented (tag : DocTag) (reader : Reader) (extent : Extent) :
    ∀ text ∈ (reader.documented tag extent).fixed, reader.classes.Suggests reader.scope tag.content text :=
  fun _ isFixed => Or.inl ⟨extent, false, isFixed⟩

def templateCodes : List Code :=
  [.templateName, .templateType, .templateStyle]

def propertyCodes : List Code :=
  [.propertyType, .propertyName, .propertyStyle]

def paramCodes : List Code :=
  [.paramType, .paramName, .paramNameMismatch, .paramTypeMismatch, .paramStyle, .paramSplatMismatch]

variable (reader : Reader) (isTag : tag ∈ (DocComment.parse raw offset).tags)

include isTag

theorem completes_bindTemplate :
    Completes (reader.bindTemplate tag) fun result => TagVerdicts templateCodes tag result.2 := by
  have suggests : ∀ text ∈ (reader.classes.readTemplate reader.scope tag.content).fixed,
      reader.classes.Suggests reader.scope tag.content text := fun _ isFixed => Or.inr isFixed
  unfold Reader.bindTemplate
  generalize reader.classes.readTemplate reader.scope tag.content = read at suggests
  obtain ⟨bound, name, remainder, fixed, failures⟩ := read
  dsimp only at suggests ⊢
  have plain : ∀ {code : Code} (what : String), code ∈ templateCodes →
      TagVerdicts templateCodes tag [Subject.template.finding code tag what] :=
      fun what listed => .plain _ listed what
  have styleListed : Subject.template.style ∈ templateCodes := by decide
  cases name with
  | none =>
    refine completes_pure ?_
    exact plain _ (by decide)
  | some name =>
    cases bound with
    | none =>
      refine completes_pure ?_
      exact plain _ (by decide)
    | some bound =>
      exact (completes_styleFindings .template styleListed isTag suggests).bind fun _ found =>
        completes_pure found.1

theorem completes_propertyTag : Completes (reader.propertyTag tag) (TagVerdicts propertyCodes tag) := by
  have suggests := suggests_documented tag reader .typeAndName
  simp only [Reader.propertyTag]
  split
  · exact completes_pure (.plain _ (by decide) _)
  · split
    · exact completes_pure (.plain _ (by decide) _)
    · exact (completes_styleFindings .property (by decide) isTag suggests).imp fun _ found => found.1

theorem completes_typeTag (subject : Subject) (mismatch : Code) (native : Option DocType) :
    Completes (reader.typeTag subject mismatch native tag)
      (TagVerdicts [subject.missing, mismatch, subject.style] tag) := by
  have suggests := suggests_documented tag reader .typeOnly
  simp only [Reader.typeTag]
  split
  · exact completes_pure (.plain _ (by simp) _)
  · split
    · exact (completes_styleFindings subject (by simp) isTag suggests).imp fun _ found => found.1
    · exact completes_pure (.plain _ (by simp) _)

theorem completes_paramTag (number : Nat) (signature : Option String) :
    Completes (reader.paramTag number signature tag) (TagVerdicts paramCodes tag) := by
  have suggests := suggests_documented tag reader .withPassMode
  have plain : ∀ {code : Code} (what : String), code ∈ paramCodes →
      TagVerdicts paramCodes tag [(Subject.param number).finding code tag what] :=
    fun what listed => .plain _ listed what
  have isStyle : (Subject.param number).style = .paramStyle := rfl
  have missingListed : (Subject.param number).missing ∈ paramCodes := List.mem_cons_self
  have styleListed : (Subject.param number).style ∈ paramCodes := by rw [isStyle]; decide
  unfold Reader.paramTag
  generalize reader.documented tag .withPassMode = read at suggests ⊢
  obtain ⟨type, passMode, name, remainder, fixed, failures⟩ := read
  dsimp only at suggests ⊢
  cases type with
  | none => exact completes_pure (plain _ missingListed)
  | some type =>
    cases name with
    | none => exact completes_pure (plain _ (by decide))
    | some name =>
      cases signature with
      | none => exact completes_pure .nil
      | some text =>
        dsimp only
        generalize reader.classes.readTypedName reader.scope text .withDefault true = native
        -- a verdict on the splat goes with any on the type
        have withSplat : ∀ {onType : List Finding}, TagVerdicts paramCodes tag onType →
            (∀ finding ∈ onType, finding.code ≠ .paramSplatMismatch) → TagVerdicts paramCodes tag (onType ++
              if native.passMode.splat = passMode.splat then []
              else [(Subject.param number).finding .paramSplatMismatch tag "splat mismatch"]) := by
          intro onType verdicts distinct
          split
          · simpa using verdicts
          · exact verdicts.append (plain _ (by decide)) (by simp [Subject.finding])
              (by simpa [Subject.finding] using distinct)
        split
        · exact completes_pure (plain _ (by decide))
        · split
          · refine (completes_styleFindings (.param number) styleListed isTag suggests).bind fun onType found => ?_
            refine completes_pure (withSplat found.1 fun finding member => ?_)
            rw [found.2 finding member, isStyle]
            decide
          · exact completes_pure (withSplat (plain _ (by decide)) (by simp [Subject.finding]))

end Tags

/-- Verdicts on a comment with codes from a list. Those with a fix are on tags with names from a list. -/
structure CommentVerdicts (codes : List Code) (names : List String) (doc : DocComment) (found : List Finding) :
    Prop where
  listed : ∀ finding ∈ found, finding.code ∈ codes
  placed : ∀ finding ∈ found, finding.offset = doc.offset ∨ ∃ tag ∈ doc.tags, finding.offset = tag.offset
  fixed : ∀ finding ∈ found, finding.fix = none ∨ ∃ tag ∈ doc.tags, tag.name ∈ names ∧ finding.OnTag tag
  apart : found.Pairwise Finding.Apart

namespace CommentVerdicts

variable {codes otherCodes : List Code} {names otherNames : List String} {doc : DocComment}
  {found others : List Finding}

theorem nil : CommentVerdicts codes names doc [] :=
  ⟨by simp, by simp, by simp, .nil⟩

theorem single {finding : Finding} (listed : finding.code ∈ codes)
    (placed : finding.offset = doc.offset ∨ ∃ tag ∈ doc.tags, finding.offset = tag.offset)
    (noFix : finding.fix = none) :
    CommentVerdicts codes names doc [finding] :=
  ⟨by simpa using listed, by simpa using placed, by simp [noFix], List.pairwise_singleton ..⟩

/-- Checks with other codes of tags with other names. -/
theorem append (verdicts : CommentVerdicts codes names doc found)
    (verdictsOthers : CommentVerdicts otherCodes otherNames doc others)
    (distinct : (doc.tags.map DocTag.offset).Nodup) (codesApart : codes.Disjoint otherCodes)
    (namesApart : names.Disjoint otherNames) :
    CommentVerdicts (codes ++ otherCodes) (names ++ otherNames) doc (found ++ others) := by
  constructor
  case listed =>
    intro finding member
    rcases List.mem_append.mp member with isFound | isOther
    · exact List.mem_append_left _ (verdicts.listed finding isFound)
    · exact List.mem_append_right _ (verdictsOthers.listed finding isOther)
  case placed =>
    intro finding member
    exact (List.mem_append.mp member).elim (verdicts.placed finding) (verdictsOthers.placed finding)
  case fixed =>
    intro finding member
    rcases List.mem_append.mp member with isFound | isOther
    · refine (verdicts.fixed finding isFound).imp_right ?_
      rintro ⟨tag, isTag, named, onTag⟩
      exact ⟨tag, isTag, List.mem_append_left _ named, onTag⟩
    · refine (verdictsOthers.fixed finding isOther).imp_right ?_
      rintro ⟨tag, isTag, named, onTag⟩
      exact ⟨tag, isTag, List.mem_append_right _ named, onTag⟩
  case apart =>
    refine List.pairwise_append.mpr ⟨verdicts.apart, verdictsOthers.apart, ?_⟩
    refine fun finding isFound other isOther => ⟨?_, ?_⟩
    · intro sameCode
      exact absurd (sameCode ▸ verdictsOthers.listed other isOther) (codesApart (verdicts.listed finding isFound))
    · -- two fixes at one place would be on one tag
      intro samePlace
      rcases verdicts.fixed finding isFound with noFix | ⟨tag, isTag, named, onTag⟩
      · exact Or.inl noFix
      · rcases verdictsOthers.fixed other isOther with noFix | ⟨second, isSecond, namedSecond, onSecond⟩
        · exact Or.inr noFix
        · have same : tag.offset = second.offset := by rw [← onTag.offset, samePlace, onSecond.offset]
          obtain rfl := List.inj_on_of_nodup_map distinct isTag isSecond same
          exact absurd namedSecond (namesApart named)

/-- Every verdict comes from the check of a tag. -/
theorem exists_tag {tags : List DocTag} {founds : List (List Finding)}
    (verdicts : List.Forall₂ (TagVerdicts codes) tags founds) {finding : Finding}
    (member : finding ∈ founds.flatten) :
    ∃ tag ∈ tags, finding.code ∈ codes ∧ finding.OnTag tag := by
  induction verdicts with
  | nil => simp at member
  | @cons tag found _ _ first _ ih =>
    rcases List.mem_append.mp member with isFound | isOther
    · exact ⟨tag, List.mem_cons_self, first.listed finding isFound, first.onTag finding isFound⟩
    · obtain ⟨second, isSecond, rest⟩ := ih isOther
      exact ⟨second, List.mem_cons_of_mem _ isSecond, rest⟩

/-- Checks of one kind, each of a tag of its own. -/
theorem flatten {tags : List DocTag} {founds : List (List Finding)}
    (verdicts : List.Forall₂ (TagVerdicts codes) tags founds) (isTag : ∀ tag ∈ tags, tag ∈ doc.tags)
    (named : ∀ tag ∈ tags, tag.name ∈ names) (distinct : (tags.map DocTag.offset).Nodup) :
    CommentVerdicts codes names doc founds.flatten := by
  constructor
  case listed =>
    intro finding member
    obtain ⟨_, _, listed, _⟩ := exists_tag verdicts member
    exact listed
  case placed =>
    intro finding member
    obtain ⟨tag, ofTags, _, onTag⟩ := exists_tag verdicts member
    exact Or.inr ⟨tag, isTag tag ofTags, onTag.offset⟩
  case fixed =>
    intro finding member
    obtain ⟨tag, ofTags, _, onTag⟩ := exists_tag verdicts member
    exact Or.inr ⟨tag, isTag tag ofTags, named tag ofTags, onTag⟩
  case apart =>
    clear isTag named
    induction verdicts with
    | nil => exact .nil
    | @cons tag found tags founds first others ih =>
      rw [List.map_cons, List.nodup_cons] at distinct
      refine List.pairwise_append.mpr ⟨?_, ih distinct.2, fun finding isFound other isOther => ?_⟩
      · exact first.apart.imp fun apart => ⟨fun sameCode => absurd sameCode apart.1, fun _ => apart.2⟩
      · obtain ⟨second, isSecond, _, onSecond⟩ := exists_tag others isOther
        have elsewhere : finding.offset ≠ other.offset := by
          rw [(first.onTag finding isFound).offset, onSecond.offset]
          exact fun same => distinct.1 (same ▸ List.mem_map_of_mem isSecond)
        exact ⟨fun _ => elsewhere, fun samePlace => absurd samePlace elsewhere⟩

end CommentVerdicts

section Comments

variable {raw : List Char} {offset : Nat}

theorem distinct_offsets : ((DocComment.parse raw offset).tags.map DocTag.offset).Nodup :=
  (DocComment.ascending_offsets raw offset).imp Nat.ne_of_lt

theorem mem_named {doc : DocComment} {name : String} {tag : DocTag} :
    tag ∈ doc.named name ↔ tag ∈ doc.tags ∧ tag.name = name := by
  simp [DocComment.named]

/-- The tags of different names are all at different places. -/
theorem distinct_named {names : List String} (distinct : names.Nodup) :
    ((names.flatMap (DocComment.parse raw offset).named).map DocTag.offset).Nodup := by
  have isTag : ∀ tag ∈ names.flatMap (DocComment.parse raw offset).named,
      tag ∈ (DocComment.parse raw offset).tags := by
    intro tag member
    obtain ⟨name, _, ofName⟩ := List.mem_flatMap.mp member
    exact (mem_named.mp ofName).1
  refine List.Nodup.map_on (fun tag member second memberSecond same => ?_) (List.nodup_flatMap.mpr ⟨?_, ?_⟩)
  · exact List.inj_on_of_nodup_map distinct_offsets (isTag tag member) (isTag second memberSecond) same
  · exact fun name _ => (List.Nodup.of_map _ distinct_offsets).filter _
  · refine distinct.imp fun different tag ofFirst ofSecond => different ?_
    rw [← (mem_named.mp ofFirst).2, (mem_named.mp ofSecond).2]

/-- The checks of the tags of some names. -/
theorem verdicts_named {codes : List Code} {names : List String} {founds : List (List Finding)}
    (distinct : names.Nodup)
    (verdicts : List.Forall₂ (TagVerdicts codes) (names.flatMap (DocComment.parse raw offset).named) founds) :
    CommentVerdicts codes names (DocComment.parse raw offset) founds.flatten := by
  refine .flatten verdicts (fun tag member => ?_) (fun tag member => ?_) (distinct_named distinct)
  · obtain ⟨name, _, ofName⟩ := List.mem_flatMap.mp member
    exact (mem_named.mp ofName).1
  · obtain ⟨name, isName, ofName⟩ := List.mem_flatMap.mp member
    rwa [(mem_named.mp ofName).2]

theorem completes_bindTemplates (reader : Reader) {tags : List DocTag}
    (isTag : ∀ tag ∈ tags, tag ∈ (DocComment.parse raw offset).tags) :
    Completes (reader.bindTemplates tags) fun result =>
      ∃ founds, result.2 = founds.flatten ∧ List.Forall₂ (TagVerdicts templateCodes) tags founds := by
  induction tags generalizing reader with
  | nil => exact ⟨_, rfl, [], rfl, .nil⟩
  | cons tag tags ih =>
    obtain ⟨isFirst, isOthers⟩ := List.forall_mem_cons.mp isTag
    refine (completes_bindTemplate reader isFirst).bind ?_
    rintro ⟨bound, found⟩ first
    refine (ih bound isOthers).bind ?_
    rintro ⟨boundAll, more⟩ ⟨founds, rfl, others⟩
    exact ⟨_, rfl, found :: founds, rfl, .cons first others⟩

theorem completes_paramTagsFrom (reader : Reader) (number : Nat) (signatures : List String) {tags : List DocTag}
    (isTag : ∀ tag ∈ tags, tag ∈ (DocComment.parse raw offset).tags) :
    Completes (reader.paramTagsFrom number signatures tags) fun found =>
      ∃ founds, found = founds.flatten ∧ List.Forall₂ (TagVerdicts paramCodes) tags founds := by
  induction tags generalizing number signatures with
  | nil => cases signatures <;> exact ⟨_, rfl, [], rfl, .nil⟩
  | cons tag tags ih =>
    obtain ⟨isFirst, isOthers⟩ := List.forall_mem_cons.mp isTag
    cases signatures with
    | nil =>
      refine (completes_paramTag reader isFirst number none).bind fun found first => ?_
      refine (ih (number + 1) [] isOthers).bind ?_
      rintro _ ⟨founds, rfl, others⟩
      exact completes_pure ⟨found :: founds, rfl, .cons first others⟩
    | cons signature signatures =>
      refine (completes_paramTag reader isFirst number (some signature)).bind fun found first => ?_
      refine (ih (number + 1) signatures isOthers).bind ?_
      rintro _ ⟨founds, rfl, others⟩
      exact completes_pure ⟨found :: founds, rfl, .cons first others⟩

section Kinds

variable (reader : Reader)

theorem completes_templates :
    Completes (reader.bindTemplates ((DocComment.parse raw offset).named "@template")) fun result =>
      CommentVerdicts templateCodes ["@template"] (DocComment.parse raw offset) result.2 := by
  refine (completes_bindTemplates reader fun tag member => (mem_named.mp member).1).imp ?_
  rintro result ⟨founds, isFound, verdicts⟩
  rw [isFound]
  exact verdicts_named (List.nodup_singleton _) (by simpa using verdicts)

theorem completes_propertyTags :
    Completes (reader.propertyTags (DocComment.parse raw offset))
      (CommentVerdicts propertyCodes ["@property", "@property-read", "@property-write"]
        (DocComment.parse raw offset)) := by
  refine Completes.bind (completes_mapM fun tag member => ?_) fun founds verdicts =>
    completes_pure (verdicts_named (by decide) verdicts)
  obtain ⟨name, _, ofName⟩ := List.mem_flatMap.mp member
  exact completes_propertyTag reader (mem_named.mp ofName).1

theorem completes_paramTags (signatures : List String) :
    Completes (reader.paramTags (DocComment.parse raw offset) signatures)
      (CommentVerdicts (.paramCount :: paramCodes) ["@param"] (DocComment.parse raw offset)) := by
  refine (completes_paramTagsFrom reader 1 signatures fun tag member => (mem_named.mp member).1).bind ?_
  rintro _ ⟨founds, rfl, verdicts⟩
  have onTags : CommentVerdicts paramCodes ["@param"] (DocComment.parse raw offset) founds.flatten :=
    verdicts_named (List.nodup_singleton _) (by simpa using verdicts)
  have onCount : ∀ message : String, CommentVerdicts [.paramCount] [] (DocComment.parse raw offset)
      (if ((DocComment.parse raw offset).named "@param").length = signatures.length then []
      else [⟨.paramCount, (DocComment.parse raw offset).offset, message, none⟩]) := by
    intro message
    split
    · exact .nil
    · exact .single (List.mem_singleton_self _) (Or.inl rfl) rfl
  exact completes_pure ((onCount _).append onTags distinct_offsets (by simp) (by simp))

def typeCodes (subject : Subject) (mismatch : Code) : List Code :=
  [subject.missing, mismatch, subject.style]

/-- Tags of one name that hold just a type. -/
theorem completes_typeTags (subject : Subject) (mismatch : Code) (native : Option DocType) (name : String) :
    Completes (((DocComment.parse raw offset).named name).mapM (reader.typeTag subject mismatch native))
      fun founds =>
      CommentVerdicts (typeCodes subject mismatch) [name] (DocComment.parse raw offset) founds.flatten := by
  refine (completes_mapM fun tag member => ?_).imp fun founds verdicts =>
    verdicts_named (List.nodup_singleton _) (by simpa using verdicts)
  exact completes_typeTag reader (mem_named.mp member).1 subject mismatch native

theorem completes_returnTags (hint : Option String) :
    Completes (reader.returnTags (DocComment.parse raw offset) hint)
      (CommentVerdicts (.returnMultiple :: typeCodes .result .returnTypeMismatch) ["@return"]
        (DocComment.parse raw offset)) := by
  refine (completes_typeTags reader .result .returnTypeMismatch (reader.native hint) "@return").bind ?_
  intro founds onTags
  have codesApart : [Code.returnMultiple].Disjoint (typeCodes .result .returnTypeMismatch) := by
    simp [typeCodes, Subject.result]
  have namesApart : ([] : List String).Disjoint ["@return"] := by simp
  refine completes_pure (CommentVerdicts.append ?_ onTags distinct_offsets codesApart namesApart)
  have isTag : ∀ tag ∈ (DocComment.parse raw offset).named "@return", tag ∈ (DocComment.parse raw offset).tags :=
    fun tag member => (mem_named.mp member).1
  split
  next first second others isNamed =>
    exact .single (List.mem_singleton_self _) (Or.inr ⟨second, isTag second (by simp [isNamed]), rfl⟩) rfl
  next => exact .nil

theorem completes_varTags (hint : Option String) :
    Completes (reader.varTags (DocComment.parse raw offset) hint)
      (CommentVerdicts (typeCodes .var .varTypeMismatch) ["@var"] (DocComment.parse raw offset)) :=
  (completes_typeTags reader .var .varTypeMismatch (reader.native hint) "@var").bind fun _ onTags =>
    completes_pure onTags

end Kinds

end Comments

end Check

end DocTypes
