import DocTypes.Proofs.Relexing

namespace DocTypes

namespace Grammar

open Token (scanFrom)

/-- Two cursors with the same text ahead. -/
def Abreast (c again : Cursor) : Prop :=
  ∃ (before now behind : List Char) (tokens : List Token) (ending : Ending),
    c.text = before ++ behind ∧ c.ahead = tokens.map (Token.shift (Text.byteSize before)) ∧
      c.ending = ending.shift (Text.byteSize before) ∧
    again.text = now ++ behind ∧ again.ahead = tokens.map (Token.shift (Text.byteSize now)) ∧
      again.ending = ending.shift (Text.byteSize now)

namespace Abreast

variable {c again : Cursor}

theorem texts (abreast : Abreast c again) : again.texts = c.texts := by
  obtain ⟨_, _, _, tokens, _, _, ahead, _, _, aheadAgain, _⟩ := abreast
  simp only [Cursor.texts, ahead, aheadAgain, List.map_map]
  rfl

theorem peek (abreast : Abreast c again) (n : Nat) : again.peek n = c.peek n := by
  rw [Cursor.peek_eq, Cursor.peek_eq, abreast.texts]

theorem advance (abreast : Abreast c again) : Abreast c.advance again.advance := by
  obtain ⟨before, now, behind, tokens, ending, text, ahead, atEnd, textAgain, aheadAgain, atEndAgain⟩ := abreast
  refine ⟨before, now, behind, tokens.tail, ending, text, ?_, atEnd, textAgain, ?_, atEndAgain⟩
  · rw [Cursor.advance, ahead, List.map_tail]
  · rw [Cursor.advance, aheadAgain, List.map_tail]

theorem atFieldEnd (abreast : Abreast c again) : again.atFieldEnd = c.atFieldEnd := by
  obtain ⟨_, _, _, tokens, _, _, ahead, _, _, aheadAgain, _⟩ := abreast
  rw [Cursor.atFieldEnd, Cursor.atFieldEnd, ahead, aheadAgain]
  cases tokens <;> rfl

theorem restFrom (abreast : Abreast c again) (n : Nat) : again.restFrom n = c.restFrom n := by
  obtain ⟨before, now, behind, tokens, ending, text, ahead, atEnd, textAgain, aheadAgain, atEndAgain⟩ := abreast
  -- the same byte of the text ahead, counted from where that text starts
  have placed : ∃ place, (c.spanAt n).1 = Text.byteSize before + place ∧
      (again.spanAt n).1 = Text.byteSize now + place := by
    simp only [Cursor.spanAt, ahead, aheadAgain, atEnd, atEndAgain, List.getElem?_map, List.length_map]
    cases tokens[n]? with
    | some token => exact ⟨token.start, rfl, rfl⟩
    | none =>
      by_cases atLast : n = tokens.length
      · exact ⟨ending.start, by simp [atLast, Ending.shift], by simp [atLast, Ending.shift]⟩
      · exact ⟨ending.stop, by simp [atLast, Ending.shift], by simp [atLast, Ending.shift]⟩
  obtain ⟨place, atPlace, atPlaceAgain⟩ := placed
  rw [Cursor.restFrom, Cursor.restFrom, atPlace, atPlaceAgain, text, textAgain, Text.dropBytes_add,
    Text.dropBytes_add]

theorem remainder (abreast : Abreast c again) : Grammar.remainder again = Grammar.remainder c := by
  rw [Grammar.remainder, Grammar.remainder, abreast.restFrom]

theorem nullDefault (abreast : Abreast c again) : Grammar.nullDefault again = Grammar.nullDefault c := by
  simp only [Grammar.nullDefault, abreast.peek, abreast.restFrom]

/-- A marker is found by both or by none. -/
theorem eat (abreast : Abreast c again) (asked : Bool) (mark : String) :
    (if asked then again.eat mark else (false, again)).1 = (if asked then c.eat mark else (false, c)).1 ∧
      Abreast (if asked then c.eat mark else (false, c)).2
      (if asked then again.eat mark else (false, again)).2 := by
  cases asked with
  | false => exact ⟨rfl, abreast⟩
  | true =>
    simp only [if_true, Cursor.eat, abreast.peek]
    split
    · exact ⟨rfl, abreast.advance⟩
    · exact ⟨rfl, abreast⟩

/-- A name is found by both or by none. -/
theorem attempt_variableName (abreast : Abreast c again) (asked : Bool) (extent : Extent) :
    (if asked then attempt .name (variableName extent) again else (none, again, [])).1 =
        (if asked then attempt .name (variableName extent) c else (none, c, [])).1 ∧
      Abreast (if asked then attempt .name (variableName extent) c else (none, c, [])).2.1
        (if asked then attempt .name (variableName extent) again else (none, again, [])).2.1 ∧
      (if asked then attempt .name (variableName extent) again else (none, again, [])).2.2 =
        (if asked then attempt .name (variableName extent) c else (none, c, [])).2.2 := by
  cases asked with
  | false => exact ⟨rfl, abreast, rfl⟩
  | true =>
    simp only [if_true, variableName_eq, attempt_fieldName, abreast.peek, abreast.advance.peek,
      abreast.advance.atFieldEnd]
    split
    · split
      · exact ⟨rfl, abreast.advance, rfl⟩
      · exact ⟨rfl, abreast, rfl⟩
    · exact ⟨rfl, abreast, rfl⟩

end Abreast

/-- The end of a field may follow a type. -/
theorem following_refl {scope : Scope} {c : Cursor} (atEnd : c.atFieldEnd) : Following scope c.ahead c.texts := by
  refine ⟨?_, ⟨?_, ?_⟩, ?_⟩
  · exact List.forall₂_map_right_iff.mpr (List.forall₂_same.mpr fun _ _ => Or.inl rfl)
  · intro token isNext
    rw [Cursor.atFieldEnd] at atEnd
    match ahead : c.ahead with
    | [] => simp [ahead] at isNext
    | next :: more =>
      simp only [ahead, Bool.or_eq_true, List.contains_iff_mem] at atEnd
      obtain rfl : next = token := by simpa [ahead] using isNext
      rcases atEnd with isMark | spaced
      · have apart : ∀ mark ∈ [",", ";", ":", "."], mark.toList.head? ∉ [some '-', some '\\'] := by decide
        exact Or.inr (apart _ isMark)
      · exact Or.inl spaced
  · simp [Cursor.texts]
  · intro _
    simp [Cursor.texts]

/-- Tokens with the spelling they have. -/
def kept (tokens : List Token) : List (Token × String) :=
  tokens.map fun token => (token, token.text)

theorem map_snd_kept (tokens : List Token) : (kept tokens).map Prod.snd = tokens.map Token.text := by
  simp [kept, Function.comp_def]

theorem clear_kept (tokens rest : List Token) (now : List String) : Clear (kept tokens) rest now := by
  induction tokens with
  | nil => trivial
  | cons token tokens ih => exact ⟨fun changed => absurd rfl changed, ih⟩

/-- Skipped tokens are kept as they are. -/
theorem spent_skip (scope : Scope) (c : Cursor) (n : Nat) : Spent scope c (c.skip n) (kept (c.ahead.take n)) := by
  refine ⟨rfl, rfl, ?_, ?_, ?_⟩
  · simp [kept, Function.comp_def, Cursor.skip]
  · have none : (kept (c.ahead.take n)).filterMap correction? = [] := by
      refine List.filterMap_eq_nil_iff.mpr fun pair member => ?_
      obtain ⟨token, _, rfl⟩ := List.mem_map.mp member
      simp [correction?]
    rw [none, List.append_nil]
    rfl
  · intro pair member
    obtain ⟨token, _, rfl⟩ := List.mem_map.mp member
    exact Or.inl rfl

/-- A text with corrections noted is fixed by making them. -/
theorem toList_fixed {c : Cursor} {fixed : String} (isFixed : c.fixed? = some fixed) :
    fixed.toList =
      c.corrections.foldr (fun fix text => Text.splice fix.pos fix.len fix.replacement.toList text) c.text := by
  unfold Cursor.fixed? at isFixed
  split at isFixed
  · simp at isFixed
  · rw [← Option.some.inj isFixed, String.toList_ofList]

/-- Tokens in their right spelling, with blanks where they were. -/
abbrev Redone (scope : Scope) : List Token → List Token → Prop :=
  List.Forall₂ fun token again => Respelled scope token.text again.text ∧ again.spaced = token.spaced

section Fixed

variable {scope : Scope} {text fixed : String} {after : Cursor} {used : List (Token × String)}

theorem redone_taken {taken : List Token}
    (outline : taken.map (fun token => (token.text, token.spaced)) = used.map fun pair => (pair.2, pair.1.spaced))
    (spelled : ∀ pair ∈ used, Respelled scope pair.1.text pair.2) : Redone scope (used.map Prod.fst) taken := by
  induction used generalizing taken with
  | nil =>
    rw [List.map_eq_nil_iff.mp outline]
    exact .nil
  | cons pair used ih =>
    obtain ⟨respelled, spelled⟩ := List.forall_mem_cons.mp spelled
    obtain ⟨token, others, rfl, isFirst, isOthers⟩ := List.map_eq_cons_iff.mp outline
    obtain ⟨text, spaced⟩ := Prod.mk.inj isFirst
    exact .cons ⟨text ▸ respelled, spaced⟩ (ih isOthers spelled)

/-- The fixed text has the tokens of the text in their right spelling, and behind those that were read the
same text. -/
theorem fixed_tokens (spent : Spent scope (Cursor.ofText text.toList) after used)
    (clear : Clear used after.ahead after.texts) (isFixed : after.fixed? = some fixed)
    (asMany : (Token.scan fixed.toList).tokens.length = (Token.scan text.toList).tokens.length) :
    Abreast after ((Cursor.ofText fixed.toList).skip used.length) ∧
      (Cursor.ofText fixed.toList).texts = used.map Prod.snd ++ after.texts ∧
      Redone scope (Cursor.ofText text.toList).ahead (Cursor.ofText fixed.toList).ahead := by
  have scanned : scanFrom 0 false text.toList = ⟨used.map Prod.fst ++ after.ahead, after.ending⟩ := by
    rw [← spent.ahead, spent.ending]
    rfl
  have isRespelled : fixed.toList = respell used text.toList := by
    have spliced := foldr_splice [] scanned
    rw [toList_fixed isFixed, spent.corrections, spent.text]
    exact spliced
  have whole : used.length + after.ahead.length ≤ (scanFrom 0 false (respell used text.toList)).tokens.length := by
    have length := congrArg (fun stream => stream.tokens.length) scanned
    simp only [List.length_append, List.length_map] at length
    rw [← length, ← isRespelled]
    exact asMany.ge
  obtain ⟨before, now, behind, gap, taken, split, splitAgain, following, outline, scannedAgain⟩ :=
    (relex scanned spent.spelled clear 0).2 whole
  rw [← isRespelled] at splitAgain scannedAgain
  have counted : taken.length = used.length := by simpa using congrArg List.length outline
  -- both texts go on with what is found at the start of `behind`
  have shifted := Token.scanFrom_shift (Text.byteSize before) 0 gap behind
  have shiftedAgain := Token.scanFrom_shift (Text.byteSize now) 0 gap behind
  rw [Nat.add_zero] at shifted shiftedAgain
  rw [Nat.zero_add] at following scannedAgain
  have ahead : after.ahead = (scanFrom 0 gap behind).tokens.map (Token.shift (Text.byteSize before)) :=
    congrArg TokenStream.tokens (following.symm.trans shifted)
  have ending : after.ending = (scanFrom 0 gap behind).ending.shift (Text.byteSize before) :=
    congrArg TokenStream.ending (following.symm.trans shifted)
  rw [shiftedAgain] at scannedAgain
  have aheadAgain : (Cursor.ofText fixed.toList).ahead =
      taken ++ (scanFrom 0 gap behind).tokens.map (Token.shift (Text.byteSize now)) :=
    congrArg TokenStream.tokens scannedAgain
  have endingAgain : (Cursor.ofText fixed.toList).ending =
      (scanFrom 0 gap behind).ending.shift (Text.byteSize now) :=
    congrArg TokenStream.ending scannedAgain
  refine ⟨⟨before, now, behind, (scanFrom 0 gap behind).tokens, (scanFrom 0 gap behind).ending,
    spent.text.trans split, ahead, ending, splitAgain, ?_, endingAgain⟩, ?_, ?_⟩
  · rw [Cursor.skip, aheadAgain, ← counted, List.drop_left]
  · have texts : taken.map Token.text = used.map Prod.snd := by
      simpa [Function.comp_def] using congrArg (List.map Prod.fst) outline
    rw [Cursor.texts, Cursor.texts, aheadAgain, ahead, List.map_append, texts, List.map_map, List.map_map]
    rfl
  · rw [spent.ahead, aheadAgain, ahead]
    refine List.rel_append (redone_taken outline spent.spelled) ?_
    rw [List.forall₂_map_left_iff, List.forall₂_map_right_iff]
    exact List.forall₂_same.mpr fun token _ => ⟨Or.inl rfl, rfl⟩

end Fixed

/-- A field ends before a token in its right spelling if it ends before the token. -/
theorem atFieldEnd_redone {scope : Scope} {c again : Cursor} (redone : Redone scope c.ahead again.ahead) :
    again.atFieldEnd = c.atFieldEnd := by
  rw [Cursor.atFieldEnd, Cursor.atFieldEnd]
  generalize c.ahead = tokens at redone
  generalize again.ahead = now at redone
  cases redone with
  | nil => rfl
  | cons next _ =>
    obtain ⟨respelled, spaced⟩ := next
    dsimp only
    rw [spaced, Bool.eq_iff_iff]
    have comma : _ = "," ↔ _ := respelled.mark (by decide)
    have semicolon : _ = ";" ↔ _ := respelled.mark (by decide)
    have colon : _ = ":" ↔ _ := respelled.mark (by decide)
    have point : _ = "." ↔ _ := respelled.mark (by decide)
    simp only [Bool.or_eq_true, List.contains_iff_mem, List.mem_cons, List.not_mem_nil, or_false, comma, semicolon,
      colon, point]

/-- A type behind some tokens is read alike from the fixed text. -/
theorem reread_delimitedType {ctx : Context} (keeps : ctx.scope.KeepsWords) {text fixed : String} {n : Nat}
    {found : DocType} {after : Cursor}
    (reads : Reads (delimitedType ctx) ((Cursor.ofText text.toList).skip n) found after)
    (enough : n ≤ (Cursor.ofText text.toList).ahead.length) (isFixed : after.fixed? = some fixed)
    (asMany : (Token.scan fixed.toList).tokens.length = (Token.scan text.toList).tokens.length) :
    ∃ afterAgain, Reads (delimitedType ctx) ((Cursor.ofText fixed.toList).skip n) found afterAgain ∧
      afterAgain.fixed? = none ∧ Abreast after afterAgain ∧
      (Cursor.ofText fixed.toList).texts.take n = (Cursor.ofText text.toList).texts.take n ∧
      Redone ctx.scope (Cursor.ofText text.toList).ahead (Cursor.ofText fixed.toList).ahead := by
  obtain ⟨readsType, atEnd⟩ := reads_delimitedType.mp reads
  obtain ⟨used, spent, respelled⟩ := (level_rereads ctx ctx.limit).anyType false _ found after readsType
  obtain ⟨clear, _, run⟩ := respelled keeps _ (following_refl atEnd)
  obtain ⟨abreast, texts, redone⟩ := fixed_tokens ((spent_skip ctx.scope _ n).trans spent)
    (clear_append.mpr ⟨clear_kept _ _ _, clear⟩) isFixed asMany
  have keptLength : (kept ((Cursor.ofText text.toList).ahead.take n)).length = n := by
    rw [kept, List.length_map, List.length_take, Nat.min_eq_left enough]
  rw [List.length_append, keptLength, ← Cursor.skip_skip] at abreast
  rw [List.map_append, map_snd_kept, List.append_assoc] at texts
  refine ⟨_, reads_delimitedType.mpr ⟨run _ ?_, abreast.atFieldEnd.trans atEnd⟩, rfl, abreast, ?_, redone⟩
  · rw [Cursor.texts_skip, texts]
    exact List.drop_left' (by simpa [kept] using keptLength)
  · rw [texts, List.take_left' (by simpa [kept] using keptLength), Cursor.texts, List.map_take]

/-- What is read behind a type: the markers, the name, where the last field ends, and what failed. -/
def fieldsBehind (extent : Extent) (afterType : Cursor) : PassMode × Option String × Cursor × List Failure :=
  let (byReference, afterReference) :=
    if extent.includes .withPassMode then afterType.eat "&" else (false, afterType)
  let (splat, beforeName) :=
    if extent.includes .withPassMode then afterReference.eat "..." else (false, afterReference)
  let (name, afterName, failures) :=
    if extent.includes .typeAndName then attempt .name (variableName extent) beforeName else (none, beforeName, [])
  (⟨byReference, splat⟩, name, afterName, failures)

/-- Nothing is corrected behind a type. -/
theorem fixed_fieldsBehind (extent : Extent) (c : Cursor) : (fieldsBehind extent c).2.2.1.fixed? = c.fixed? := by
  have eaten : ∀ (asked : Bool) (mark : String) (c : Cursor),
      (if asked then c.eat mark else (false, c)).2.fixed? = c.fixed? := by
    intro asked mark c
    unfold Cursor.eat
    split
    · split <;> rfl
    · rfl
  have named : ∀ (asked : Bool) (c : Cursor),
      (if asked then attempt .name (variableName extent) c else (none, c, [])).2.1.fixed? = c.fixed? := by
    intro asked c
    rw [variableName_eq, attempt_fieldName]
    split
    · split
      · split <;> rfl
      · rfl
    · rfl
  exact (named _ _).trans ((eaten _ _ _).trans (eaten _ _ _))

/-- Where the texts go on alike, so do the fields. -/
theorem Abreast.fieldsBehind {c again : Cursor} (abreast : Abreast c again) (extent : Extent) :
    (Grammar.fieldsBehind extent again).1 = (Grammar.fieldsBehind extent c).1 ∧
      (Grammar.fieldsBehind extent again).2.1 = (Grammar.fieldsBehind extent c).2.1 ∧
      Abreast (Grammar.fieldsBehind extent c).2.2.1 (Grammar.fieldsBehind extent again).2.2.1 ∧
      (Grammar.fieldsBehind extent again).2.2.2 = (Grammar.fieldsBehind extent c).2.2.2 := by
  obtain ⟨byReference, abreastReference⟩ := abreast.eat (extent.includes .withPassMode) "&"
  obtain ⟨splat, abreastSplat⟩ := abreastReference.eat (extent.includes .withPassMode) "..."
  obtain ⟨name, abreastName, failures⟩ :=
    abreastSplat.attempt_variableName (extent.includes .typeAndName) extent
  exact ⟨congrArg₂ PassMode.mk byReference splat, name, abreastName, failures⟩

end Grammar

namespace ClassTable

open Grammar

section TypedName

variable {classes : ClassTable} {scope : Scope} {text fixed : String} {extent : Extent} {wide : Bool}

theorem readTypedName_eq {found : DocType} {after : Cursor}
    (reads : Reads (delimitedType { classes, scope, wide }) (Cursor.ofText text.toList) found after) :
    classes.readTypedName scope text extent wide =
      let (passMode, name, last, failures) := fieldsBehind extent after
      { type := if extent.includes .withDefault && name.isSome && nullDefault last then
          some (classes.withNull found) else some found
        passMode
        name
        remainder := Grammar.remainder last
        fixed := last.fixed?
        failures } := by
  simp only [readTypedName, attempt_of_reads .type reads]
  rfl

/-- What is fixed was noted while a type was read. -/
theorem readTypedName_fixed (isFixed : (classes.readTypedName scope text extent wide).fixed = some fixed) :
    ∃ found after, Reads (delimitedType { classes, scope, wide }) (Cursor.ofText text.toList) found after ∧
      after.fixed? = some fixed := by
  cases result : delimitedType { classes, scope, wide } (Cursor.ofText text.toList) with
  | error error =>
    simp only [readTypedName, attempt_of_error .type result] at isFixed
    exact absurd isFixed (by simp)
  | ok step =>
    obtain ⟨found, after⟩ := step
    refine ⟨found, after, result, ?_⟩
    rw [readTypedName_eq result] at isFixed
    exact (fixed_fieldsBehind extent after).symm.trans isFixed

/-- A fixed text gives the same type and name, with nothing left to fix. -/
theorem reread_typedName (keeps : scope.KeepsWords)
    (isFixed : (classes.readTypedName scope text extent wide).fixed = some fixed)
    (asMany : (Token.scan fixed.toList).tokens.length = (Token.scan text.toList).tokens.length) :
    classes.readTypedName scope fixed extent wide =
      { classes.readTypedName scope text extent wide with fixed := none } := by
  obtain ⟨found, after, reads, noted⟩ := readTypedName_fixed isFixed
  obtain ⟨afterAgain, readsAgain, done, abreast, _⟩ :=
    reread_delimitedType (n := 0) keeps reads (Nat.zero_le _) noted asMany
  obtain ⟨passMode, name, abreastLast, failures⟩ := abreast.fieldsBehind extent
  have doneLast := (fixed_fieldsBehind extent afterAgain).trans done
  simp only [readTypedName_eq reads, readTypedName_eq readsAgain, passMode, name, failures,
    abreastLast.nullDefault, abreastLast.remainder, doneLast]

end TypedName

section Template

variable {classes : ClassTable} {scope : Scope} {text fixed : String}

/-- Whether a bound follows. -/
def bounded (c : Cursor) : Bool :=
  c.peek 0 = some "of" || c.peek 0 = some "as"

theorem readTemplate_eq {name : Option String} {afterName after : Cursor} {failures : List Failure}
    {found : DocType}
    (named : attempt .templateName templateName (Cursor.ofText text.toList) = (name, afterName, failures))
    (isBounded : bounded afterName)
    (reads : Reads (delimitedType { classes, scope, wide := false }) afterName.advance found after) :
    classes.readTemplate scope text =
      { bound := some found
        name
        remainder := Grammar.remainder after
        fixed := after.fixed?
        failures } := by
  unfold bounded at isBounded
  simp only [readTemplate, named, isBounded, if_true, attempt_of_reads .templateBound reads, Option.bind_some,
    List.append_nil]

/-- What is fixed was noted while a bound was read. -/
theorem readTemplate_fixed {name : Option String} {afterName : Cursor} {failures : List Failure}
    (named : attempt .templateName templateName (Cursor.ofText text.toList) = (name, afterName, failures))
    (unfixed : afterName.fixed? = none) (isFixed : (classes.readTemplate scope text).fixed = some fixed) :
    bounded afterName ∧ ∃ found after,
      Reads (delimitedType { classes, scope, wide := false }) afterName.advance found after ∧
      after.fixed? = some fixed := by
  by_cases isBounded : bounded afterName
  · refine ⟨isBounded, ?_⟩
    cases result : delimitedType { classes, scope, wide := false } afterName.advance with
    | error error =>
      unfold bounded at isBounded
      simp only [readTemplate, named, isBounded, if_true, attempt_of_error .templateBound result] at isFixed
      exact absurd isFixed (by simp)
    | ok step =>
      obtain ⟨found, after⟩ := step
      rw [readTemplate_eq named isBounded result] at isFixed
      exact ⟨found, after, result, isFixed⟩
  · unfold bounded at isBounded
    simp [readTemplate, named, isBounded, unfixed] at isFixed

/-- Reading a template name depends on its token and on whether a field may end behind it. -/
theorem attempt_templateName (c : Cursor) :
    ∃ n name failures, ∀ again : Cursor, again.peek 0 = c.peek 0 →
      again.advance.atFieldEnd = c.advance.atFieldEnd →
      attempt .templateName templateName again = (name, again.skip n, failures) := by
  by_cases starts : (c.peek 0).any Token.startsName
  · by_cases atEnd : c.advance.atFieldEnd
    · refine ⟨1, (c.peek 0).getD "", [], fun again front ends => ?_⟩
      rw [templateName_eq, attempt_fieldName, front, if_pos starts, ends, if_pos atEnd, again.skip_one]
    · refine ⟨0, none, [⟨.templateName, .noSpaceAfterName⟩], fun again front ends => ?_⟩
      rw [templateName_eq, attempt_fieldName, front, if_pos starts, ends, if_neg atEnd, again.skip_zero]
  · refine ⟨0, none, [⟨.templateName, .expectedTemplateName ((c.peek 0).getD "")⟩], fun again front _ => ?_⟩
    rw [templateName_eq, attempt_fieldName, front, if_neg starts, again.skip_zero]

/-- A fixed text gives the same template parameter, with nothing left to fix. -/
theorem reread_template (keeps : scope.KeepsWords)
    (isFixed : (classes.readTemplate scope text).fixed = some fixed)
    (asMany : (Token.scan fixed.toList).tokens.length = (Token.scan text.toList).tokens.length) :
    classes.readTemplate scope fixed = { classes.readTemplate scope text with fixed := none } := by
  obtain ⟨n, name, failures, named⟩ := attempt_templateName (Cursor.ofText text.toList)
  obtain ⟨isBounded, found, after, reads, noted⟩ := readTemplate_fixed (named _ rfl rfl) rfl isFixed
  have next : ((Cursor.ofText text.toList).skip n).advance = (Cursor.ofText text.toList).skip (n + 1) := by
    rw [← Cursor.skip_one, Cursor.skip_skip]
  have enough : n + 1 ≤ (Cursor.ofText text.toList).ahead.length := by
    by_contra tooFew
    have none : ((Cursor.ofText text.toList).skip n).ahead = [] := List.drop_eq_nil_of_le (by omega)
    simp [bounded, Cursor.peek, none] at isBounded
  have readsNext := reads
  rw [next] at readsNext
  obtain ⟨afterAgain, readsAgain, done, abreast, before, redone⟩ :=
    reread_delimitedType keeps readsNext enough noted asMany
  have same : ∀ k ≤ n, (Cursor.ofText fixed.toList).peek k = (Cursor.ofText text.toList).peek k := by
    intro k atMost
    have nth := congrArg (fun texts => texts[k]?) before
    simp only [List.getElem?_take_of_lt (Nat.lt_succ_of_le atMost)] at nth
    rw [Cursor.peek_eq, Cursor.peek_eq, nth]
  have ends : (Cursor.ofText fixed.toList).advance.atFieldEnd = (Cursor.ofText text.toList).advance.atFieldEnd := by
    rw [← Cursor.skip_one, ← Cursor.skip_one]
    exact atFieldEnd_redone (List.forall₂_drop 1 redone)
  have boundedAgain : bounded ((Cursor.ofText fixed.toList).skip n) := by
    have front : ∀ c : Cursor, (c.skip n).peek 0 = c.peek n := by simp [Cursor.peek, Cursor.skip]
    rw [bounded, front, same n le_rfl, ← front]
    exact isBounded
  rw [← Cursor.skip_skip, Cursor.skip_one] at readsAgain
  rw [readTemplate_eq (named _ rfl rfl) isBounded reads,
    readTemplate_eq (named _ (same 0 (Nat.zero_le n)) ends) boundedAgain readsAgain, abreast.remainder, done]

end Template

/-- A fix changes nothing but spelling: where no two tokens are joined by it, the fixed text is read to the
same fields, and nothing is left to fix. -/
theorem fixed_text_reads_alike (classes : ClassTable) (scope : Scope) (keeps : scope.KeepsWords)
    (text fixed : String)
    (asMany : (Token.scan fixed.toList).tokens.length = (Token.scan text.toList).tokens.length) :
    (∀ extent wide, (classes.readTypedName scope text extent wide).fixed = some fixed →
      classes.readTypedName scope fixed extent wide =
        { classes.readTypedName scope text extent wide with fixed := none }) ∧
    ((classes.readTemplate scope text).fixed = some fixed →
      classes.readTemplate scope fixed = { classes.readTemplate scope text with fixed := none }) := by
  refine ⟨fun extent wide isFixed => ?_, fun isFixed => ?_⟩
  · exact reread_typedName keeps isFixed asMany
  · exact reread_template keeps isFixed asMany

theorem fixed_text_reads_alike_nested :
    Scope.root.KeepsWords ∧
      ((Token.scan "array<array-key, static|bool>|null ...$x = NULL".toList).tokens.length =
        (Token.scan "Array<array-key, $this|Boolean>|NULL ...$x = NULL".toList).tokens.length ∧
      (readTypedName .empty .root "Array<array-key, $this|Boolean>|NULL ...$x = NULL" .withDefault false).fixed =
        some "array<array-key, static|bool>|null ...$x = NULL" ∧
      readTypedName .empty .root "array<array-key, static|bool>|null ...$x = NULL" .withDefault false =
        { readTypedName .empty .root "Array<array-key, $this|Boolean>|NULL ...$x = NULL" .withDefault false with
          fixed := none }) ∧
      (Token.scan "of(int) all".toList).tokens.length = (Token.scan "of(INT) all".toList).tokens.length ∧
      (readTemplate .empty .root "of(INT) all").fixed = some "of(int) all" ∧
      readTemplate .empty .root "of(int) all" = { readTemplate .empty .root "of(INT) all" with fixed := none } := by
  have keeps : Scope.root.KeepsWords := by decide
  have asMany : (Token.scan "array<array-key, static|bool>|null ...$x = NULL".toList).tokens.length =
      (Token.scan "Array<array-key, $this|Boolean>|NULL ...$x = NULL".toList).tokens.length := by decide +kernel
  have isFixed : (readTypedName .empty .root "Array<array-key, $this|Boolean>|NULL ...$x = NULL" .withDefault
      false).fixed = some "array<array-key, static|bool>|null ...$x = NULL" := by decide +kernel
  have asManyBound : (Token.scan "of(int) all".toList).tokens.length =
      (Token.scan "of(INT) all".toList).tokens.length := by decide +kernel
  have isFixedBound : (readTemplate .empty .root "of(INT) all").fixed = some "of(int) all" := by decide +kernel
  exact ⟨keeps, ⟨asMany, isFixed, (fixed_text_reads_alike .empty .root keeps _ _ asMany).1 _ _ isFixed⟩,
    asManyBound, isFixedBound, (fixed_text_reads_alike .empty .root keeps _ _ asManyBound).2 isFixedBound⟩

/-- A `$this` right behind a word becomes part of the word. The fixed text then has no type, or another
bound. -/
theorem fixed_text_reads_otherwise :
    Scope.root.KeepsWords ∧
      (readTypedName .empty .root "($x is$this ? int : string)" .typeOnly false).fixed =
        some "($x isstatic ? int : string)" ∧
      (readTypedName .empty .root "($x is$this ? int : string)" .typeOnly false).type.isSome ∧
      (readTypedName .empty .root "($x isstatic ? int : string)" .typeOnly false).type = none ∧
      (readTemplate .empty .root "T of$this").fixed = some "T ofstatic" ∧
      (readTemplate .empty .root "T of$this").bound = some ⟨["static"]⟩ ∧
      (readTemplate .empty .root "T ofstatic").bound = some .mixed := by
  decide +kernel

end ClassTable

end DocTypes
