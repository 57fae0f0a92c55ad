import DocTypes.Proofs.EditedText
import DocTypes.Proofs.FixedLines
import DocTypes.Proofs.ScriptReadings

namespace DocTypes

namespace Edit

namespace Rewrites

variable {offset : Nat} {edits : List Edit} {cs now : List Char}

/-- Each edit ends before the next one starts. -/
theorem apart (rewrites : Rewrites offset edits cs now) :
    edits.Pairwise fun edit other => edit.stop ≤ other.offset := by
  induction rewrites with
  | done => exact .nil
  | replace _ _ _ _ _ more ih => exact List.pairwise_cons.mpr ⟨more.offset_le, ih⟩

/-- Made from the last to the first, each edit lies within the text and splits no character. -/
theorem foldrM_applyBefore (rewrites : Rewrites offset edits cs now) {before : List Char}
    (placed : Text.byteSize before = offset) :
    edits.foldrM (fun edit text => edit.applyBefore none text) (before ++ cs) = some (before ++ now) := by
  induction rewrites generalizing before with
  | done => rfl
  | @replace offset edit edits rest now gap old starts covers nonempty more ih =>
    have startAt : edit.offset = Text.byteSize (before ++ gap) := by
      rw [Text.byteSize_append]
      omega
    have stopAt : Text.byteSize (before ++ gap ++ old) = edit.stop := by
      rw [Text.byteSize_append, stop]
      omega
    have inner := ih stopAt
    have made : edit.applyBefore none (before ++ gap ++ (old ++ now)) = _ :=
      applyBefore_middle startAt covers rfl now
    simp only [List.append_assoc] at inner made ⊢
    rw [List.foldrM_cons, inner]
    exact made

end Rewrites

end Edit

/-- A correction as an edit of the text. -/
def Correction.edit (fix : Correction) : Edit :=
  ⟨fix.pos, fix.len, fix.replacement⟩

/-- Corrections of a text that cover tokens of it, one behind the other, and the text in which just these tokens are
replaced. -/
structure Correction.Faithful (text : List Char) (fixes : List Correction) (fixed : Option String) : Prop where
  ascending : fixes.Pairwise fun fix later => fix.pos < later.pos
  apart : fixes.Pairwise fun fix later => fix.pos + fix.len ≤ later.pos
  tokens : (fixes.map fun fix => (fix.pos, fix.pos + fix.len)).Sublist
    ((Token.scan text).tokens.map fun token => (token.start, token.stop))
  replacements : ∀ fix ∈ fixes, fix.replacement ≠ "" ∧ '\n' ∉ fix.replacement.toList
  made : ∃ now, Edit.Rewrites 0 (fixes.map Correction.edit) text now ∧
    (fixes.map Correction.edit).foldrM (fun edit text => edit.applyBefore none text) text = some now ∧
    fixed = if fixes = [] then none else some (String.ofList now)

namespace Token

/-- A token is cut off some text, and it is as long as its text. -/
theorem exists_tailLength {offset : Nat} {spaced : Bool} {cs : List Char} {token : Token}
    (isToken : token ∈ (scanFrom offset spaced cs).tokens) :
    token.stop = token.start + Text.byteSize token.text.toList ∧ ∃ first tail rest,
      token.text.toList = first :: tail ∧ tailLength first (tail ++ rest) = some tail.length := by
  generalize scanned : scanFrom offset spaced cs = stream at isToken
  obtain ⟨tokens, ending⟩ := stream
  induction tokens generalizing offset spaced cs with
  | nil => exact absurd isToken List.not_mem_nil
  | cons next tokens ih =>
    obtain ⟨blanks, first, tail, rest, cut, chars, isNext, others⟩ := cut_of_scanFrom scanned
    rcases List.mem_cons.mp isToken with rfl | later
    · refine ⟨?_, first, tail, rest, chars, cut.length⟩
      rw [chars, isNext]
      rfl
    · exact ih others later

end Token

namespace Grammar

open Token (scanFrom)

section Scanned

variable {scope : Scope} {used : List (Token × String)} {rest : List Token} {ending : Ending}

/-- In order the corrections replace tokens, and what is between them stays. -/
theorem rewrites_respell {before cs : List Char} {spaced : Bool}
    (scanned : scanFrom (Text.byteSize before) spaced cs = ⟨used.map Prod.fst ++ rest, ending⟩) :
    Edit.Rewrites (Text.byteSize before) ((used.filterMap correction?).map Correction.edit) cs
      (respell used cs) := by
  induction used generalizing before cs spaced with
  | nil => exact .done _ _
  | cons pair used ih =>
    obtain ⟨token, right⟩ := pair
    simp only [List.map_cons, List.cons_append] at scanned
    obtain ⟨blanks, first, tail, behindToken, cut, chars, isToken, others⟩ := Token.cut_of_scanFrom scanned
    have start : token.start = Text.byteSize (before ++ blanks) := by rw [isToken, Token.start_behind]
    have stop : token.stop = Text.byteSize (before ++ blanks ++ first :: tail) := by rw [isToken, Token.stop_behind]
    rw [stop] at others
    have inner := ih others
    rw [respell_cut cut chars, cut.split, ← List.cons_append]
    by_cases same : token.text = right
    · rw [List.filterMap_cons_none (by simp [correction?, same]), ← same, chars, ← List.append_assoc,
        ← List.append_assoc]
      refine Edit.Rewrites.prepend ?_
      rwa [← Text.byteSize_append, ← List.append_assoc]
    · have noted : correction? (token, right) = some ⟨token.start, Text.byteSize token.text.toList, right⟩ :=
        if_neg same
      rw [List.filterMap_cons_some noted, List.map_cons]
      refine .replace blanks (first :: tail) ?_ (congrArg Text.byteSize chars) (List.cons_ne_nil first tail) ?_
      · exact start.trans (Text.byteSize_append before blanks)
      · have stopAt : Text.byteSize (before ++ blanks ++ first :: tail) =
            token.start + Text.byteSize token.text.toList := by
          rw [Text.byteSize_append, start, chars]
        rw [stopAt] at inner
        exact inner

/-- A correction puts a keyword in the place of one whole token. -/
theorem correction?_cases {offset : Nat} {spaced : Bool} {cs : List Char}
    (scanned : scanFrom offset spaced cs = ⟨used.map Prod.fst ++ rest, ending⟩)
    (spelled : ∀ pair ∈ used, Respelled scope pair.1.text pair.2) {pair : Token × String} (isUsed : pair ∈ used)
    {fix : Correction} (noted : correction? pair = some fix) :
    (fix.pos, fix.pos + fix.len) = (pair.1.start, pair.1.stop) ∧ fix.replacement ∈ keywords := by
  have isToken : pair.1 ∈ (scanFrom offset spaced cs).tokens := by
    rw [scanned]
    exact List.mem_append_left _ (List.mem_map_of_mem isUsed)
  obtain ⟨stop, first, tail, others, chars, length⟩ := Token.exists_tailLength isToken
  unfold correction? at noted
  split at noted
  next => exact absurd noted (by simp)
  next changed =>
    cases Option.some.inj noted
    exact ⟨by rw [stop], (corrected_word chars length (spelled pair isUsed) (Ne.symm changed)).1⟩

/-- The corrections cover some of the tokens, each once and in their order. -/
theorem sublist_spans (covers : ∀ pair ∈ used, ∀ fix, correction? pair = some fix →
      (fix.pos, fix.pos + fix.len) = (pair.1.start, pair.1.stop)) :
    ((used.filterMap correction?).map fun fix => (fix.pos, fix.pos + fix.len)).Sublist
      ((used.map Prod.fst).map fun token => (token.start, token.stop)) := by
  induction used with
  | nil => exact .slnil
  | cons pair used ih =>
    have inner := ih fun other member => covers other (List.mem_cons_of_mem _ member)
    cases noted : correction? pair with
    | none =>
      rw [List.filterMap_cons_none noted]
      exact inner.cons _
    | some fix =>
      rw [List.filterMap_cons_some noted, List.map_cons, List.map_cons, List.map_cons,
        covers pair (List.mem_cons_self ..) fix noted]
      exact inner.cons_cons _

end Scanned

/-- What is noted while tokens are taken from the start of a text. -/
theorem Spent.faithful {scope : Scope} {text : String} {last : Cursor} {used : List (Token × String)}
    (spent : Spent scope (Cursor.ofText text.toList) last used) :
    Correction.Faithful text.toList last.corrections last.fixed? := by
  have scanned : scanFrom 0 false text.toList = ⟨used.map Prod.fst ++ last.ahead, last.ending⟩ := by
    rw [← spent.ahead, spent.ending]
    rfl
  have noted : last.corrections = used.filterMap correction? := spent.corrections
  have cases (pair : Token × String) (isUsed : pair ∈ used) (fix : Correction)
      (isFix : correction? pair = some fix) :=
    correction?_cases scanned spent.spelled isUsed isFix
  have rewrites : Edit.Rewrites 0 (last.corrections.map Correction.edit) text.toList
      (respell used text.toList) := by
    rw [noted]
    exact @rewrites_respell _ _ _ [] _ _ scanned
  have ascending := List.pairwise_map.mp rewrites.ascending
  have apart := List.pairwise_map.mp rewrites.apart
  have checked := rewrites.foldrM_applyBefore (show Text.byteSize [] = 0 from rfl)
  refine ⟨ascending, apart, ?_, fun fix isNoted => ?_, respell used text.toList, rewrites, checked, ?_⟩
  · rw [noted]
    refine (sublist_spans fun pair isUsed fix isFix => (cases pair isUsed fix isFix).1).trans ?_
    have tokens : (Token.scan text.toList).tokens = used.map Prod.fst ++ last.ahead :=
      congrArg TokenStream.tokens scanned
    rw [tokens, List.map_append]
    exact List.sublist_append_left ..
  · rw [noted, List.mem_filterMap] at isNoted
    obtain ⟨pair, isUsed, isFix⟩ := isNoted
    have isKeyword := (cases pair isUsed fix isFix).2
    refine ⟨?_, keyword_free isKeyword⟩
    intro empty
    rw [empty] at isKeyword
    exact absurd isKeyword (by decide)
  · have made : last.corrections.foldr (fun fix text => Text.splice fix.pos fix.len fix.replacement.toList text)
        last.text =
        respell used text.toList := by
      rw [noted, spent.text]
      exact foldr_splice [] scanned
    unfold Cursor.fixed?
    cases isNoted : last.corrections with
    | nil => rfl
    | cons fix fixes => rw [if_neg (List.cons_ne_nil fix fixes), ← made, isNoted]

/-- Behind a type the cursor only steps over tokens. -/
theorem exists_skip_fieldsBehind (extent : Extent) (c : Cursor) :
    ∃ n, (fieldsBehind extent c).2.2.1 = c.skip n := by
  have eaten (c : Cursor) (mark : String) : ∃ n, (c.eat mark).2 = c.skip n := by
    unfold Cursor.eat
    split
    · exact ⟨1, c.skip_one.symm⟩
    · exact ⟨0, c.skip_zero.symm⟩
  have marked : ∃ n, behindMarks extent c = c.skip n := by
    unfold behindMarks
    split
    · obtain ⟨first, atFirst⟩ := eaten c "&"
      obtain ⟨second, atSecond⟩ := eaten (c.eat "&").2 "..."
      exact ⟨first + second, by rw [atSecond, atFirst, Cursor.skip_skip]⟩
    · exact ⟨0, c.skip_zero.symm⟩
  obtain ⟨n, atName⟩ := marked
  rw [fieldsBehind_eq, atName]
  rcases attemptName_cases extent (c.skip n) with ⟨name, _, _, _, _, isName⟩ | ⟨failures, isNone⟩
  · exact ⟨n + 1, by rw [isName, ← Cursor.skip_one, Cursor.skip_skip]⟩
  · exact ⟨n, by rw [isNone]⟩

/-- A type that is read as a field goes on to where its run ends. If it fails, going back from there drops what was
noted on the way. -/
theorem attempt_rewinds (ctx : Context) (field : Field) (c : Cursor) :
    ∃ outcome after, EndsWith ctx (.anyType false) ⟨c, 0, 0⟩ outcome after ∧
      (attempt field (delimitedType ctx) c).2.1 =
        if (attempt field (delimitedType ctx) c).1.isSome then after.cursor else after.cursor.reset c.mark := by
  obtain ⟨outcome, after, runs, reads⟩ := agrees_call ctx 0 (.anyType false) ⟨c, 0, 0⟩ rfl
  refine ⟨outcome, after, runs.endsWith, ?_⟩
  cases result : delimitedType ctx c with
  | error error =>
    rw [attempt_of_error field result]
    exact runs.further.reset.symm
  | ok step =>
    have readsType : Reads (type ctx) c step.1 step.2 := (reads_delimitedType.mp result).1
    rw [attempt_of_reads field (show Reads _ c step.1 step.2 from result)]
    have same := reads.symm.trans readsType
    cases outcome with
    | error error => cases same
    | ok type => exact (Prod.mk.inj (Except.ok.inj same)).2.symm

/-- A type that is read as a field notes the spelling of the tokens that it takes, and none if it fails. -/
theorem exists_spent_attempt (ctx : Context) (field : Field) (c : Cursor) :
    ∃ used, Spent ctx.scope c (attempt field (delimitedType ctx) c).2.1 used ∧
      ((attempt field (delimitedType ctx) c).1 = none → used = []) := by
  cases result : delimitedType ctx c with
  | error error =>
    rw [attempt_of_error field result]
    exact ⟨[], Spent.refl ctx.scope c, fun _ => rfl⟩
  | ok step =>
    have readsType : Reads (type ctx) c step.1 step.2 := (reads_delimitedType.mp result).1
    obtain ⟨used, spent, _⟩ := (level_rereads ctx ctx.limit).anyType false c step.1 step.2 readsType
    rw [attempt_of_reads field (show Reads _ c step.1 step.2 from result)]
    exact ⟨used, spent, nofun⟩

/-- A type that is read as a field behind some tokens of a text, and some more tokens that are stepped over
behind it. -/
theorem faithful_attempt (ctx : Context) (field : Field) (text : String) (n k : Nat) :
    let typed := attempt field (delimitedType ctx) ((Cursor.ofText text.toList).skip n)
    let last := typed.2.1.skip k
    Correction.Faithful text.toList last.corrections (typed.1.bind fun _ => last.fixed?) ∧
      (typed.1 = none → last.corrections = []) := by
  intro typed last
  obtain ⟨used, spent, failed⟩ := exists_spent_attempt ctx field ((Cursor.ofText text.toList).skip n)
  have faithful := (((spent_skip ctx.scope _ n).trans spent).trans (spent_skip ctx.scope _ k)).faithful
  have dropped (none : typed.1 = none) : last.corrections = [] := by
    have noted := spent.corrections
    rw [failed none] at noted
    exact noted
  refine ⟨?_, dropped⟩
  cases isTyped : typed.1 with
  | some type => exact faithful
  | none =>
    have unchanged : last.fixed? = none := by rw [Cursor.fixed?, dropped isTyped]
    rw [unchanged] at faithful
    exact faithful

end Grammar

namespace ClassTable

open Grammar

section

variable (classes : ClassTable) (scope : Scope) (text : String)

/-- Where the reading of a type and of what is behind it ends. -/
def typedNameEnd (extent : Extent) (wide : Bool) : Cursor :=
  (fieldsBehind extent
    (attempt .type (delimitedType { classes, scope, wide }) (Cursor.ofText text.toList)).2.1).2.2.1

/-- A default may widen a type, but it makes none. -/
theorem typed_eq_none {classes : ClassTable} {scope : Scope} {text : String} {extent : Extent} {wide : Bool}
    (none : (classes.readTypedName scope text extent wide).type = none) :
    (attempt .type (delimitedType { classes, scope, wide }) (Cursor.ofText text.toList)).1 = Option.none := by
  rw [readTypedName_fields] at none
  dsimp only at none
  split at none
  · exact Option.map_eq_none_iff.mp none
  · exact none

/-- The bound of a template parameter, `mixed` where none is given. -/
def attemptBound (afterName : Cursor) : Option DocType × Cursor × List Failure :=
  if bounded afterName then
    attempt .templateBound (delimitedType { classes, scope, wide := false }) afterName.advance
  else (some .mixed, afterName, [])

/-- Where the reading of a template parameter ends. -/
def templateEnd : Cursor :=
  (classes.attemptBound scope (attempt .templateName templateName (Cursor.ofText text.toList)).2.1).2.1

/-- A template parameter is its name, whether there is one or not, and the bound behind it. -/
theorem readTemplate_fields :
    classes.readTemplate scope text =
      let named := attempt .templateName templateName (Cursor.ofText text.toList)
      let bound := classes.attemptBound scope named.2.1
      { bound := bound.1
        name := named.1
        remainder := remainder bound.2.1
        fixed := bound.1.bind fun _ => bound.2.1.fixed?
        failures := named.2.2 ++ bound.2.2 } :=
  rfl

theorem faithful_attemptBound (n : Nat) :
    let bound := classes.attemptBound scope ((Cursor.ofText text.toList).skip n)
    Correction.Faithful text.toList bound.2.1.corrections (bound.1.bind fun _ => bound.2.1.fixed?) ∧
      (bound.1 = none → bound.2.1.corrections = []) := by
  unfold attemptBound
  by_cases isBounded : bounded ((Cursor.ofText text.toList).skip n)
  · rw [if_pos isBounded, ← Cursor.skip_one, Cursor.skip_skip]
    exact faithful_attempt { classes, scope, wide := false } .templateBound text (n + 1) 0
  · rw [if_neg isBounded]
    exact ⟨(spent_skip scope (Cursor.ofText text.toList) n).faithful, nofun⟩

/-- The corrections left behind cover tokens of the text, one behind the other and none twice, with keywords. Made
from the last to the first they stay within the text, split no character and replace nothing but these tokens. None
is left where no type was read: going back from where a type fails drops all that was noted. -/
theorem corrections_faithful :
    (∀ extent wide, let reading := classes.readTypedName scope text extent wide
      let last := classes.typedNameEnd scope text extent wide
      reading.remainder = remainder last ∧ Correction.Faithful text.toList last.corrections reading.fixed ∧
        (reading.type = none → last.corrections = [])) ∧
    (let template := classes.readTemplate scope text
      let last := classes.templateEnd scope text
      template.remainder = remainder last ∧ Correction.Faithful text.toList last.corrections template.fixed ∧
        (template.bound = none → last.corrections = [])) ∧
    ∀ wide field c, ∃ outcome after, EndsWith { classes, scope, wide } (.anyType false) ⟨c, 0, 0⟩ outcome after ∧
      (attempt field (delimitedType { classes, scope, wide }) c).2.1 =
        if (attempt field (delimitedType { classes, scope, wide }) c).1.isSome then after.cursor
        else after.cursor.reset c.mark := by
  refine ⟨fun extent wide => ?_, ?_, fun wide field c => attempt_rewinds _ field c⟩
  · intro reading last
    obtain ⟨k, atLast⟩ := exists_skip_fieldsBehind extent
      (attempt .type (delimitedType { classes, scope, wide }) (Cursor.ofText text.toList)).2.1
    obtain ⟨faithful, dropped⟩ := faithful_attempt { classes, scope, wide } .type text 0 k
    rw [Cursor.skip_zero] at faithful dropped
    rw [← atLast] at faithful dropped
    exact ⟨rfl, faithful, fun none => dropped (typed_eq_none none)⟩
  · intro template last
    obtain ⟨n, name, failures, named⟩ := attempt_templateName (Cursor.ofText text.toList)
    have atName : (attempt .templateName templateName (Cursor.ofText text.toList)).2.1 =
        (Cursor.ofText text.toList).skip n := by
      rw [named _ rfl rfl]
    obtain ⟨faithful, dropped⟩ := classes.faithful_attemptBound scope text n
    rw [← atName] at faithful dropped
    have fields : template = _ := classes.readTemplate_fields scope text
    rw [fields]
    exact ⟨rfl, faithful, dropped⟩

end

/-- Two words that are spelled otherwise, behind a character of two bytes. -/
theorem corrections_faithful_words :
    (typedNameEnd .empty .root "array\x7b'é': Boolean, INT\x7d $x" .typeAndName true).corrections =
        [⟨12, 7, "bool"⟩, ⟨21, 3, "int"⟩] ∧
      (readTypedName .empty .root "array\x7b'é': Boolean, INT\x7d $x" .typeAndName true).fixed =
        some "array\x7b'é': bool, int\x7d $x" ∧
      Correction.Faithful "array\x7b'é': Boolean, INT\x7d $x".toList [⟨12, 7, "bool"⟩, ⟨21, 3, "int"⟩]
        (some "array\x7b'é': bool, int\x7d $x") := by
  have noted : (typedNameEnd .empty .root "array\x7b'é': Boolean, INT\x7d $x" .typeAndName true).corrections =
      [⟨12, 7, "bool"⟩, ⟨21, 3, "int"⟩] := by
    decide +kernel
  have fixed : (readTypedName .empty .root "array\x7b'é': Boolean, INT\x7d $x" .typeAndName true).fixed =
      some "array\x7b'é': bool, int\x7d $x" := by
    decide +kernel
  obtain ⟨_, faithful, _⟩ :=
    (corrections_faithful .empty .root "array\x7b'é': Boolean, INT\x7d $x").1 .typeAndName true
  exact ⟨noted, fixed, noted ▸ fixed ▸ faithful⟩

end ClassTable

end DocTypes
