import DocTypes.Proofs.StyleFix
import DocTypes.Proofs.UnionSearches

namespace DocTypes

theorem Extent.includes_trans {upper middle lower : Extent} (first : upper.includes middle)
    (second : middle.includes lower) : upper.includes lower := by
  simp only [Extent.includes, decide_eq_true_eq] at *
  omega

namespace Text

theorem dropBytes_suffix {m n : Nat} (le : m ≤ n) (cs : List Char) : dropBytes n cs <:+ dropBytes m cs := by
  induction cs generalizing m n with
  | nil => exact List.suffix_rfl
  | cons c cs ih =>
    unfold dropBytes
    by_cases fits : c.utf8Size ≤ m
    · rw [if_pos fits, if_pos (by omega)]
      exact ih (by omega)
    · rw [if_neg fits]
      split
      · have behind : dropBytes (n - c.utf8Size) cs <:+ dropBytes 0 cs := ih (by omega)
        rw [show dropBytes 0 cs = cs from dropBytes_byteSize [] cs] at behind
        exact behind.trans (List.suffix_cons c cs)
      · exact List.suffix_rfl

theorem dropWhile_suffix_dropWhile {p : Char → Bool} {part cs : List Char} (suffix : part <:+ cs) :
    part.dropWhile p <:+ cs.dropWhile p := by
  obtain ⟨front, rfl⟩ := suffix
  induction front with
  | nil => exact List.suffix_rfl
  | cons c front ih =>
    rw [List.cons_append, List.dropWhile_cons]
    split
    · exact ih
    · have whole : part <:+ c :: (front ++ part) := List.suffix_append (c :: front) part
      exact (List.dropWhile_suffix p).trans whole

theorem dropWhileEnd_suffix {p : Char → Bool} {part cs : List Char} (suffix : part <:+ cs) :
    dropWhileEnd p part <:+ dropWhileEnd p cs := by
  obtain ⟨front, rfl⟩ := suffix
  rw [dropWhileEnd, dropWhileEnd, List.reverse_append, List.dropWhile_append]
  split
  next empty =>
    rw [List.isEmpty_iff.mp empty]
    exact List.nil_suffix
  next =>
    rw [List.reverse_append, List.reverse_reverse]
    exact List.suffix_append _ _

theorem trim_suffix {part cs : List Char} (suffix : part <:+ cs) : trim part <:+ trim cs :=
  dropWhileEnd_suffix (dropWhile_suffix_dropWhile suffix)

end Text

/-- Tokens start one behind the other, and end behind the last. -/
theorem Token.scanFrom_ascending (offset : Nat) (spaced : Bool) (cs : List Char) :
    let stream := scanFrom offset spaced cs
    let starts := stream.tokens.map Token.start ++ [stream.ending.start]
    starts.Pairwise (· ≤ ·) ∧ ∀ start ∈ starts, offset ≤ start := by
  fun_induction scanFrom offset spaced cs with
  | case1 => simp
  | case2 offset spaced c cs isBlank ih =>
    refine ⟨ih.1, fun start member => ?_⟩
    have behind := ih.2 start member
    omega
  | case3 => simp
  | case4 offset spaced c cs notBlank n length text stop rest ih =>
    have further : offset ≤ stop := Nat.le_add_right _ _
    have behind : ∀ start ∈ rest.tokens.map Token.start ++ [rest.ending.start], offset ≤ start :=
      fun start member => further.trans (ih.2 start member)
    exact ⟨List.pairwise_cons.mpr ⟨behind, ih.1⟩, List.forall_mem_cons.mpr ⟨le_rfl, behind⟩⟩

namespace Cursor

/-- What is ahead starts one behind the other. -/
def Ascending (c : Cursor) : Prop :=
  (c.ahead.map Token.start ++ [c.ending.start]).Pairwise (· ≤ ·)

/-- The second cursor is the first one some tokens later. -/
structure Onward (c later : Cursor) : Prop where
  text : later.text = c.text
  ending : later.ending = c.ending
  ahead : later.ahead <:+ c.ahead

theorem ascending_ofText (text : List Char) : (ofText text).Ascending :=
  (Token.scanFrom_ascending 0 false text).1

variable {c later : Cursor}

theorem start_eq_head (c : Cursor) :
    (c.ahead.map Token.start ++ [c.ending.start]).head? = some (c.spanAt 0).1 := by
  unfold spanAt
  cases c.ahead with
  | nil => simp
  | cons token more => simp

theorem Onward.refl (c : Cursor) : Onward c c :=
  ⟨rfl, rfl, List.suffix_rfl⟩

theorem Onward.trans {last : Cursor} (first : Onward c later) (second : Onward later last) : Onward c last :=
  ⟨second.text.trans first.text, second.ending.trans first.ending, second.ahead.trans first.ahead⟩

theorem onward_advance (c : Cursor) : Onward c c.advance :=
  ⟨rfl, rfl, List.tail_suffix c.ahead⟩

theorem onward_eat (c : Cursor) (mark : String) : Onward c (c.eat mark).2 := by
  unfold eat
  split
  · exact c.onward_advance
  · exact Onward.refl c

theorem Onward.starts (onward : Onward c later) :
    later.ahead.map Token.start ++ [later.ending.start] <:+ c.ahead.map Token.start ++ [c.ending.start] := by
  obtain ⟨taken, split⟩ := onward.ahead
  rw [onward.ending, ← split, List.map_append, List.append_assoc]
  exact List.suffix_append _ _

theorem Onward.ascending (onward : Onward c later) (ascending : c.Ascending) : later.Ascending :=
  List.Pairwise.sublist onward.starts.sublist ascending

/-- A later cursor stands at no earlier byte. -/
theorem Onward.start_le (onward : Onward c later) (ascending : c.Ascending) :
    (c.spanAt 0).1 ≤ (later.spanAt 0).1 := by
  obtain ⟨taken, split⟩ := onward.starts
  have here := c.start_eq_head
  have there := later.start_eq_head
  unfold Ascending at ascending
  rw [← split] at here ascending
  cases taken with
  | nil =>
    have same : some (c.spanAt 0).1 = some (later.spanAt 0).1 := here.symm.trans there
    exact (Option.some.inj same).le
  | cons start taken =>
    have first : start = (c.spanAt 0).1 := Option.some.inj here
    have isLater : (later.spanAt 0).1 ∈ taken ++ (later.ahead.map Token.start ++ [later.ending.start]) :=
      List.mem_append_right _ (List.mem_of_mem_head? there)
    have ordered := (List.pairwise_cons.mp ascending).1 _ isLater
    omega

/-- A later cursor leaves less of the text. -/
theorem Onward.remainder (onward : Onward c later) (ascending : c.Ascending) :
    (Grammar.remainder later).toList <:+ (Grammar.remainder c).toList := by
  rw [Grammar.remainder, Grammar.remainder, String.toList_ofList, String.toList_ofList, restFrom, restFrom,
    onward.text]
  exact Text.trim_suffix (Text.dropBytes_suffix (onward.start_le ascending) c.text)

end Cursor

namespace Grammar

open Cursor (Onward)

/-- A type is read from the front of what is ahead. -/
theorem onward_of_reads {ctx : Context} {c after : Cursor} {found : DocType}
    (reads : Reads (delimitedType ctx) c found after) : Onward c after := by
  obtain ⟨readsType, _⟩ := reads_delimitedType.mp reads
  obtain ⟨used, spent, _⟩ := (level_rereads ctx ctx.limit).anyType false c found after readsType
  exact ⟨spent.text, spent.ending, used.map Prod.fst, spent.ahead.symm⟩

theorem onward_attempt_type (ctx : Context) (c : Cursor) : Onward c (attempt .type (delimitedType ctx) c).2.1 := by
  cases result : delimitedType ctx c with
  | error error =>
    rw [attempt_of_error .type result]
    exact Onward.refl c
  | ok step =>
    rw [attempt_of_reads .type (show Reads _ c step.1 step.2 from result)]
    exact onward_of_reads result

/-- The marks of a parameter are stepped over where they are asked for. -/
def behindMarks (extent : Extent) (c : Cursor) : Cursor :=
  if extent.includes .withPassMode then ((c.eat "&").2.eat "...").2 else c

/-- The name is read where it is asked for. -/
def attemptName (extent : Extent) (c : Cursor) : Option String × Cursor × List Failure :=
  if extent.includes .typeAndName then attempt .name (variableName extent) c else (none, c, [])

theorem fieldsBehind_eq (extent : Extent) (c : Cursor) :
    (fieldsBehind extent c).2 = attemptName extent (behindMarks extent c) := by
  unfold fieldsBehind attemptName behindMarks
  cases extent.includes .withPassMode <;> rfl

theorem passMode_fieldsBehind (extent : Extent) (c : Cursor) :
    (fieldsBehind extent c).1 =
      if extent.includes .withPassMode then ⟨(c.eat "&").1, ((c.eat "&").2.eat "...").1⟩ else ⟨false, false⟩ := by
  unfold fieldsBehind
  cases extent.includes .withPassMode <;> rfl

theorem onward_behindMarks (extent : Extent) (c : Cursor) : Onward c (behindMarks extent c) := by
  unfold behindMarks
  split
  · exact (c.onward_eat "&").trans ((c.eat "&").2.onward_eat "...")
  · exact Onward.refl c

/-- The marks are no variables. -/
theorem behindMarks_of_variable (extent : Extent) {c : Cursor} (isVariable : (c.peek 0).any Token.isVariable) :
    behindMarks extent c = c := by
  have stays : ∀ mark : String, ¬ Token.isVariable mark → c.eat mark = (false, c) := by
    intro mark other
    refine if_neg fun isMark => other ?_
    rw [isMark] at isVariable
    exact isVariable
  unfold behindMarks
  rw [stays "&" (by decide), stays "..." (by decide)]
  split <;> rfl

/-- What reading a name can come to: the token at the front is one and the cursor goes on behind it, or there is
none and the cursor stays. -/
theorem attemptName_cases (extent : Extent) (c : Cursor) :
    (∃ name, c.peek 0 = some name ∧ Token.isVariable name ∧ extent.includes .typeAndName ∧
      ((extent.includes .withDefault ∧ c.advance.peek 0 = some "=") ∨ c.advance.atFieldEnd) ∧
      attemptName extent c = (some name, c.advance, [])) ∨
    ∃ failures, attemptName extent c = (none, c, failures) := by
  unfold attemptName
  by_cases asked : extent.includes .typeAndName
  · rw [if_pos asked, variableName_eq, attempt_fieldName]
    by_cases passes : (c.peek 0).any Token.isVariable
    · obtain ⟨name, front, isVariable⟩ := (Option.any_eq_true _ _).mp passes
      rw [if_pos passes]
      split
      next ends =>
        refine Or.inl ⟨name, front, isVariable, asked, ?_, by rw [front]; rfl⟩
        simpa only [Bool.or_eq_true, Bool.and_eq_true, decide_eq_true_eq] using ends
      next => exact Or.inr ⟨_, rfl⟩
    · rw [if_neg passes]
      exact Or.inr ⟨_, rfl⟩
  · rw [if_neg asked]
    exact Or.inr ⟨_, rfl⟩

theorem onward_attemptName (extent : Extent) (c : Cursor) : Onward c (attemptName extent c).2.1 := by
  rcases attemptName_cases extent c with ⟨name, _, _, _, _, isName⟩ | ⟨failures, isNone⟩
  · rw [isName]
    exact c.onward_advance
  · rw [isNone]
    exact Onward.refl c

theorem onward_fields (extent : Extent) (c : Cursor) : Onward c (fieldsBehind extent c).2.2.1 := by
  rw [fieldsBehind_eq]
  exact (onward_behindMarks extent c).trans (onward_attemptName extent _)

theorem attemptName_of_variable {extent : Extent} {c : Cursor} {name : String}
    (asked : extent.includes .typeAndName) (front : c.peek 0 = some name) (isVariable : Token.isVariable name)
    (ends : (extent.includes .withDefault ∧ c.advance.peek 0 = some "=") ∨ c.advance.atFieldEnd) :
    attemptName extent c = (some name, c.advance, []) := by
  unfold attemptName
  rw [if_pos asked, variableName_eq, attempt_fieldName, front, Option.any_some, if_pos isVariable]
  refine if_pos ?_
  simpa only [Bool.or_eq_true, Bool.and_eq_true, decide_eq_true_eq] using ends

variable {lower upper : Extent}

/-- The marks that a lower level steps over are stepped over at every higher one. -/
theorem onward_marks (included : upper.includes lower) (c : Cursor) :
    Onward (behindMarks lower c) (behindMarks upper c) := by
  unfold behindMarks
  by_cases marked : lower.includes .withPassMode
  · rw [if_pos marked, if_pos (Extent.includes_trans included marked)]
    exact Onward.refl _
  · rw [if_neg marked]
    exact onward_behindMarks upper c

/-- A name found at a lower level is found at every higher one, at the same place. -/
theorem name_fieldsBehind (included : upper.includes lower) {c : Cursor} {name : String}
    (isName : (fieldsBehind lower c).2.1 = some name) :
    (fieldsBehind upper c).2 = (fieldsBehind lower c).2 := by
  rw [fieldsBehind_eq] at isName ⊢
  rw [fieldsBehind_eq]
  rcases attemptName_cases lower (behindMarks lower c) with ⟨found, front, isVariable, asked, ends, isFound⟩ |
    ⟨failures, isNone⟩
  · -- no mark stands where a variable does, so both levels look for the name at one place
    have samePlace : behindMarks upper c = behindMarks lower c := by
      unfold behindMarks at front ⊢
      by_cases marked : lower.includes .withPassMode
      · rw [if_pos marked, if_pos (Extent.includes_trans included marked)]
      · rw [if_neg marked] at front ⊢
        exact behindMarks_of_variable upper (by rw [front]; exact isVariable)
    have endsHigher := ends.imp_left fun ⟨withDefault, equals⟩ =>
      And.intro (Extent.includes_trans included withDefault) equals
    rw [samePlace, isFound, attemptName_of_variable (Extent.includes_trans included asked) front isVariable
      endsHigher]
  · rw [isNone] at isName
    cases isName

/-- A higher level goes on from where a lower one has come to. -/
theorem onward_fieldsBehind (included : upper.includes lower) (c : Cursor) :
    Onward (fieldsBehind lower c).2.2.1 (fieldsBehind upper c).2.2.1 := by
  cases found : (fieldsBehind lower c).2.1 with
  | some name =>
    rw [name_fieldsBehind included found]
    exact Onward.refl _
  | none =>
    rw [fieldsBehind_eq] at found ⊢
    rw [fieldsBehind_eq]
    rcases attemptName_cases lower (behindMarks lower c) with ⟨name, _, _, _, _, isName⟩ | ⟨failures, isNone⟩
    · rw [isName] at found
      cases found
    · rw [isNone]
      exact (onward_marks included c).trans (onward_attemptName upper _)

theorem passMode_fieldsBehind_includes (included : upper.includes lower) (marked : lower.includes .withPassMode)
    (c : Cursor) : (fieldsBehind upper c).1 = (fieldsBehind lower c).1 := by
  rw [passMode_fieldsBehind, passMode_fieldsBehind, if_pos marked, if_pos (Extent.includes_trans included marked)]

end Grammar

namespace ClassTable

open Grammar

section Readings

variable {classes : ClassTable} {scope : Scope} {text : String} {wide : Bool}

/-- A reading is the type, whether there is one or not, and the fields behind it. -/
theorem readTypedName_fields (extent : Extent) :
    classes.readTypedName scope text extent wide =
      let typed := attempt .type (delimitedType { classes, scope, wide }) (Cursor.ofText text.toList)
      let fields := fieldsBehind extent typed.2.1
      { type := if extent.includes .withDefault && fields.2.1.isSome && nullDefault fields.2.2.1 then
          typed.1.map classes.withNull else typed.1
        passMode := fields.1
        name := fields.2.1
        remainder := remainder fields.2.2.1
        fixed := typed.1.bind fun _ => fields.2.2.1.fixed?
        failures := typed.2.2 ++ fields.2.2.2 } :=
  rfl

/-- The second type is the first one with the `null` that a default implies. -/
def Widens (classes : ClassTable) (type widened : Option DocType) : Prop :=
  ∃ found union, type = some found ∧ found ≠ .mixed ∧
    classes.normalUnion? (found.members ++ ["null"]) = some union ∧ widened = some ⟨union⟩

theorem WellNamed.eq_or_widens_withNull (named : classes.WellNamed) (type : Option DocType) :
    type.map classes.withNull = type ∨ classes.Widens type (type.map classes.withNull) := by
  cases type with
  | none => exact Or.inl rfl
  | some found =>
    by_cases isMixed : found = .mixed
    · left
      rw [Option.map_some, withNull, if_pos isMixed]
    · right
      refine ⟨found, _, rfl, isMixed, named.normalUnion?_eq _, ?_⟩
      rw [Option.map_some, withNull, if_neg isMixed]

theorem type_of_not_withDefault {extent : Extent} (other : ¬ extent.includes .withDefault) :
    (classes.readTypedName scope text extent wide).type =
      (attempt .type (delimitedType { classes, scope, wide }) (Cursor.ofText text.toList)).1 := by
  rw [readTypedName_fields]
  simp [other]

end Readings

/-- The type at a higher level is that at a lower one, or it is widened by a default. -/
theorem WellNamed.type_eq_or_widens {classes : ClassTable} (named : classes.WellNamed) (scope : Scope)
    (text : String) (wide : Bool) {lower upper : Extent} (included : upper.includes lower) :
    let low := classes.readTypedName scope text lower wide
    let high := classes.readTypedName scope text upper wide
    high.type = low.type ∨ upper = .withDefault ∧ high.name.isSome ∧ classes.Widens low.type high.type := by
  intro low high
  by_cases same : lower = upper
  · subst same
    exact Or.inl rfl
  · have lowerOther : ¬ lower.includes .withDefault := by
      intro withDefault
      revert included same withDefault
      cases lower <;> cases upper <;> decide
    have lowType : low.type = _ := type_of_not_withDefault lowerOther
    by_cases withDefault : upper.includes .withDefault
    · have isTop : upper = .withDefault := by
        revert withDefault
        cases upper <;> decide
      have highIs : high = _ := readTypedName_fields upper
      rw [lowType, highIs]
      dsimp only
      split
      next nullable =>
        obtain ⟨withName, _⟩ := Bool.and_eq_true_iff.mp nullable
        refine (named.eq_or_widens_withNull _).imp_right fun widens => ⟨isTop, ?_, widens⟩
        exact (Bool.and_eq_true_iff.mp withName).2
      next => exact Or.inl rfl
    · left
      rw [lowType]
      exact type_of_not_withDefault withDefault

/-- Each level of reading includes what the lower ones read: there is a type at one if there is at the other, and
the same correction of the text; the types are equal unless a default of `null` widens the higher one; a name is
found unchanged, marks too; and what is left of the text is the end of what was left before. -/
theorem levels_nested {classes : ClassTable} (named : classes.WellNamed) (scope : Scope) (text : String)
    (wide : Bool) {lower upper : Extent} (included : upper.includes lower) :
    let low := classes.readTypedName scope text lower wide
    let high := classes.readTypedName scope text upper wide
    (high.type.isSome ↔ low.type.isSome) ∧ high.fixed = low.fixed ∧
      (high.type = low.type ∨ upper = .withDefault ∧ high.name.isSome ∧ classes.Widens low.type high.type) ∧
      (∀ name, low.name = some name → high.name = some name) ∧
      (lower.includes .withPassMode → high.passMode = low.passMode) ∧
      high.remainder.toList <:+ low.remainder.toList := by
  intro low high
  have lowIs : low = _ := readTypedName_fields lower
  have highIs : high = _ := readTypedName_fields upper
  have typeCases := named.type_eq_or_widens scope text wide included
  refine ⟨?_, ?_, typeCases, ?_, ?_, ?_⟩
  · rcases typeCases with same | ⟨_, _, found, union, isFound, _, _, isWidened⟩
    · exact iff_of_eq (congrArg (fun type => type.isSome = true) same)
    · rw [isFound, isWidened]
      exact iff_of_true rfl rfl
  · rw [lowIs, highIs]
    dsimp only
    rw [fixed_fieldsBehind, fixed_fieldsBehind]
  · intro name isName
    rw [lowIs] at isName
    rw [highIs]
    exact (congrArg Prod.fst (name_fieldsBehind included isName)).trans isName
  · intro marked
    rw [lowIs, highIs]
    exact passMode_fieldsBehind_includes included marked _
  · rw [lowIs, highIs]
    have typed := onward_attempt_type { classes, scope, wide } (Cursor.ofText text.toList)
    have low := typed.trans (onward_fields lower _)
    exact (onward_fieldsBehind included _).remainder (low.ascending (Cursor.ascending_ofText text.toList))

theorem levels_nested_nullDefault :
    WellNamed .empty ∧ Extent.includes .withDefault .withPassMode ∧
      let low := readTypedName .empty .root "INT &$x=NULL" .withPassMode true
      let high := readTypedName .empty .root "INT &$x=NULL" .withDefault true
      low.type = some ⟨["int"]⟩ ∧ high.type = some ⟨["int", "null"]⟩ ∧ low.name = none ∧ high.name = some "$x" ∧
        high.fixed = low.fixed ∧ high.passMode = low.passMode ∧ high.remainder.toList <:+ low.remainder.toList := by
  have named : WellNamed .empty := by decide
  have included : Extent.includes .withDefault .withPassMode := rfl
  have nested := levels_nested named .root "INT &$x=NULL" true included
  exact ⟨named, rfl, by decide +kernel, by decide +kernel, by decide +kernel, by decide +kernel, nested.2.1,
    nested.2.2.2.2.1 rfl, nested.2.2.2.2.2⟩

/-- In a table that is not of full names the default may ask for a union that is never done. Below that level the
same text has a type. -/
theorem default_of_circular_endless :
    let low := circularTable.readTypedName .root "\\A $x = null" .withPassMode false
    let high := circularTable.readTypedName .root "\\A $x = null" .withDefault false
    low.type = some ⟨["\\A"]⟩ ∧ low.name = some "$x" ∧ high.name = some "$x" ∧
      high.type = low.type.map circularTable.withNull ∧ (∀ type, ¬ circularTable.Widens low.type type) ∧
      circularTable.normalUnion? (["\\A"] ++ ["null"]) = none := by
  have lowType : (circularTable.readTypedName .root "\\A $x = null" .withPassMode false).type = some ⟨["\\A"]⟩ := by
    decide +kernel
  refine ⟨lowType, by decide +kernel, by decide +kernel, ?_, ?_, normalUnion?_circular⟩
  · rw [readTypedName_fields, readTypedName_fields]
    exact if_pos (by decide +kernel)
  · rintro type ⟨found, union, isFound, _, isUnion, _⟩
    cases lowType.symm.trans isFound
    cases isUnion.symm.trans normalUnion?_circular

end ClassTable

end DocTypes
