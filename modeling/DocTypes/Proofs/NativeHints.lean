import DocTypes.Check.Tags
import DocTypes.Php.Scan
import DocTypes.Proofs.HintReading
import DocTypes.Proofs.ReturnedTypes

namespace DocTypes

namespace Php

/-- The characters of names. -/
def isNamePart (c : Char) : Bool :=
  Scan.isNameChar c || c == '\\'

/-- Whether all names in a native type are spelled as names are. -/
def Hint.isNamed : Hint → Bool
  | name text => !text.toList.isEmpty && text.toList.all isNamePart
  | nullable hint | grouped hint => hint.isNamed
  | union left right | intersection left right => left.isNamed && right.isNamed

/-- A `$` and a name. -/
def isVariableName (name : String) : Bool :=
  name.toList.head? == some '$' && name.toList.tail.all Scan.isNameChar

/-- What a documented type says that repeats a native one; without one it takes anything. -/
def repeatedText (hint : Option Hint) : String :=
  (hint.map Hint.text).getD "mixed"

/-- The characters that native types are written with. -/
def isHintChar (c : Char) : Bool :=
  isNamePart c || ['(', ')', '?', '|', '&'].contains c

theorem Hint.isHintChar_of_mem {hint : Hint} (named : hint.isNamed) : ∀ c ∈ hint.text.toList, isHintChar c := by
  induction hint with
  | name text =>
    simp only [isNamed, Bool.and_eq_true, List.all_eq_true] at named
    intro c inText
    simp [isHintChar, named.2 c inText]
  | nullable hint ih =>
    have others := ih named
    simpa [text, List.forall_mem_cons] using ⟨by decide, others⟩
  | union left right ihLeft ihRight =>
    rw [isNamed, Bool.and_eq_true] at named
    have ofLeft := ihLeft named.1
    have ofRight := ihRight named.2
    simpa [text, or_imp, forall_and] using ⟨ofLeft, by decide, ofRight⟩
  | intersection left right ihLeft ihRight =>
    rw [isNamed, Bool.and_eq_true] at named
    have ofLeft := ihLeft named.1
    have ofRight := ihRight named.2
    simpa [text, or_imp, forall_and] using ⟨ofLeft, by decide, ofRight⟩
  | grouped hint ih =>
    have others := ih named
    simpa [text, or_imp, forall_and] using ⟨by decide, others, by decide⟩

/-- A native type ends with a name or a bracket. -/
theorem Hint.exists_getLast {hint : Hint} (named : hint.isNamed) :
    ∃ c, hint.text.toList.getLast? = some c ∧ (isNamePart c ∨ c = ')') := by
  induction hint with
  | name text =>
    simp only [isNamed, Bool.and_eq_true, List.all_eq_true] at named
    have nonempty : text.toList ≠ [] := by simpa using named.1
    have isLast := List.getLast?_eq_some_getLast nonempty
    exact ⟨_, isLast, Or.inl (named.2 _ (List.mem_of_getLast? isLast))⟩
  | nullable hint ih =>
    obtain ⟨c, isLast, ends⟩ := ih named
    refine ⟨c, ?_, ends⟩
    rw [text, String.toList_append, List.getLast?_append, isLast]
    rfl
  | union left right _ ihRight | intersection left right _ ihRight =>
    rw [isNamed, Bool.and_eq_true] at named
    obtain ⟨c, isLast, ends⟩ := ihRight named.2
    refine ⟨c, ?_, ends⟩
    rw [text, String.toList_append, List.getLast?_append, isLast]
    rfl
  | grouped hint _ =>
    refine ⟨')', ?_, Or.inr rfl⟩
    rw [text, String.toList_append, List.getLast?_append]
    rfl

theorem exists_hint {hint : Option Hint} (named : ∀ given ∈ hint, given.isNamed) :
    ∃ given : Hint, given.isNamed ∧ repeatedText hint = given.text := by
  cases hint with
  | none => exact ⟨.name "mixed", by decide, rfl⟩
  | some given => exact ⟨given, named given rfl, rfl⟩

/-- Native types hold no blanks and no strings. -/
theorem plain_of_isHintChar {c : Char} (isChar : isHintChar c) : ¬ Text.isTypeSpace c ∧ ¬ Token.isQuote c := by
  constructor
  · exact fun blank => Text.forall_blank (p := (¬ isHintChar ·)) (by decide) blank isChar
  · intro quote
    simp only [Token.isQuote, Bool.or_eq_true, beq_iff_eq] at quote
    rcases quote with rfl | rfl <;> exact absurd isChar (by decide)

end Php

namespace Grammar

open Php

/-- The marks of arguments have characters that neither types nor variables are written with. -/
theorem not_argumentMark {text : String} (chars : ∀ c ∈ text.toList, isHintChar c ∨ c = '$') :
    text ∉ argumentMarks := by
  have table : ∀ mark ∈ argumentMarks, ∃ c ∈ mark.toList, ¬ (isHintChar c ∨ c = '$') := by
    simp [argumentMarks, isHintChar, isNamePart, Scan.isNameChar, Scan.isNameStart]
  intro isMark
  obtain ⟨c, inMark, other⟩ := table text isMark
  exact other (chars c inMark)

/-- The tokens of a native type. -/
theorem hinted_scan {hint : Hint} (named : hint.isNamed) :
    (Token.scanFrom 0 false hint.text.toList).tokens ≠ [] ∧
      Hinted (Token.scanFrom 0 false hint.text.toList).tokens := by
  have chars := Hint.isHintChar_of_mem named
  obtain ⟨c, isLast, ends⟩ := Hint.exists_getLast named
  have nonempty : hint.text.toList ≠ [] := by
    intro none
    rw [none] at isLast
    exact absurd isLast (by simp)
  obtain ⟨last, isLastToken, sameEnd⟩ :=
    Token.exists_last_token nonempty fun c inText => plain_of_isHintChar (chars c inText)
  refine ⟨fun none => ?_, ⟨fun token isToken => ⟨?_, ?_⟩, fun token isToken => ?_⟩⟩
  · rw [none] at isLastToken
    exact absurd isLastToken (by simp)
  · exact not_argumentMark fun c inToken => Or.inl (chars c (Token.mem_of_mem_scanFrom isToken c inToken))
  · intro isVariable
    rw [Token.isVariable, beq_iff_eq] at isVariable
    have inText := Token.mem_of_mem_scanFrom isToken '$' (List.mem_of_head? isVariable)
    exact absurd (chars '$' inText) (by decide)
  · obtain rfl := Option.some.inj (isLastToken.symm.trans isToken)
    have table : ∀ mark ∈ openers, ∀ c ∈ mark.toList.getLast?, ¬ (isNamePart c ∨ c = ')') := by
      simp [openers, isNamePart, Scan.isNameChar, Scan.isNameStart]
    exact fun opens => table _ opens c (sameEnd.trans isLast) ends

/-- The first token of a text that starts with neither a blank nor a quote. -/
theorem exists_first_token {c : Char} {cs : List Char} (plain : ¬ Text.isTypeSpace c ∧ ¬ Token.isQuote c) {n : Nat}
    (length : Token.tailLength c cs = some n) (offset : Nat) (spaced : Bool) :
    ∃ token stop, (Token.scanFrom offset spaced (c :: cs)).tokens =
      token :: (Token.scanFrom stop false (cs.drop n)).tokens ∧ token.text.toList = c :: cs.take n ∧
        token.spaced = spaced := by
  rw [Token.scanFrom, if_neg plain.1, length]
  exact ⟨_, _, rfl, String.toList_ofList, rfl⟩

/-- A variable goes on no type. -/
theorem variable_scan (cs : List Char) (offset : Nat) (spaced : Bool) :
    ∃ token more, (Token.scanFrom offset spaced ('$' :: cs)).tokens = token :: more ∧
      Token.isVariable token.text ∧ token.spaced = spaced := by
  obtain ⟨n, length⟩ := Token.tailLength_isSome (show ¬ Token.isQuote '$' by decide) cs
  obtain ⟨token, stop, tokens, text, isSpaced⟩ := exists_first_token (by decide) length offset spaced
  exact ⟨token, _, tokens, by simp [Token.isVariable, text], isSpaced⟩

theorem stops_of_variable {token : Token} {more : List Token} (isVariable : Token.isVariable token.text) :
    Stops (token :: more) := by
  have table : ∀ mark ∈ "&" :: (argumentMarks ++ ["(", ")", "?", "|"]), ¬ Token.isVariable mark := by decide
  have other : ∀ mark ∈ "&" :: (argumentMarks ++ ["(", ")", "?", "|"]), some token.text ≠ some mark :=
    fun mark isMark same => table mark isMark (Option.some.inj same ▸ isVariable)
  exact ⟨fun mark isMark => other mark (List.mem_cons_of_mem _ isMark),
    fun isAnd => absurd isAnd (other "&" (List.mem_cons_self ..))⟩

/-- A variable, with or without `...` before it. An `&` right before marks a reference. -/
theorem splat_scan (splat : Bool) (cs : List Char) (offset : Nat) (spaced : Bool) :
    ∃ token more, (Token.scanFrom offset spaced ((if splat then "..." else "").toList ++ '$' :: cs)).tokens =
      token :: more ∧ Stops (token :: more) ∧ marksReference (some token.text) ∧ token.spaced = spaced := by
  cases splat with
  | true =>
    have length : Token.tailLength '.' ('.' :: '.' :: '$' :: cs) = some 2 := by
      simp [Token.tailLength, Token.isWordStart]
    obtain ⟨token, stop, tokens, text, isSpaced⟩ := exists_first_token (by decide) length offset spaced
    have isDots : token.text = "..." := String.toList_inj.mp text
    refine ⟨token, _, tokens, ⟨?_, ?_⟩, ?_, isSpaced⟩
    · rw [List.head?_cons, Option.map_some, isDots]
      decide
    · rw [List.head?_cons, Option.map_some, isDots]
      exact fun isAnd => absurd isAnd (by decide)
    · rw [isDots]
      decide
  | false =>
    obtain ⟨token, more, tokens, isVariable, isSpaced⟩ := variable_scan cs offset spaced
    exact ⟨token, more, tokens, stops_of_variable isVariable, by simp [marksReference, isVariable], isSpaced⟩

/-- What follows the type in a signature goes on no type, and there is a blank before it. -/
theorem signature_scan (byReference splat : Bool) (cs : List Char) (offset : Nat) :
    ∃ token more, (Token.scanFrom offset true
        ((if byReference then "&" else "").toList ++ ((if splat then "..." else "").toList ++ '$' :: cs))).tokens =
      token :: more ∧ Stops (token :: more) ∧ token.spaced := by
  cases byReference with
  | true =>
    have length : ∀ cs, Token.tailLength '&' cs = some 0 := fun cs => by simp [Token.tailLength, Token.isWordStart]
    obtain ⟨token, stop, tokens, text, isSpaced⟩ := exists_first_token (by decide)
      (length ((if splat then "..." else "").toList ++ '$' :: cs)) offset true
    obtain ⟨next, more, tokensNext, _, mark, _⟩ := splat_scan splat cs stop false
    have isAnd : token.text = "&" := String.toList_inj.mp text
    rw [List.drop_zero, tokensNext] at tokens
    refine ⟨token, next :: more, tokens, ⟨?_, fun _ => mark⟩, isSpaced⟩
    rw [List.head?_cons, Option.map_some, isAnd]
    decide
  | false =>
    obtain ⟨token, more, tokens, stops, _, isSpaced⟩ := splat_scan splat cs offset true
    exact ⟨token, more, tokens, stops, isSpaced⟩

/-- Types that are read are in the normal form of some union. -/
theorem exists_normalUnion {ctx : Context} {c after : Cursor} {type : DocType}
    (reads : Reads (delimitedType ctx) c type after) : ∃ members, type = ⟨ctx.classes.normalUnion members⟩ := by
  have ends : ∀ {reading : Reading (List String)},
      Reads (do let members ← reading; return (⟨ctx.classes.normalUnion members⟩ : DocType)) c type after →
      ∃ members, type = ⟨ctx.classes.normalUnion members⟩ := by
    intro reading readsAll
    obtain ⟨members, _, _, last⟩ := reads_bind.mp readsAll
    exact ⟨members, (reads_pure.mp last).1⟩
  have readsType := (reads_delimitedType.mp reads).1
  rw [Grammar.type] at readsType
  cases limit : ctx.limit with
  | zero =>
    rw [limit] at readsType
    exact absurd readsType reads_throw
  | succ n =>
    rw [limit] at readsType
    change Reads (anyType ctx (level ctx n) false) c type after at readsType
    rw [anyType, reads_peek_bind, reads_peek_bind] at readsType
    split at readsType
    · exact ends readsType
    · split at readsType
      · exact ends readsType
      · exact ends readsType

end Grammar

namespace ClassTable

open Grammar Php

variable {classes : ClassTable}

/-- Adding `null` to a type takes nothing away. -/
theorem WellNamed.accepts_withNull (named : classes.WellNamed) (members : List String) :
    classes.accepts (classes.withNull ⟨classes.normalUnion members⟩) ⟨classes.normalUnion members⟩ := by
  unfold withNull
  split
  · exact classes.accepts_refl _
  next notMixed =>
    by_cases never : "never" ∈ classes.normalUnion members
    · have all := never_of_mem_normalUnion never
      have some : members ≠ [] := by
        rintro rfl
        exact absurd never (by simp [normalUnion])
      refine accepts_iff.mpr (Or.inr (Or.inl ?_))
      rw [normalUnion_of_never some all]
      rfl
    · have noMixed : "mixed" ∉ classes.normalUnion members ++ ["null"] := by
        intro mixed
        have isMember := (List.mem_append.mp mixed).resolve_right (by decide)
        have given := (mem_of_mem_normalUnion isMember).resolve_right (mixed_not_complete members)
        exact notMixed (by rw [normalUnion_of_mixed given]; rfl)
      refine accepts_iff.mpr (Or.inr (Or.inr fun member isMember => ?_))
      have notNever : member ≠ "never" := fun same => never (same ▸ isMember)
      exact named.normalUnion_covers noMixed notNever (Or.inl (List.mem_append_left _ isMember))

/-- A type that two texts start with, as their tokens tell, is read alike in both. -/
theorem WellNamed.read_alike (named : classes.WellNamed) {scope : Scope} {text text' : String}
    {used tail tail' : List Token} (tokens : (Token.scan text.toList).tokens = used ++ tail)
    (tokens' : (Token.scan text'.toList).tokens = used ++ tail') (nonempty : used ≠ []) (hinted : Hinted used)
    (bare : ∀ token ∈ tail, token.text ∉ argumentMarks) (stops : Stops tail) (stops' : Stops tail')
    (spaced : ∀ token ∈ tail'.head?, token.spaced) {extent extent' : Extent} (noDefault : extent ≠ .withDefault)
    {type : DocType} (read : (classes.readTypedName scope text extent false).type = some type) :
    ∃ native, (classes.readTypedName scope text' extent' true).type = some native ∧
      (native = type ∨ extent' = .withDefault ∧ native = classes.withNull type) ∧ classes.accepts native type := by
  obtain ⟨found, after, reads, isType⟩ := readTypedName_type read
  have noNull : impliesNull extent after = false := by simp [impliesNull, noDefault]
  rw [noNull, if_neg Bool.false_ne_true] at isType
  subst isType
  obtain ⟨members, isNormal⟩ := exists_normalUnion reads
  obtain ⟨rest, after', _, _, _, _, reads'⟩ :=
    inStep_delimitedType bare stops stops' { classes, scope, wide := false } true spaced nonempty hinted
      (Cursor.ofText text.toList) (Cursor.ofText text'.toList) tokens tokens' type after reads
  refine ⟨_, readTypedName_of_reads reads', ?_⟩
  split
  next nullable =>
    refine ⟨Or.inr ⟨?_, rfl⟩, ?_⟩
    · simp only [impliesNull, Bool.and_eq_true, beq_iff_eq] at nullable
      exact nullable.1.1
    · rw [isNormal]
      exact named.accepts_withNull members
  next => exact ⟨Or.inl rfl, classes.accepts_refl type⟩

theorem scan_hint {hint : Hint} (named : hint.isNamed) {text : String} {rest : List Char}
    (isText : text.toList = hint.text.toList ++ ' ' :: rest) :
    (Token.scan text.toList).tokens = (Token.scanFrom 0 false hint.text.toList).tokens ++
      (Token.scanFrom (0 + Text.byteSize hint.text.toList + 1) true rest).tokens := by
  have plain : ∀ c ∈ hint.text.toList, ¬ Token.isQuote c :=
    fun c inText => (plain_of_isHintChar (Hint.isHintChar_of_mem named c inText)).2
  rw [isText, Token.scan]
  exact Token.scanFrom_append_blank (by decide) rest 0 false _ plain

/-- A parameter whose tag repeats its native type, or `mixed` where it has none, has the documented type, and
`null` where the default adds it. -/
theorem WellNamed.read_parameter (wellNamed : classes.WellNamed) {scope : Scope} {parameter : Parameter}
    (named : ∀ hint ∈ parameter.hint, hint.isNamed) (isVariable : isVariableName parameter.name) {type : DocType}
    (read : (classes.readTypedName scope (repeatedText parameter.hint ++ " " ++ parameter.name) .withPassMode
      false).type = some type) :
    ∃ native, (classes.readTypedName scope parameter.signature .withDefault true).type = some native ∧
      (native = type ∨ native = classes.withNull type) ∧ classes.accepts native type := by
  obtain ⟨hint, isNamed, isText⟩ := exists_hint named
  obtain ⟨cs, isName, nameChars⟩ : ∃ cs, parameter.name.toList = '$' :: cs ∧ ∀ c ∈ cs, Scan.isNameChar c := by
    simp only [isVariableName, Bool.and_eq_true, beq_iff_eq, List.all_eq_true] at isVariable
    cases chars : parameter.name.toList with
    | nil => simp [chars] at isVariable
    | cons c cs =>
      rw [chars] at isVariable
      exact ⟨cs, by rw [Option.some.inj isVariable.1], isVariable.2⟩
  obtain ⟨value, isSignature⟩ : ∃ value : String, parameter.signature.toList = hint.text.toList ++ ' ' ::
      ((if parameter.byReference then "&" else "").toList ++
        ((if parameter.splat then "..." else "").toList ++ '$' :: (cs ++ value.toList))) := by
    rw [repeatedText] at isText
    simp only [Parameter.signature, isText, String.toList_append, isName, List.append_assoc]
    exact ⟨_, rfl⟩
  have isDocumented : (repeatedText parameter.hint ++ " " ++ parameter.name).toList =
      hint.text.toList ++ ' ' :: '$' :: cs := by
    simp only [isText, String.toList_append, isName, List.append_assoc]
    rfl
  obtain ⟨nonempty, hinted⟩ := hinted_scan isNamed
  obtain ⟨first, more, tokens, firstVariable, _⟩ :=
    variable_scan cs (0 + Text.byteSize hint.text.toList + 1) true
  obtain ⟨first', more', tokens', stops', isSpaced⟩ := signature_scan parameter.byReference parameter.splat
    (cs ++ value.toList) (0 + Text.byteSize hint.text.toList + 1)
  have bare : ∀ token ∈ first :: more, token.text ∉ argumentMarks := by
    intro token isToken
    refine not_argumentMark fun c inToken => ?_
    rcases List.mem_cons.mp (Token.mem_of_mem_scanFrom (tokens ▸ isToken) c inToken) with isDollar | inName
    · exact Or.inr isDollar
    · exact Or.inl (by simp [isHintChar, isNamePart, nameChars c inName])
  have spaced : ∀ token ∈ (first' :: more').head?, token.spaced := by
    intro token isFirst
    exact Option.some.inj isFirst ▸ isSpaced
  obtain ⟨native, readNative, same, accepts⟩ := wellNamed.read_alike (tokens ▸ scan_hint isNamed isDocumented)
    (tokens' ▸ scan_hint isNamed isSignature) nonempty hinted bare (stops_of_variable firstVariable) stops' spaced
    (by decide) read
  exact ⟨native, readNative, same.imp_right And.right, accepts⟩

/-- A type on its own that repeats a native one is that type. -/
theorem WellNamed.read_result (wellNamed : classes.WellNamed) {scope : Scope} {hint : Hint} (named : hint.isNamed)
    {type : DocType} (read : (classes.readTypedName scope hint.text .typeOnly false).type = some type) :
    (classes.readTypedName scope hint.text .typeOnly true).type = some type := by
  obtain ⟨nonempty, hinted⟩ := hinted_scan named
  have whole : (Token.scan hint.text.toList).tokens = (Token.scanFrom 0 false hint.text.toList).tokens ++ [] := by
    rw [List.append_nil, Token.scan]
  have stops : Stops [] := ⟨fun _ _ => by simp, fun isAnd => absurd isAnd (by simp)⟩
  obtain ⟨native, readNative, same | ⟨withDefault, _⟩, _⟩ :=
    wellNamed.read_alike whole whole nonempty hinted (by simp) stops stops (by simp) (by decide) read
  · rw [readNative, same]
  · exact absurd withDefault (by decide)

/-- Repeating a native type, or `mixed` where there is none, is never a mismatch: not at a parameter, whatever
its markers and its default, and not at a result or a property. -/
theorem repeated_hint_compatible (wellNamed : classes.WellNamed) (scope : Scope) :
    (∀ parameter : Parameter, (∀ hint ∈ parameter.hint, hint.isNamed) → isVariableName parameter.name → ∀ type,
      (classes.readTypedName scope (repeatedText parameter.hint ++ " " ++ parameter.name) .withPassMode
        false).type = some type →
      ((classes.readTypedName scope parameter.signature .withDefault true).type = some type ∨
        (classes.readTypedName scope parameter.signature .withDefault true).type = some (classes.withNull type)) ∧
      classes.compatible (classes.readTypedName scope parameter.signature .withDefault true).type (some type)) ∧
    ∀ hint : Option Hint, (∀ given ∈ hint, given.isNamed) → ∀ type,
      (classes.readTypedName scope (repeatedText hint) .typeOnly false).type = some type →
      classes.compatible (Check.Reader.native ⟨classes, scope⟩ (hint.map Hint.text)) (some type) := by
  constructor
  · intro parameter named isVariable type read
    obtain ⟨native, readNative, same, accepts⟩ := wellNamed.read_parameter named isVariable read
    rw [readNative]
    exact ⟨same.imp (congrArg some) (congrArg some), accepts⟩
  · intro hint named type read
    cases hint with
    | none => exact accepts_iff.mpr (Or.inl rfl)
    | some given =>
      have readNative := wellNamed.read_result (named given rfl) read
      rw [Option.map_some, Check.Reader.native, readNative]
      exact classes.accepts_refl type

/-- A reference with a default of `null`, and a result. -/
theorem repeated_hint_compatible_reference :
    cyclicTable.WellNamed ∧
      Hint.isNamed (.union (.grouped (.intersection (.name "\\Bar") (.name "Foo"))) (.name "INT")) ∧
      isVariableName "$x" ∧
      (cyclicTable.readTypedName .root "(\\Bar&Foo)|INT $x" .withPassMode false).type =
        some ⟨["\\Bar&\\Foo", "int"]⟩ ∧
      cyclicTable.compatible
        (cyclicTable.readTypedName .root "(\\Bar&Foo)|INT &...$x = NULL" .withDefault true).type
        (some ⟨["\\Bar&\\Foo", "int"]⟩) ∧
      cyclicTable.compatible (Check.Reader.native ⟨cyclicTable, .root⟩ (some "(\\Bar&Foo)|INT"))
        (some ⟨["\\Bar&\\Foo", "int"]⟩) := by
  have wellNamed : cyclicTable.WellNamed := by decide
  have named : ∀ hint ∈ some (Hint.union (.grouped (.intersection (.name "\\Bar") (.name "Foo"))) (.name "INT")),
      hint.isNamed := by decide
  have read : (cyclicTable.readTypedName .root "(\\Bar&Foo)|INT $x" .withPassMode false).type =
      some ⟨["\\Bar&\\Foo", "int"]⟩ := by decide +kernel
  have readResult : (cyclicTable.readTypedName .root "(\\Bar&Foo)|INT" .typeOnly false).type =
      some ⟨["\\Bar&\\Foo", "int"]⟩ := by decide +kernel
  obtain ⟨ofParameters, ofResults⟩ := repeated_hint_compatible wellNamed .root
  have onParameter := ofParameters ⟨0, some (.union (.grouped (.intersection (.name "\\Bar") (.name "Foo")))
    (.name "INT")), true, true, "$x", false, some "NULL"⟩ named (by decide) _ read
  exact ⟨wellNamed, by decide, by decide, read, onParameter.2, ofResults _ named _ readResult⟩

end ClassTable

end DocTypes
