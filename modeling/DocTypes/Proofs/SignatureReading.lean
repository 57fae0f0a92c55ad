import DocTypes.Php.Node
import DocTypes.Proofs.GrammarExactness
import DocTypes.Proofs.ReturnedTypes
import DocTypes.Proofs.StyleFix
import DocTypes.Proofs.UnionSearches
import Mathlib.Data.List.DropRight

namespace DocTypes

namespace Text

theorem isBlank_of_isTypeSpace {c : Char} (blank : isTypeSpace c) : isBlank c :=
  forall_blank (p := (isBlank ·)) (by decide) blank

theorem length_trim_le (cs : List Char) : (trim cs).length ≤ (cs.dropWhile isBlank).length := by
  have shorter := List.length_dropWhile_le isBlank (cs.dropWhile isBlank).reverse
  rw [List.length_reverse] at shorter
  rw [trim, dropWhileEnd, List.length_reverse]
  exact shorter

/-- A text without blanks at its ends starts with no blank. -/
theorem head_of_trim {cs : List Char} (trimmed : trim cs = cs) : ∀ first ∈ cs.head?, ¬ isTypeSpace first := by
  intro first isFirst blank
  obtain ⟨tail, rfl⟩ := List.head?_eq_some_iff.mp isFirst
  have shorter := length_trim_le (first :: tail)
  rw [trimmed, List.dropWhile_cons_of_pos (isBlank_of_isTypeSpace blank), List.length_cons] at shorter
  have := List.length_dropWhile_le isBlank tail
  omega

theorem trim_trim (cs : List Char) : trim (trim cs) = trim cs := by
  have front : (trim cs).dropWhile isBlank = trim cs := by
    cases isTrim : trim cs with
    | nil => rfl
    | cons first rest =>
      have isFront : trim cs <+: cs.dropWhile isBlank := List.rdropWhile_prefix isBlank _
      rw [isTrim] at isFront
      obtain ⟨more, whole⟩ := isFront
      have kept := List.head?_dropWhile_not isBlank cs
      rw [← whole] at kept
      exact List.dropWhile_cons_of_neg (by simpa using kept)
  rw [trim, front]
  exact List.rdropWhile_idempotent isBlank (cs.dropWhile isBlank)

/-- A word of letters is in any case a word of letters. -/
theorem isAlpha_of_sameWord {s word : String} (letters : ∀ c ∈ word.toList, c.isAlpha) (same : sameWord s word) :
    ∀ c ∈ s.toList, c.isAlpha := by
  intro c inText
  have lowered : lower s = lower word := by simpa [sameWord] using same
  have lists : s.toList.map Char.toLower = word.toList.map Char.toLower := by
    simpa [lower] using congrArg String.toList lowered
  obtain ⟨d, inWord, isLower⟩ := List.mem_map.mp (lists ▸ List.mem_map_of_mem inText)
  rw [← isAlpha_toLower, ← isLower, isAlpha_toLower]
  exact letters d inWord

end Text

namespace Token

/-- A name that is one token: `$`, a letter or `_`, and further letters, digits and `_`. -/
def isPlainVariable (name : String) : Bool :=
  match name.toList with
  | '$' :: c :: cs => (c.isAlpha || c == '_') && cs.all fun d => d.isAlphanum || d == '_'
  | _ => false

theorem exists_of_isPlainVariable {name : String} (isName : isPlainVariable name) :
    ∃ tail, name.toList = '$' :: tail ∧ ∀ c ∈ tail, continuesWord '$' c := by
  unfold isPlainVariable at isName
  split at isName
  next c cs chars =>
    simp only [Bool.and_eq_true, List.all_eq_true] at isName
    refine ⟨c :: cs, chars, List.forall_mem_cons.mpr ⟨?_, fun d member => ?_⟩⟩
    · have start := isName.1
      simp only [Bool.or_eq_true, beq_iff_eq] at start
      simp only [continuesWord, Char.isAlphanum, Bool.or_eq_true, beq_iff_eq]
      exact Or.inl (start.imp_left Or.inl)
    · have continues := isName.2 d member
      simp only [Bool.or_eq_true, beq_iff_eq] at continues
      simp only [continuesWord, Bool.or_eq_true, beq_iff_eq]
      exact Or.inl continues
  next => simp at isName

/-- Where words start and end: the first token of a text that starts with a whole word. -/
theorem cut_word {first : Char} {tail rest : List Char} (starts : isWordStart first)
    (continues : ∀ c ∈ tail, continuesWord first c) (stops : ∀ c ∈ rest.head?, ¬ continuesWord first c) :
    Cut (first :: tail ++ rest) [] first tail rest := by
  refine ⟨rfl, List.forall_mem_nil _, ?_, ?_⟩
  · exact fun blank => Text.forall_blank (p := (¬ isWordStart ·)) (by decide) blank starts
  · rw [tailLength_eq, if_pos starts, length_takeWhile_append.mpr ⟨continues, stops⟩]

/-- A word of letters is one token. -/
theorem exists_cut_letters {word : String} (nonempty : word ≠ "") (letters : ∀ c ∈ word.toList, c.isAlpha)
    {blanks : List Char} (blank : ∀ c ∈ blanks, Text.isTypeSpace c) :
    ∃ first tail, String.ofList (first :: tail) = word ∧ Cut (blanks ++ word.toList) blanks first tail [] := by
  cases chars : word.toList with
  | nil => exact absurd (String.toList_eq_nil_iff.mp chars) nonempty
  | cons first tail =>
    rw [chars] at letters
    have cut : Cut (first :: tail ++ []) [] first tail [] := by
      refine cut_word ?_ (fun c inTail => ?_) (by simp)
      · simp [isWordStart, letters first (List.mem_cons_self ..)]
      · simp [continuesWord, Char.isAlphanum, letters c (List.mem_cons_of_mem _ inTail)]
    refine ⟨first, tail, by rw [← chars, String.ofList_toList], ?_, blank, cut.notBlank, cut.length⟩
    rw [List.append_nil]

theorem cut_reference (rest : List Char) : Cut ("&".toList ++ rest) [] '&' [] rest :=
  ⟨rfl, List.forall_mem_nil _, by decide, by simp [tailLength, isWordStart]⟩

theorem cut_splat (rest : List Char) : Cut ("...".toList ++ rest) [] '.' ['.', '.'] rest :=
  ⟨rfl, List.forall_mem_nil _, by decide, by simp [tailLength, isWordStart]⟩

theorem cut_equals (rest : List Char) : Cut (' ' :: '=' :: rest) [' '] '=' [] rest :=
  ⟨rfl, by simp [Text.isTypeSpace], by decide, by simp [tailLength, isWordStart]⟩

/-- A blank before the text is a blank before its first token. -/
theorem spaced_head (offset : Nat) (cs : List Char) :
    ∀ token ∈ (scanFrom offset true cs).tokens.head?, token.spaced := by
  intro token isFirst
  have some : (scanFrom offset true cs).tokens ≠ [] := by
    intro none
    simp [none] at isFirst
  obtain ⟨blanks, first, tail, rest, cut⟩ := exists_cut some
  rw [cut.scanFrom] at isFirst
  obtain rfl := Option.some.inj isFirst
  rfl

/-- Whether the tokens of a text go up to its end: a string that is never closed ends them where it opens. -/
def ClosesStrings (text : List Char) : Prop :=
  (scan text).ending.start = Text.byteSize text

instance (text : List Char) : Decidable (ClosesStrings text) :=
  inferInstanceAs (Decidable (_ = _))

/-- A string that is left open swallows what follows the text, or ends the tokens as before. -/
theorem scanFrom_append_of_open {blank : Char} (isBlank : Text.isTypeSpace blank) (rest : List Char) (offset : Nat)
    (spaced : Bool) (cs : List Char)
    (isOpen : (scanFrom offset spaced cs).ending.start ≠ offset + Text.byteSize cs) :
    ∃ more, (scanFrom offset spaced (cs ++ blank :: rest)).tokens = (scanFrom offset spaced cs).tokens ++ more ∧
      ∀ token ∈ more.head?, isStringLiteral token.text := by
  fun_induction scanFrom offset spaced cs with
  | case1 => exact absurd rfl isOpen
  | case2 offset spaced c cs blankFirst ih =>
    rw [Text.byteSize, Text.utf8Size_blank blankFirst, ← Nat.add_assoc] at isOpen
    rw [List.cons_append, scanFrom, if_pos blankFirst]
    exact ih isOpen
  | case3 offset spaced c cs notBlank unclosed =>
    have quote : isQuote c := by
      by_contra plain
      obtain ⟨n, length⟩ := tailLength_isSome plain cs
      rw [unclosed] at length
      exact absurd length (by simp)
    rw [List.cons_append, scanFrom, if_neg notBlank]
    cases tailLength c (cs ++ blank :: rest) with
    | none => exact ⟨[], rfl, by simp⟩
    | some n => exact ⟨_, rfl, by simpa [isStringLiteral, isQuote] using quote⟩
  | case4 offset spaced c cs notBlank n length text stop tokens ih =>
    have bound := tailLength_le length
    rw [Text.byteSize_cut c cs n, ← Nat.add_assoc] at isOpen
    obtain ⟨more, appended, opens⟩ := ih isOpen
    refine ⟨more, ?_, opens⟩
    rw [List.cons_append, scanFrom, if_neg notBlank, tailLength_append_of_some isBlank length rest]
    simp only [List.take_append_of_le_length bound, List.drop_append_of_le_length bound, List.cons_append]
    rw [appended]

end Token

namespace Cursor

/-- A cursor whose tokens ahead are those of the text behind `before`. -/
structure StandsAt (c : Cursor) (before rest : List Char) : Prop where
  text : c.text = before ++ rest
  stream : ∃ spaced, Token.scanFrom (Text.byteSize before) spaced rest = ⟨c.ahead, c.ending⟩

variable {c : Cursor} {before rest : List Char}

theorem StandsAt.ahead_nil (stands : c.StandsAt before []) : c.ahead = [] := by
  obtain ⟨spaced, scanned⟩ := stands.stream
  rw [Token.scanFrom] at scanned
  exact (congrArg TokenStream.tokens scanned).symm

/-- The first token of the text is the current one, and behind it the cursor stands at the rest. -/
theorem StandsAt.advance (stands : c.StandsAt before rest) {blanks : List Char} {first : Char}
    {tail others : List Char} (cut : Token.Cut rest blanks first tail others) :
    c.peek 0 = some (String.ofList (first :: tail)) ∧
      c.advance.StandsAt (before ++ blanks ++ first :: tail) others := by
  obtain ⟨spaced, scanned⟩ := stands.stream
  rw [cut.scanFrom, TokenStream.mk.injEq] at scanned
  obtain ⟨ahead, ending⟩ := scanned
  refine ⟨?_, stands.text.trans (cut.joined before), false, ?_⟩
  · rw [peek, ← ahead]
    rfl
  · rw [← Token.stop_behind before blanks (first :: tail) spaced, Cursor.advance, ← ahead, ← ending]
    rfl

/-- The text from the current token starts behind the blanks. -/
theorem StandsAt.restFrom {blanks : List Char} (stands : c.StandsAt before (blanks ++ rest))
    (blank : ∀ b ∈ blanks, Text.isTypeSpace b) (notBlank : ∀ first ∈ rest.head?, ¬ Text.isTypeSpace first) :
    c.restFrom 0 = rest := by
  obtain ⟨spaced, scanned⟩ := stands.stream
  have start : (c.spanAt 0).1 = Text.byteSize (before ++ blanks) := by
    rw [Token.scanFrom_blanks blank, ← Text.byteSize_append] at scanned
    cases rest with
    | nil =>
      rw [Token.scanFrom, TokenStream.mk.injEq] at scanned
      rw [spanAt, ← scanned.1, ← scanned.2]
      rfl
    | cons first more =>
      rw [Token.scanFrom, if_neg (notBlank first rfl)] at scanned
      split at scanned
      · rw [TokenStream.mk.injEq] at scanned
        rw [spanAt, ← scanned.1, ← scanned.2]
        rfl
      · rw [TokenStream.mk.injEq] at scanned
        rw [spanAt, ← scanned.1]
        rfl
  rw [Cursor.restFrom, start, stands.text, ← List.append_assoc, Text.dropBytes_byteSize]

theorem restFrom_one {token : Token} {more : List Token} (ahead : c.ahead = token :: more) :
    c.restFrom 1 = c.advance.restFrom 0 := by
  rw [Cursor.restFrom, Cursor.restFrom, spanAt, spanAt, Cursor.advance, ahead]
  cases more <;> rfl

theorem atFieldEnd_of_spaced (spaced : ∀ token ∈ c.ahead.head?, token.spaced) : c.atFieldEnd := by
  unfold atFieldEnd
  split
  · rfl
  next token more ahead =>
    rw [ahead] at spaced
    simp [spaced token rfl]

/-- A marker that is written is stepped over, and one that is not written is not found. -/
theorem StandsAt.eat {marker : String} {first : Char} {tail : List Char} {written : Bool}
    (stands : c.StandsAt before ((if written then marker else "").toList ++ rest))
    (chars : marker.toList = first :: tail) (cut : Token.Cut (marker.toList ++ rest) [] first tail rest)
    (other : ∀ c before, StandsAt c before rest → c.peek 0 ≠ some marker) :
    ∃ after before', c.eat marker = (written, after) ∧ after.StandsAt before' rest := by
  cases written with
  | true =>
    obtain ⟨current, next⟩ := stands.advance cut
    have isMarker : String.ofList (first :: tail) = marker := by rw [← chars, String.ofList_toList]
    exact ⟨c.advance, _, by rw [Cursor.eat, current, isMarker, if_pos rfl], next⟩
  | false => exact ⟨c, before, if_neg (other c before stands), stands⟩

end Cursor

/-- What is found behind a variable's name: nothing, or `=` and the default. -/
def defaultText (default : Option String) : String :=
  (default.map (" = " ++ ·)).getD ""

/-- A signature: a type, the markers, a name and a default. -/
def signatureText (type : String) (byReference splat : Bool) (name : String) (default : Option String) : String :=
  let markers := (if byReference then "&" else "") ++ if splat then "..." else ""
  type ++ " " ++ markers ++ name ++ defaultText default

namespace Php.Parameter

/-- The text of the type, `mixed` where there is none. -/
def typeText (parameter : Parameter) : String :=
  (parameter.hint.map Hint.text).getD "mixed"

/-- The text of the default without the blanks around it. -/
def valueText (parameter : Parameter) : Option String :=
  parameter.default.map fun value => String.ofList (Text.trim value.toList)

/-- The signature of a native parameter is made of these. -/
theorem signature_eq (parameter : Parameter) :
    parameter.signature = signatureText parameter.typeText parameter.byReference parameter.splat parameter.name
      parameter.valueText := by
  rw [signature, signatureText, defaultText, valueText]
  cases parameter.default <;> rfl

theorem trim_valueText (parameter : Parameter) :
    ∀ value ∈ parameter.valueText, Text.trim value.toList = value.toList := by
  intro value isValue
  obtain ⟨default, _, rfl⟩ := Option.map_eq_some_iff.mp isValue
  rw [String.toList_ofList, Text.trim_trim]

end Php.Parameter

theorem toList_signatureText (type : String) (byReference splat : Bool) (name : String) (default : Option String) :
    (signatureText type byReference splat name default).toList =
      type.toList ++ ' ' :: ((if byReference then "&" else "").toList ++
        ((if splat then "..." else "").toList ++ (name.toList ++ (defaultText default).toList))) := by
  simp only [signatureText, String.toList_append, List.append_assoc]
  rfl

namespace Grammar

/-- A text that is all type is that type in front of tokens that go on no type. -/
theorem reads_type_append {ctx : Context} {text longer : List Char} {type : DocType} {after : Cursor}
    {more : List Token} (reads : Reads (Grammar.type ctx) (Cursor.ofText text) type after)
    (consumed : after.ahead = []) (tokens : (Token.scan longer).tokens = (Token.scan text).tokens ++ more)
    (ends : ∀ grip : Grip, grip.Ends (more.map Token.text)) :
    ∃ after', Reads (Grammar.type ctx) (Cursor.ofText longer) type after' ∧ after'.text = longer ∧
      after'.ahead = more ∧ after'.ending = (Token.scan longer).ending := by
  have exactType := (exact_level ctx ctx.limit).readsType
  -- the tokens of the text have a derivation, and that does not depend on what follows them
  obtain ⟨p, grip, texts, derives, _⟩ :=
    (exactType (Cursor.ofText text) trivial type after.texts).mp ⟨after, reads, rfl⟩
  rw [show after.texts = [] by rw [Cursor.texts, consumed]; rfl, List.append_nil] at texts
  have appended : (Cursor.ofText longer).texts = p ++ more.map Token.text := by
    rw [← texts, Cursor.texts, Cursor.texts, Cursor.ofText, Cursor.ofText, tokens, List.map_append]
  obtain ⟨after', reads', left⟩ := (exactType (Cursor.ofText longer) trivial type _).mpr
    ⟨p, grip, appended, derives, ends grip⟩
  obtain ⟨used, spent, _⟩ := (level_rereads ctx ctx.limit).anyType false _ type after' reads'
  refine ⟨after', reads', spent.text, ?_, spent.ending⟩
  refine List.append_inj_right' (spent.ahead.symm.trans tokens) ?_
  have lengths := congrArg List.length left
  rwa [Cursor.texts, List.length_map, List.length_map] at lengths

/-- A text that is all type and leaves no string open is that type in front of a blank and something that goes on no
type. -/
theorem reads_delimitedType_append {ctx : Context} {text rest : List Char} {type : DocType} {after : Cursor}
    (reads : Reads (delimitedType ctx) (Cursor.ofText text) type after) (consumed : after.ahead = [])
    (closed : Token.ClosesStrings text)
    (ends : ∀ c before, Cursor.StandsAt c before rest → ∀ grip : Grip, grip.Ends c.texts) :
    ∃ after', Reads (delimitedType ctx) (Cursor.ofText (text ++ ' ' :: rest)) type after' ∧
      after'.StandsAt (text ++ [' ']) rest := by
  have scanned := Token.scanFrom_append_of_closed (by decide : Text.isTypeSpace ' ') rest 0 false text
    (by rw [Nat.zero_add]; exact closed)
  rw [← Token.scan, ← Token.scan, Nat.zero_add] at scanned
  have size : Text.byteSize (text ++ [' ']) = Text.byteSize text + 1 := Text.byteSize_append ..
  obtain ⟨after', reads', isText, behind, ending⟩ :=
    reads_type_append (reads_delimitedType.mp reads).1 consumed (congrArg TokenStream.tokens scanned)
      (ends ⟨text ++ [' '] ++ rest, _, (Token.scanFrom (Text.byteSize text + 1) true rest).ending, []⟩
        (text ++ [' ']) ⟨rfl, true, by rw [size]⟩)
  refine ⟨after', reads_delimitedType.mpr ⟨reads', ?_⟩, ?_, true, ?_⟩
  · exact Cursor.atFieldEnd_of_spaced (behind ▸ Token.spaced_head _ _)
  · rw [isText, List.append_assoc]
    rfl
  · rw [size, behind, ending, scanned]

section Suffix

variable {name : String} (isName : Token.isPlainVariable name) (default : Option String)

include isName

theorem isVariable_of_isPlainVariable : Token.isVariable name := by
  obtain ⟨tail, chars, _⟩ := Token.exists_of_isPlainVariable isName
  simp [Token.isVariable, chars]

/-- A name is a token up to its default. -/
theorem cut_name : ∃ tail, String.ofList ('$' :: tail) = name ∧
    Token.Cut (name.toList ++ (defaultText default).toList) [] '$' tail (defaultText default).toList := by
  obtain ⟨tail, chars, continues⟩ := Token.exists_of_isPlainVariable isName
  refine ⟨tail, by rw [← chars, String.ofList_toList], ?_⟩
  rw [chars]
  refine Token.cut_word (by decide) continues fun c isHead => ?_
  cases default with
  | none => simp [defaultText] at isHead
  | some text =>
    obtain rfl : ' ' = c := by simpa [defaultText] using isHead
    decide

variable {c : Cursor} {before : List Char}

theorem peek_name (stands : c.StandsAt before (name.toList ++ (defaultText default).toList)) :
    c.peek 0 = some name := by
  obtain ⟨tail, isName, cut⟩ := cut_name isName default
  rw [(stands.advance cut).1, isName]

/-- The marker `...` or the name is next. -/
theorem peek_splat {splat : Bool} (stands : c.StandsAt before
    ((if splat then "..." else "").toList ++ (name.toList ++ (defaultText default).toList))) :
    c.peek 0 = some (if splat then "..." else name) := by
  cases splat with
  | true => exact (stands.advance (Token.cut_splat _)).1
  | false => exact peek_name isName default stands

theorem marksReference_splat (splat : Bool) : marksReference (some (if splat then "..." else name)) := by
  cases splat with
  | true => rfl
  | false => simp [marksReference, isVariable_of_isPlainVariable isName]

/-- Neither markers nor a name go on a type. -/
theorem ends_signature {byReference splat : Bool} (stands : c.StandsAt before
    ((if byReference then "&" else "").toList ++
      ((if splat then "..." else "").toList ++ (name.toList ++ (defaultText default).toList)))) (grip : Grip) :
    grip.Ends c.texts := by
  cases byReference with
  | true =>
    obtain ⟨current, next⟩ := stands.advance (Token.cut_reference _)
    have texts : c.texts = "&" :: c.advance.texts := by
      rw [Cursor.peek_zero] at current
      rw [texts_advance, ← List.cons_head?_tail current]
      rfl
    rw [texts]
    refine grip.ends_reference ?_
    rw [← Cursor.peek_zero, peek_splat isName default next]
    exact marksReference_splat isName splat
  | false =>
    refine grip.ends_of_marksReference ?_
    rw [← Cursor.peek_zero, peek_splat isName default stands]
    exact marksReference_splat isName splat

end Suffix

/-- Where a default is given, `=` is next, and behind it the default. -/
theorem equals_defaultText {c : Cursor} {before : List Char} {value : String}
    (stands : c.StandsAt before (defaultText (some value)).toList) :
    c.peek 0 = some "=" ∧ ∃ before', c.advance.StandsAt before' ([' '] ++ value.toList) := by
  have chars : (defaultText (some value)).toList = ' ' :: '=' :: ([' '] ++ value.toList) := by
    simp [defaultText]
  rw [chars] at stands
  obtain ⟨equals, next⟩ := stands.advance (Token.cut_equals _)
  exact ⟨equals, _, next⟩

/-- The default is null where its text is. -/
theorem nullDefault_defaultText {c : Cursor} {before : List Char} {default : Option String}
    (trimmed : ∀ value ∈ default, Text.trim value.toList = value.toList)
    (stands : c.StandsAt before (defaultText default).toList) :
    nullDefault c = default.any (Text.sameWord · "null") := by
  cases default with
  | none => simp [nullDefault, Cursor.peek, stands.ahead_nil]
  | some value =>
    obtain ⟨equals, _, next⟩ := equals_defaultText stands
    obtain ⟨token, more, ahead⟩ : ∃ token more, c.ahead = token :: more := by
      cases ahead : c.ahead with
      | nil => simp [Cursor.peek, ahead] at equals
      | cons token more => exact ⟨token, more, rfl⟩
    have value_eq : c.restFrom 1 = value.toList := by
      rw [Cursor.restFrom_one ahead]
      exact next.restFrom (by simp [Text.isTypeSpace]) (Text.head_of_trim (trimmed value rfl))
    have following : c.peek 1 = c.advance.peek 0 := by simp [Cursor.peek, Cursor.advance, ahead]
    rw [nullDefault, value_eq, trimmed value rfl, String.ofList_toList, following]
    simp only [equals, decide_true, Bool.true_and, Option.any_some]
    cases isNull : Text.sameWord value "null" with
    | false => rw [Bool.and_false]
    | true =>
      -- letters are one word, so the token behind `=` is the whole default
      have current : c.advance.peek 0 = some value := by
        have nonempty : value ≠ "" := by
          rintro rfl
          exact absurd isNull (by decide)
        obtain ⟨first, tail, isValue, cut⟩ :=
          Token.exists_cut_letters nonempty (Text.isAlpha_of_sameWord (by simp) isNull)
            (show ∀ c ∈ [' '], Text.isTypeSpace c by simp [Text.isTypeSpace])
        rw [(next.advance cut).1, isValue]
      simp [current, isNull]

theorem fieldsBehind_withDefault (c : Cursor) :
    fieldsBehind .withDefault c = (⟨(c.eat "&").1, ((c.eat "&").2.eat "...").1⟩,
      attempt .name (variableName .withDefault) ((c.eat "&").2.eat "...").2) :=
  rfl

/-- Behind a type the markers and the name of a signature are found, up to the default. -/
theorem fieldsBehind_signature {name : String} (isName : Token.isPlainVariable name) (default : Option String)
    {byReference splat : Bool} {c : Cursor} {before : List Char} (stands : c.StandsAt before
      ((if byReference then "&" else "").toList ++
        ((if splat then "..." else "").toList ++ (name.toList ++ (defaultText default).toList)))) :
    ∃ last before', fieldsBehind .withDefault c = (⟨byReference, splat⟩, some name, last, []) ∧
      last.StandsAt before' (defaultText default).toList := by
  have isVariable := isVariable_of_isPlainVariable isName
  obtain ⟨afterReference, _, reference, standsReference⟩ :=
    stands.eat rfl (Token.cut_reference _) fun c before stands => by
      rw [peek_splat isName default stands]
      intro same
      have marks := marksReference_splat isName splat
      rw [same] at marks
      exact absurd marks (by decide)
  obtain ⟨beforeName, _, splatted, standsName⟩ :=
    standsReference.eat rfl (Token.cut_splat _) fun c before stands => by
      rw [peek_name isName default stands]
      rintro ⟨⟩
      exact absurd isVariable (by decide)
  obtain ⟨tail, _, cut⟩ := cut_name isName default
  have next := (standsName.advance cut).2
  refine ⟨beforeName.advance, _, ?_, next⟩
  have named : attempt .name (variableName .withDefault) beforeName = (some name, beforeName.advance, []) := by
    rw [variableName_eq, attempt_fieldName, peek_name isName default standsName, Option.any_some, if_pos isVariable]
    refine if_pos ?_
    cases default with
    | none => simp [Cursor.atFieldEnd, next.ahead_nil]
    | some value => simp [(equals_defaultText next).1, Extent.includes]
  rw [fieldsBehind_withDefault, reference, splatted, named]

/-- No name is found where a string stands, nor at the end. -/
theorem fieldsBehind_string {c : Cursor} (opens : ∀ token ∈ c.ahead.head?, Token.isStringLiteral token.text) :
    (fieldsBehind .withDefault c).2.1 = none := by
  have front : ∀ text ∈ c.peek 0, Token.isStringLiteral text := by
    intro text isFront
    rw [Cursor.peek, ← List.head?_eq_getElem?] at isFront
    obtain ⟨token, isFirst, rfl⟩ := Option.map_eq_some_iff.mp isFront
    exact opens token isFirst
  have stays : ∀ mark, ¬ Token.isStringLiteral mark → c.eat mark = (false, c) :=
    fun mark other => if_neg fun isMark => other (front mark isMark)
  have noName : ¬ (c.peek 0).any Token.isVariable := by
    cases isFront : c.peek 0 with
    | none => simp
    | some text =>
      intro isVariable
      have isFirst : text.toList.head? = some '$' := by simpa [Token.isVariable] using isVariable
      have isString := front text isFront
      rw [Token.isStringLiteral, isFirst] at isString
      exact absurd isString (by decide)
  rw [fieldsBehind_withDefault, stays "&" (by decide), stays "..." (by decide), variableName_eq, attempt_fieldName,
    if_neg noName]

end Grammar

namespace ClassTable

open Grammar

/-- What a signature was made of, found again. -/
structure ReadBack (typed : TypedName) (type : DocType) (byReference splat : Bool) (name : String) : Prop where
  type : typed.type = some type
  passMode : typed.passMode = ⟨byReference, splat⟩
  name : typed.name = some name

/-- The tokens behind the type that a text starts with, all of them if it starts with none. -/
def tokensBehindType (classes : ClassTable) (scope : Scope) (text : String) (wide : Bool) : List Token :=
  (attempt .type (delimitedType { classes, scope, wide }) (Cursor.ofText text.toList)).2.1.ahead

theorem ite_withNull (classes : ClassTable) (isNull : Bool) (type : DocType) :
    (if isNull then classes.withNull type else type) =
      if isNull ∧ type ≠ .mixed then ⟨classes.normalUnion (type.members ++ ["null"])⟩ else type := by
  cases isNull with
  | false => simp
  | true => by_cases mixed : type = .mixed <;> simp [withNull, mixed]

section Signature

variable {classes : ClassTable} {scope : Scope} {wide : Bool} {text : String} {type : DocType} {after : Cursor}
  (reads : Reads (delimitedType { classes, scope, wide }) (Cursor.ofText text.toList) type after)
  (consumed : after.ahead = [])

include reads consumed

/-- Behind a string that is left open no name is found, unless the type is lost too. -/
theorem name_none_of_open (isOpen : ¬ Token.ClosesStrings text.toList) {longer : String} {rest : List Char}
    (isText : longer.toList = text.toList ++ ' ' :: rest) {found : DocType}
    (read : (classes.readTypedName scope longer .withDefault wide).type = some found) :
    (classes.readTypedName scope longer .withDefault wide).name = none := by
  obtain ⟨more, tokens, opens⟩ := Token.scanFrom_append_of_open (by decide : Text.isTypeSpace ' ') rest 0 false _
    (by rwa [Nat.zero_add])
  have others : ∀ mark ∈ "&" :: "|" :: suffixMarks, ¬ Token.isStringLiteral mark := by decide
  have ends : ∀ grip : Grip, grip.Ends (more.map Token.text) := by
    intro grip
    cases more with
    | nil => exact grip.ends_of_marksReference rfl
    | cons token more => exact grip.ends_mark (fun isMark => others token.text isMark (opens token rfl)) _
  rw [← isText] at tokens
  obtain ⟨after', reads', _, behind, _⟩ :=
    reads_type_append (reads_delimitedType.mp reads).1 consumed tokens ends
  obtain ⟨found', last, delimited, _⟩ := readTypedName_type read
  have same : (type, after') = (found', last) :=
    Except.ok.inj (reads'.symm.trans (reads_delimitedType.mp delimited).1)
  obtain ⟨rfl, rfl⟩ := Prod.mk.inj same
  rw [readTypedName_eq delimited]
  exact fieldsBehind_string (behind ▸ opens)

/-- Where no string is left open the parts are found. -/
theorem read_back_of_closed (closed : Token.ClosesStrings text.toList) (byReference splat : Bool) {name : String}
    (isName : Token.isPlainVariable name) {default : Option String}
    (trimmed : ∀ value ∈ default, Text.trim value.toList = value.toList) :
    ReadBack (classes.readTypedName scope (signatureText text byReference splat name default) .withDefault wide)
      (if default.any (Text.sameWord · "null") then classes.withNull type else type) byReference splat name := by
  obtain ⟨after', reads', stands⟩ := reads_delimitedType_append reads consumed closed
    fun c before stands grip => ends_signature isName default stands grip
  rw [← toList_signatureText] at reads'
  obtain ⟨last, _, fields, standsLast⟩ := fieldsBehind_signature isName default stands
  rw [readTypedName_eq reads', fields]
  refine ⟨?_, rfl, rfl⟩
  simp only [nullDefault_defaultText trimmed standsLast, Option.isSome_some, Bool.and_true]
  exact (apply_ite some _ _ _).symm

/-- The parts are found just if no string is left open. -/
theorem read_back_iff (byReference splat : Bool) {name : String} (isName : Token.isPlainVariable name)
    {default : Option String} (trimmed : ∀ value ∈ default, Text.trim value.toList = value.toList) :
    ReadBack (classes.readTypedName scope (signatureText text byReference splat name default) .withDefault wide)
        (if default.any (Text.sameWord · "null") ∧ type ≠ .mixed then
          ⟨classes.normalUnion (type.members ++ ["null"])⟩ else type) byReference splat name ↔
      Token.ClosesStrings text.toList := by
  constructor
  · intro readBack
    by_contra isOpen
    have noName := name_none_of_open reads consumed isOpen (toList_signatureText ..) readBack.type
    rw [readBack.name] at noName
    exact absurd noName (by simp)
  · intro closed
    have readBack := read_back_of_closed reads consumed closed byReference splat isName trimmed
    rwa [ite_withNull] at readBack

end Signature

/-- A signature made of a text that is all type, markers, a name and perhaps a default is read back to these parts,
with `null` where the default adds it, just if the type leaves no string open. That goes for the signatures of
native parameters. -/
theorem signature_read_back_iff {classes : ClassTable} (named : classes.WellNamed) (scope : Scope) (wide : Bool)
    {text : String} {type : DocType} (read : (classes.readTypedName scope text .typeOnly wide).type = some type)
    (consumed : classes.tokensBehindType scope text wide = []) :
    ∃ union, classes.normalUnion? (type.members ++ ["null"]) = some union ∧
      (∀ (byReference splat : Bool) (name : String) (default : Option String), Token.isPlainVariable name →
        (∀ value ∈ default, Text.trim value.toList = value.toList) →
        (ReadBack
          (classes.readTypedName scope (signatureText text byReference splat name default) .withDefault wide)
          (if default.any (Text.sameWord · "null") ∧ type ≠ .mixed then ⟨union⟩ else type) byReference splat name ↔
            Token.ClosesStrings text.toList)) ∧
      ∀ parameter : Php.Parameter, parameter.typeText = text → Token.isPlainVariable parameter.name →
        (ReadBack (classes.readTypedName scope parameter.signature .withDefault wide)
          (if parameter.valueText.any (Text.sameWord · "null") ∧ type ≠ .mixed then ⟨union⟩ else type)
          parameter.byReference parameter.splat parameter.name ↔ Token.ClosesStrings text.toList) := by
  obtain ⟨found, after, reads, isType⟩ := readTypedName_type read
  have noNull : impliesNull .typeOnly after = false := rfl
  rw [noNull, if_neg Bool.false_ne_true] at isType
  subst isType
  rw [tokensBehindType, attempt_of_reads .type reads] at consumed
  refine ⟨_, named.normalUnion?_eq _, fun byReference splat name default isName trimmed => ?_,
    fun parameter isText isName => ?_⟩
  · exact read_back_iff reads consumed byReference splat isName trimmed
  · rw [parameter.signature_eq, isText]
    exact read_back_iff reads consumed _ _ isName parameter.trim_valueText

/-- An intersection, a string that holds a parameter, and a callable with a reference. -/
def referenceText : String :=
  "\\Traversable&\\Countable|'it\\'s $y'|callable(int &...$x): int[]"

theorem signature_read_back_iff_reference :
    WellNamed .empty ∧
      (readTypedName .empty .root referenceText .typeOnly false).type =
        some ⟨["\\Countable&\\Traversable", "callable", "string"]⟩ ∧
      tokensBehindType .empty .root referenceText false = [] ∧ Token.ClosesStrings referenceText.toList ∧
      ReadBack
        (readTypedName .empty .root (signatureText referenceText true true "$x_1" (some "NULL")) .withDefault false)
        ⟨["\\Countable&\\Traversable", "callable", "null", "string"]⟩ true true "$x_1" := by
  have named : WellNamed .empty := by decide
  have read : (readTypedName .empty .root referenceText .typeOnly false).type =
      some ⟨["\\Countable&\\Traversable", "callable", "string"]⟩ := by decide +kernel
  have consumed : tokensBehindType .empty .root referenceText false = [] := by decide +kernel
  have closed : Token.ClosesStrings referenceText.toList := by decide +kernel
  have trimmed : ∀ value ∈ some "NULL", Text.trim value.toList = value.toList := by
    rintro value ⟨⟩
    decide
  obtain ⟨union, isUnion, parts, _⟩ := signature_read_back_iff named .root false read consumed
  have readBack := (parts true true "$x_1" (some "NULL") (by decide) trimmed).mpr closed
  have widened : normalUnion .empty (["\\Countable&\\Traversable", "callable", "string"] ++ ["null"]) =
      ["\\Countable&\\Traversable", "callable", "null", "string"] := by decide +kernel
  rw [named.normalUnion?_eq, widened, Option.some_inj] at isUnion
  rw [if_pos (by decide), ← isUnion] at readBack
  exact ⟨named, read, consumed, closed, readBack⟩

/-- A string that is left open takes the name with it, though the tokens of the type are all read. And where the
table is not of full names the union with `null` may never be done. -/
theorem open_string_hides_name :
    ((readTypedName .empty .root "int 'abc" .typeOnly false).type = some ⟨["int"]⟩ ∧
      tokensBehindType .empty .root "int 'abc" false = [] ∧ Token.isPlainVariable "$x" ∧
      (readTypedName .empty .root (signatureText "int 'abc" false false "$x" none) .withDefault false).name =
        none) ∧
    (circularTable.readTypedName .root "\\A" .typeOnly false).type = some ⟨["\\A"]⟩ ∧
      circularTable.tokensBehindType .root "\\A" false = [] ∧ Token.ClosesStrings "\\A".toList ∧
      circularTable.normalUnion? (["\\A"] ++ ["null"]) = none :=
  ⟨⟨by decide +kernel, by decide +kernel, by decide, by decide +kernel⟩, by decide +kernel, by decide +kernel,
    by decide +kernel, normalUnion?_circular⟩

end ClassTable

end DocTypes
