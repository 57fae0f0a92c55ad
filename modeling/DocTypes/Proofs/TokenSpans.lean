import DocTypes.Proofs.ByteScanning

namespace DocTypes

/-- What is the `n`th to be found in a text: a token, then the place where the tokens end, and from there on the end
of the text. -/
def TokenStream.get (stream : TokenStream) (n : Nat) : Found :=
  match stream.tokens[n]? with
  | some token => ⟨token.start, token.stop, some token.text⟩
  | none =>
    if n = stream.tokens.length then ⟨stream.ending.start, stream.ending.stop, none⟩
    else ⟨stream.ending.stop, stream.ending.stop, none⟩

namespace TokenStream

variable {tokens : List Token} {ending : Ending}

theorem get_drop {position : Nat} (bound : position ≤ tokens.length) (n : Nat) :
    (⟨tokens.drop position, ending⟩ : TokenStream).get n = (⟨tokens, ending⟩ : TokenStream).get (position + n) := by
  have sameEnd : n = tokens.length - position ↔ position + n = tokens.length := by omega
  simp only [get, List.getElem?_drop, List.length_drop, sameEnd]

theorem text_get (stream : TokenStream) (n : Nat) : (stream.get n).text = stream.tokens[n]?.map Token.text := by
  unfold get
  split
  next found => rw [found, Option.map_some]
  next found =>
    rw [found, Option.map_none]
    split <;> rfl

theorem get_of_length_lt {stream : TokenStream} {n : Nat} (beyond : stream.tokens.length < n) :
    stream.get n = ⟨stream.ending.stop, stream.ending.stop, none⟩ := by
  rw [get, List.getElem?_eq_none (by omega)]
  exact if_neg (by omega)

theorem stop_get {stream : TokenStream} {n : Nat} (beyond : stream.tokens.length ≤ n) :
    (stream.get n).stop = stream.ending.stop := by
  rw [get, List.getElem?_eq_none beyond]
  dsimp only
  split <;> rfl

end TokenStream

/-- What is scanned first is the first token, or where the tokens end. -/
theorem Found.scanAt_eq_get (before cs : List Char) (spaced : Bool) :
    scanAt (before ++ cs) (Text.byteSize before) = (Token.scanFrom (Text.byteSize before) spaced cs).get 0 := by
  obtain blank | ⟨blanks, quote, rest, unclosed⟩ | ⟨blanks, first, tail, rest, cut⟩ :=
    Token.blank_or_unclosed_or_cut cs
  · rw [scanAt_of_blank before blank, Token.scanFrom_of_blank blank, Text.byteSize_append]
    rfl
  · rw [scanAt_of_unclosed before unclosed, unclosed.scanFrom, Text.byteSize_append, Text.byteSize_append]
    rfl
  · rw [scanAt_of_cut before cut spaced, cut.scanFrom]
    rfl

/-- Where the token before the `n`th ends. -/
def stopBefore (found : Nat → Found) : Nat → Nat
  | 0 => 0
  | n + 1 => (found n).stop

namespace Text

/-- Whether a text ends with a blank. -/
def endsBlank (cs : List Char) : Bool :=
  cs.getLast?.any isTypeSpace

theorem endsBlank_append (before : List Char) {cs : List Char} (nonempty : cs ≠ []) :
    endsBlank (before ++ cs) = endsBlank cs := by
  have last := List.getLast?_eq_some_getLast nonempty
  rw [endsBlank, endsBlank, List.getLast?_append, last, Option.some_or]

theorem endsBlank_of_forall {cs : List Char} (plain : ∀ c ∈ cs, ¬ isTypeSpace c) : endsBlank cs = false := by
  unfold endsBlank
  cases last : cs.getLast? with
  | none => rfl
  | some c => simpa using plain c (List.mem_of_getLast? last)

end Text

namespace Token

theorem quotedTail_last {quote : Char} {cs : List Char} {n : Nat} (closed : quotedTail quote cs = some n) :
    (cs.take n).getLast? = some quote := by
  fun_induction quotedTail quote cs generalizing n with
  | case1 => simp at closed
  | case2 cs =>
    cases Option.some.inj closed
    simp
  | case3 => simp at closed
  | case4 escaped rest different ih =>
    obtain ⟨m, isRest, rfl⟩ := Option.map_eq_some_iff.mp closed
    rw [List.take_succ_cons, List.take_succ_cons, List.getLast?_cons, List.getLast?_cons, ih isRest]
    rfl
  | case5 c cs different plain ih =>
    obtain ⟨m, isRest, rfl⟩ := Option.map_eq_some_iff.mp closed
    rw [List.take_succ_cons, List.getLast?_cons, ih isRest]
    rfl

/-- No token ends with a blank. -/
theorem endsBlank_token {first : Char} {tail rest : List Char} (notBlank : ¬ Text.isTypeSpace first)
    (length : tailLength first (tail ++ rest) = some tail.length) : Text.endsBlank (first :: tail) = false := by
  have ofTail (plain : ∀ c ∈ tail, ¬ Text.isTypeSpace c) : Text.endsBlank (first :: tail) = false :=
    Text.endsBlank_of_forall (List.forall_mem_cons.mpr ⟨notBlank, plain⟩)
  rw [tailLength_eq] at length
  split at length
  · rw [Option.some.injEq, length_takeWhile_append] at length
    refine ofTail fun c member isBlank => ?_
    have continues := length.1 c member
    rw [(blank_ends_token first isBlank).2.2.2] at continues
    exact absurd continues (by simp)
  split at length
  · refine ofTail fun c member isBlank => ?_
    obtain ⟨notDot, _, notDigit, _⟩ := blank_ends_token first isBlank
    rcases numberTail_chars (Option.some.inj length) c member with digit | rfl | rfl
    · simp [notDigit] at digit
    · exact absurd isBlank (by decide)
    · exact notDot rfl
  split at length
  · -- a string ends with the quote that opens it
    have last := quotedTail_last length
    rw [List.take_left] at last
    rw [Text.endsBlank, List.getLast?_cons, last]
    simpa using notBlank
  split at length
  next dots =>
    obtain ⟨more, whole⟩ := dots.2
    obtain rfl : ['.', '.'] = tail := (List.append_inj whole (Option.some.inj length)).1
    exact ofTail (by simp [Text.isTypeSpace])
  split at length
  next colons =>
    obtain ⟨more, whole⟩ := colons.2
    obtain rfl : [':'] = tail := (List.append_inj whole (Option.some.inj length)).1
    exact ofTail (by simp [Text.isTypeSpace])
  · obtain rfl : tail = [] := List.length_eq_zero_iff.mp (Option.some.inj length).symm
    exact ofTail (List.forall_mem_nil _)

end Token

/-- A text cut before its `n`th token. -/
structure CutBefore (text : List Char) (n : Nat) (before rest : List Char) : Prop where
  split : text = before ++ rest
  stop : Text.byteSize before = stopBefore (Token.scan text).get n
  scan : Token.scanFrom (Text.byteSize before) (Text.endsBlank before) rest =
    ⟨(Token.scan text).tokens.drop n, (Token.scan text).ending⟩

/-- A text can be cut before each of its tokens, and where they end. -/
theorem exists_cutBefore (text : List Char) {n : Nat} (bound : n ≤ (Token.scan text).tokens.length) :
    ∃ before rest, CutBefore text n before rest := by
  induction n with
  | zero => exact ⟨[], text, rfl, rfl, rfl⟩
  | succ n ih =>
    obtain ⟨before, rest, split, _, scan⟩ := ih (by omega)
    rw [List.drop_eq_getElem_cons bound] at scan
    obtain ⟨blanks, first, tail, others, cut, _, isToken, next⟩ := Token.cut_of_scanFrom scan
    have ends : Text.endsBlank (before ++ blanks ++ first :: tail) = false := by
      rw [Text.endsBlank_append _ (List.cons_ne_nil first tail), Token.endsBlank_token cut.notBlank cut.length]
    have stop : (Token.scan text).tokens[n].stop = Text.byteSize (before ++ blanks ++ first :: tail) := by
      rw [isToken, Token.stop_behind]
    refine ⟨before ++ blanks ++ first :: tail, others, split.trans (cut.joined before), ?_, ?_⟩
    · rw [← stop, stopBefore, TokenStream.get, List.getElem?_eq_getElem bound]
    · rw [ends, ← stop, next]

/-- Scanning behind one token finds the next. -/
theorem Found.scanAt_stopBefore (text : List Char) (n : Nat) :
    scanAt text (stopBefore (Token.scan text).get n) = (Token.scan text).get n := by
  by_cases bound : n ≤ (Token.scan text).tokens.length
  · obtain ⟨before, rest, cut⟩ := exists_cutBefore text bound
    have first := scanAt_eq_get before rest (Text.endsBlank before)
    rwa [cut.scan, TokenStream.get_drop bound, Nat.add_zero, ← cut.split, cut.stop] at first
  · obtain ⟨m, rfl⟩ : ∃ m, n = m + 1 := ⟨n - 1, by omega⟩
    have atEnd : (Token.scan text).ending.stop = Text.byteSize text := by
      rw [Token.scan, Token.stop_ending, Nat.zero_add]
    rw [stopBefore, TokenStream.stop_get (by omega), TokenStream.get_of_length_lt (by omega), atEnd,
      scanAt_byteSize]

namespace Tokenizer

variable {t : Tokenizer}

/-- What has been found is the start of the row of tokens of the text. -/
def Remembers (t : Tokenizer) : Prop :=
  t.found = (List.range t.found.length).map (Token.scan t.text).get

@[simp] theorem findMore_text (t : Tokenizer) (n : Nat) : (t.findMore n).text = t.text := by
  induction n generalizing t with
  | zero => rfl
  | succ n ih => exact ih t.findNext

@[simp] theorem findMore_position (t : Tokenizer) (n : Nat) : (t.findMore n).position = t.position := by
  induction n generalizing t with
  | zero => rfl
  | succ n ih => exact ih t.findNext

@[simp] theorem findMore_corrections (t : Tokenizer) (n : Nat) : (t.findMore n).corrections = t.corrections := by
  induction n generalizing t with
  | zero => rfl
  | succ n ih => exact ih t.findNext

theorem length_found_findMore (t : Tokenizer) (n : Nat) : (t.findMore n).found.length = t.found.length + n := by
  induction n generalizing t with
  | zero => rfl
  | succ n ih =>
    rw [findMore, ih, findNext, List.length_append, List.length_singleton]
    omega

theorem Remembers.findNext (remembers : t.Remembers) : t.findNext.Remembers := by
  have offset : (t.found.getLast?.map Found.stop).getD 0 = stopBefore (Token.scan t.text).get t.found.length := by
    rw [remembers, List.length_map, List.length_range]
    cases t.found.length with
    | zero => rfl
    | succ k => rw [List.range_succ, List.map_append, List.map_singleton, List.getLast?_concat]; rfl
  have found : t.findNext.found = t.found ++ [(Token.scan t.text).get t.found.length] := by
    rw [Tokenizer.findNext, offset, Found.scanAt_stopBefore]
  rw [Remembers, found, List.length_append, List.length_singleton, List.range_succ, List.map_append,
    List.map_singleton]
  exact congrArg (· ++ _) remembers

theorem Remembers.findMore (remembers : t.Remembers) (n : Nat) : (t.findMore n).Remembers := by
  induction n generalizing t with
  | zero => exact remembers
  | succ n ih => exact ih remembers.findNext

/-- A token is what stands there in the row of tokens, whatever has been found before. -/
theorem Remembers.token (remembers : t.Remembers) (n : Nat) :
    (t.token n).1 = (Token.scan t.text).get (t.position + n) := by
  have more := remembers.findMore (t.position + n + 1 - t.found.length)
  have long := length_found_findMore t (t.position + n + 1 - t.found.length)
  rw [Remembers, findMore_text] at more
  rw [Tokenizer.token, more, List.getD_eq_getElem?_getD, List.getElem?_map, List.getElem?_range (by omega)]
  rfl

theorem remembers_ofText (text : List Char) : (ofText text).Remembers :=
  rfl

end Tokenizer

namespace Text

/-- The bytes of the six blanks that separate tokens. -/
def blankBytes : List UInt8 :=
  [0x20, 0x09, 0x0a, 0x0d, 0x0b, 0x0c]

theorem size_toUTF8 (cs : List Char) : (String.ofList cs).toUTF8.size = byteSize cs := by
  induction cs with
  | nil => rfl
  | cons c cs ih =>
    rw [String.toUTF8, String.toByteArray_ofList] at ih ⊢
    rw [List.utf8Encode_cons, ByteArray.size_append, ih, byteSize, List.utf8Encode_singleton, List.size_toByteArray,
      String.length_utf8EncodeChar]

theorem isValid_byteSize (before after : List Char) :
    String.Pos.Raw.IsValid (String.ofList (before ++ after)) ⟨byteSize before⟩ := by
  refine String.Pos.Raw.isValid_iff_exists_append.mpr
    ⟨String.ofList before, String.ofList after, String.ofList_append, ?_⟩
  rw [← size_toUTF8]
  rfl

theorem extract_middle (before middle after : List Char) :
    (String.ofList (before ++ middle ++ after)).toUTF8.extract (byteSize before) (byteSize (before ++ middle)) =
      (String.ofList middle).toUTF8 := by
  rw [← size_toUTF8 before, ← size_toUTF8 (before ++ middle)]
  simp only [String.toUTF8, String.toByteArray_ofList, List.utf8Encode_append]
  rw [ByteArray.extract_append_size_left, ByteArray.extract_append_eq_right rfl ByteArray.size_append]

theorem mem_blankBytes {blanks : List Char} (blank : ∀ c ∈ blanks, isTypeSpace c) :
    ∀ byte ∈ (String.ofList blanks).toUTF8.data.toList, byte ∈ blankBytes := by
  intro byte inBlanks
  simp only [String.toUTF8, String.toByteArray_ofList, List.utf8Encode, List.toList_data_toByteArray,
    List.mem_flatMap] at inBlanks
  obtain ⟨c, member, inChar⟩ := inBlanks
  exact forall_blank (p := (String.utf8EncodeChar · ⊆ blankBytes)) (by decide) (blank c member) inChar

end Text

namespace Token

/-- Whether what follows some characters is escaped: they end with a backslash that is not escaped itself. -/
def escaped (before : List Char) : Bool :=
  before.foldl (fun escaped c => c == '\\' && !escaped) false

/-- Each further quote behind an opening one is escaped. -/
def NeverCloses (quote : Char) (rest : List Char) : Prop :=
  ∀ before after, rest = before ++ quote :: after → escaped before

theorem escaped_cons {c : Char} (plain : c ≠ '\\') (before : List Char) :
    escaped (c :: before) = escaped before := by
  rw [escaped, List.foldl_cons, beq_false_of_ne plain, Bool.false_and, escaped]

theorem escaped_backslash (c : Char) (before : List Char) : escaped ('\\' :: c :: before) = escaped before := by
  simp [escaped]

theorem neverCloses_cons {quote c : Char} (different : c ≠ quote) (plain : c ≠ '\\') (rest : List Char) :
    NeverCloses quote (c :: rest) ↔ NeverCloses quote rest := by
  constructor
  · intro never before after split
    have inside := never (c :: before) after (by rw [split]; rfl)
    rwa [escaped_cons plain] at inside
  · intro never before after split
    cases before with
    | nil => exact absurd (List.cons.inj split).1 different
    | cons d before =>
      obtain ⟨rfl, inside⟩ := List.cons.inj split
      rw [escaped_cons plain]
      exact never before after inside

theorem neverCloses_backslash {quote : Char} (notSlash : quote ≠ '\\') (c : Char) (rest : List Char) :
    NeverCloses quote ('\\' :: c :: rest) ↔ NeverCloses quote rest := by
  constructor
  · intro never before after split
    have inside := never ('\\' :: c :: before) after (by rw [split]; rfl)
    rwa [escaped_backslash] at inside
  · intro never before after split
    cases before with
    | nil => exact absurd (List.cons.inj split).1.symm notSlash
    | cons d before =>
      obtain ⟨rfl, inside⟩ := List.cons.inj split
      cases before with
      | nil => rfl
      | cons e before =>
        rw [escaped_backslash]
        exact never before after (List.cons.inj inside).2

/-- The scan finds no end of a string exactly if there is none. -/
theorem quotedTail_eq_none_iff {quote : Char} (notSlash : quote ≠ '\\') (cs : List Char) :
    quotedTail quote cs = none ↔ NeverCloses quote cs := by
  fun_induction quotedTail quote cs with
  | case1 => simp [NeverCloses]
  | case2 cs =>
    refine iff_of_false (by simp) fun never => ?_
    exact absurd (never [] cs rfl) (by decide)
  | case3 =>
    refine iff_of_true rfl fun before after split => ?_
    cases before with
    | nil => exact absurd (List.cons.inj split).1.symm notSlash
    | cons d before => simp at split
  | case4 escaped rest different ih => rw [Option.map_eq_none_iff, ih, neverCloses_backslash notSlash]
  | case5 c cs different plain ih => rw [Option.map_eq_none_iff, ih, neverCloses_cons different plain]

theorem isQuote_of_unclosed {quote : Char} {rest : List Char} (unclosed : tailLength quote rest = none) :
    isQuote quote ∧ NeverCloses quote rest := by
  have opens : isQuote quote := by
    by_contra notQuote
    obtain ⟨n, length⟩ := tailLength_isSome notQuote rest
    rw [unclosed] at length
    exact absurd length (by simp)
  refine ⟨opens, ?_⟩
  simp only [isQuote, Bool.or_eq_true, beq_iff_eq] at opens
  have notSlash : quote ≠ '\\' := by rcases opens with rfl | rfl <;> decide
  have notWord : ¬ isWordStart quote := by rcases opens with rfl | rfl <;> decide
  have notNumber : ¬ startsNumber quote rest := by rcases opens with rfl | rfl <;> simp [startsNumber]
  rw [tailLength_eq, if_neg notWord, if_neg notNumber, if_pos opens] at unclosed
  exact (quotedTail_eq_none_iff notSlash rest).mp unclosed

end Token

/-- Whether a blank stands right before the first token, or before the end of the tokens if there is none. -/
def TokenStream.spaced (stream : TokenStream) : Bool :=
  match stream.tokens with
  | [] => stream.ending.spaced
  | token :: _ => token.spaced

/-- Only blanks stand before the first token. -/
theorem Token.exists_blanks (before cs : List Char) (spaced : Bool) :
    ∃ blanks after, cs = blanks ++ after ∧ (∀ c ∈ blanks, Text.isTypeSpace c) ∧
      ((scanFrom (Text.byteSize before) spaced cs).get 0).start = Text.byteSize (before ++ blanks) ∧
      (scanFrom (Text.byteSize before) spaced cs).spaced = (spaced || !blanks.isEmpty) := by
  rcases blank_or_unclosed_or_cut cs with blank | ⟨blanks, quote, rest, unclosed⟩ | ⟨blanks, first, tail, rest, cut⟩
  · refine ⟨cs, [], (List.append_nil cs).symm, blank, ?_, ?_⟩ <;> rw [scanFrom_of_blank blank]
    · rw [Text.byteSize_append]
      rfl
    · rfl
  · refine ⟨blanks, quote :: rest, unclosed.split, unclosed.blank, ?_, ?_⟩ <;> rw [unclosed.scanFrom]
    · rw [Text.byteSize_append]
      rfl
    · rfl
  · refine ⟨blanks, first :: (tail ++ rest), cut.split, cut.blank, ?_, ?_⟩ <;> rw [cut.scanFrom]
    · rw [Text.byteSize_append]
      rfl
    · rfl

/-- A row of tokens, `count` of them, that keeps all of a text. -/
structure Lossless (text : String) (found : Nat → Found) (count : Nat) : Prop where
  /-- The tokens come first, and behind them there are only ends. -/
  ends : ∀ n, (found n).text = none ↔ count ≤ n
  /-- A token is a piece of the text, cut between characters. -/
  piece : ∀ n token, (found n).text = some token →
    (found n).start < (found n).stop ∧ String.Pos.Raw.IsValid text ⟨(found n).start⟩ ∧
      String.Pos.Raw.IsValid text ⟨(found n).stop⟩ ∧
      token.toUTF8 = text.toUTF8.extract (found n).start (found n).stop
  /-- Nothing but blanks stands between one token and the next. -/
  gap : ∀ n, stopBefore found n ≤ (found n).start ∧
    ∀ byte ∈ (text.toUTF8.extract (stopBefore found n) (found n).start).data.toList, byte ∈ Text.blankBytes
  /-- The tokens end with the text, or where a string is opened and never closed. -/
  ending : (found count).start = text.utf8ByteSize ∨ ∃ before quote rest, text.toList = before ++ quote :: rest ∧
    (found count).start = (String.ofList before).utf8ByteSize ∧ Token.isQuote quote ∧ Token.NeverCloses quote rest
  /-- From there on there is only the end of the text. -/
  later : ∀ n, count < n → found n = ⟨text.utf8ByteSize, text.utf8ByteSize, none⟩

theorem CutBefore.get_eq {text before rest : List Char} {n : Nat} (cut : CutBefore text n before rest)
    (bound : n ≤ (Token.scan text).tokens.length) :
    (Token.scan text).get n = (Token.scanFrom (Text.byteSize before) (Text.endsBlank before) rest).get 0 := by
  rw [cut.scan, TokenStream.get_drop bound, Nat.add_zero]

namespace Token

variable (text : List Char) (n : Nat)

theorem text_get_eq_none_iff : ((scan text).get n).text = none ↔ (scan text).tokens.length ≤ n := by
  rw [TokenStream.text_get, Option.map_eq_none_iff, List.getElem?_eq_none_iff]

/-- A token is a piece of the text behind some blanks. -/
theorem exists_piece {n : Nat} (bound : n < (scan text).tokens.length) :
    ∃ before blanks chars after, text = before ++ blanks ++ chars ++ after ∧ chars ≠ [] ∧ (scan text).get n =
      ⟨Text.byteSize (before ++ blanks), Text.byteSize (before ++ blanks ++ chars),
      some (String.ofList chars)⟩ := by
  obtain ⟨before, rest, cut⟩ := exists_cutBefore text (Nat.le_of_lt bound)
  have scanned := cut.scan
  rw [List.drop_eq_getElem_cons bound] at scanned
  obtain ⟨blanks, first, tail, others, isCut, _, isToken, _⟩ := cut_of_scanFrom scanned
  refine ⟨before, blanks, first :: tail, others, cut.split.trans (isCut.joined before), List.cons_ne_nil first tail,
    ?_⟩
  rw [TokenStream.get, List.getElem?_eq_getElem bound, isToken, ← start_behind, ← stop_behind]
  rfl

theorem piece_of_get {n : Nat} {token : String} (isToken : ((scan text).get n).text = some token) :
    ((scan text).get n).start < ((scan text).get n).stop ∧
      String.Pos.Raw.IsValid (String.ofList text) ⟨((scan text).get n).start⟩ ∧
      String.Pos.Raw.IsValid (String.ofList text) ⟨((scan text).get n).stop⟩ ∧
      token.toUTF8 = (String.ofList text).toUTF8.extract ((scan text).get n).start ((scan text).get n).stop := by
  have bound : n < (scan text).tokens.length := by
    by_contra beyond
    rw [(text_get_eq_none_iff text n).mpr (by omega)] at isToken
    exact absurd isToken (by simp)
  obtain ⟨before, blanks, chars, after, split, nonempty, found⟩ := exists_piece text bound
  rw [found] at isToken ⊢
  obtain rfl : String.ofList chars = token := Option.some.inj isToken
  refine ⟨?_, ?_, ?_, ?_⟩
  · obtain ⟨c, cs, rfl⟩ := List.exists_cons_of_ne_nil nonempty
    have positive := Char.utf8Size_pos c
    simp only [Text.byteSize_append, Text.byteSize]
    omega
  · rw [split, List.append_assoc]
    exact Text.isValid_byteSize ..
  · rw [split]
    exact Text.isValid_byteSize ..
  · rw [split]
    exact (Text.extract_middle ..).symm

/-- Only blanks stand before a token and before the place where the tokens end. -/
theorem gap_of_get :
    stopBefore (scan text).get n ≤ ((scan text).get n).start ∧
      ∀ byte ∈ ((String.ofList text).toUTF8.extract (stopBefore (scan text).get n)
          ((scan text).get n).start).data.toList,
        byte ∈ Text.blankBytes := by
  by_cases bound : n ≤ (scan text).tokens.length
  · obtain ⟨before, rest, cut⟩ := exists_cutBefore text bound
    obtain ⟨blanks, after, split, blank, start, _⟩ := exists_blanks before rest (Text.endsBlank before)
    rw [cut.get_eq bound, start, ← cut.stop]
    refine ⟨by rw [Text.byteSize_append]; omega, ?_⟩
    rw [cut.split, split, ← List.append_assoc, Text.extract_middle]
    exact Text.mem_blankBytes blank
  · obtain ⟨m, rfl⟩ : ∃ m, n = m + 1 := ⟨n - 1, by omega⟩
    rw [stopBefore, TokenStream.stop_get (by omega), TokenStream.get_of_length_lt (by omega)]
    refine ⟨Nat.le_refl _, ?_⟩
    simp

theorem start_ending :
    (scan text).ending.start = Text.byteSize text ∨ ∃ before quote rest, text = before ++ quote :: rest ∧
      (scan text).ending.start = Text.byteSize before ∧ isQuote quote ∧ NeverCloses quote rest := by
  obtain ⟨before, rest, cut⟩ := exists_cutBefore text (Nat.le_refl _)
  have scanned := cut.scan
  rw [List.drop_length] at scanned
  rcases blank_or_unclosed_or_cut rest with blank | ⟨blanks, quote, behindQuote, unclosed⟩ |
    ⟨blanks, first, tail, others, isCut⟩
  · left
    rw [scanFrom_of_blank blank, ← Text.byteSize_append, ← cut.split] at scanned
    exact congrArg (Ending.start ∘ TokenStream.ending) scanned.symm
  · right
    rw [unclosed.scanFrom, ← Text.byteSize_append] at scanned
    obtain ⟨opens, never⟩ := isQuote_of_unclosed unclosed.length
    refine ⟨before ++ blanks, quote, behindQuote, ?_, congrArg (Ending.start ∘ TokenStream.ending) scanned.symm,
      opens, never⟩
    rw [List.append_assoc, ← unclosed.split, cut.split]
  · rw [isCut.scanFrom] at scanned
    exact absurd (congrArg TokenStream.tokens scanned) (by simp)

end Token

/-- The tokens found in a text, one after the other, lose nothing of it but blanks, and split no character. -/
theorem Tokenizer.tokens_lossless (text : String) :
    Lossless text (fun n => ((Tokenizer.ofText text.toList).token n).1) (Token.scan text.toList).tokens.length := by
  have found : (fun n => ((Tokenizer.ofText text.toList).token n).1) = (Token.scan text.toList).get := by
    funext n
    rw [(remembers_ofText text.toList).token, ofText, Nat.zero_add]
  have size : text.utf8ByteSize = Text.byteSize text.toList := by
    rw [← Text.size_toUTF8, String.ofList_toList]
    rfl
  rw [found]
  refine ⟨Token.text_get_eq_none_iff text.toList, fun n token isToken => ?_, fun n => ?_, ?_, fun n beyond => ?_⟩
  · simpa only [String.ofList_toList] using Token.piece_of_get text.toList isToken
  · simpa only [String.ofList_toList] using Token.gap_of_get text.toList n
  · have atEnd : (Token.scan text.toList).get (Token.scan text.toList).tokens.length =
        ⟨(Token.scan text.toList).ending.start, (Token.scan text.toList).ending.stop, none⟩ := by
      rw [TokenStream.get, List.getElem?_eq_none (Nat.le_refl _)]
      exact if_pos rfl
    rw [atEnd, size]
    rcases Token.start_ending text.toList with start | ⟨before, quote, rest, split, start, opens, never⟩
    · exact Or.inl start
    · refine Or.inr ⟨before, quote, rest, split, start.trans ?_, opens, never⟩
      exact (Text.size_toUTF8 before).symm
  · rw [TokenStream.get_of_length_lt beyond, Token.scan, Token.stop_ending, Nat.zero_add, size]

end DocTypes
