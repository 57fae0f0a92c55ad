import DocTypes.Text.Case
import DocTypes.TypeText.Token
import Mathlib.Data.List.TakeWhile

namespace DocTypes

namespace Text

theorem takeBytes_byteSize (before after : List Char) : takeBytes (byteSize before) (before ++ after) = before := by
  induction before with
  | nil =>
    cases after with
    | nil => rfl
    | cons c cs =>
      have positive := Char.utf8Size_pos c
      simp only [byteSize, List.nil_append, takeBytes]
      rw [if_neg (by omega)]
  | cons c before ih =>
    simp only [byteSize, List.cons_append, takeBytes]
    rw [if_pos (by omega), Nat.add_sub_cancel_left, ih]

theorem dropBytes_byteSize (before after : List Char) : dropBytes (byteSize before) (before ++ after) = after := by
  induction before with
  | nil =>
    cases after with
    | nil => rfl
    | cons c cs =>
      have positive := Char.utf8Size_pos c
      simp only [byteSize, List.nil_append, dropBytes]
      rw [if_neg (by omega)]
  | cons c before ih =>
    simp only [byteSize, List.cons_append, dropBytes]
    rw [if_pos (by omega), Nat.add_sub_cancel_left, ih]

theorem dropBytes_add (before after : List Char) (n : Nat) :
    dropBytes (byteSize before + n) (before ++ after) = dropBytes n after := by
  induction before with
  | nil => simp [byteSize]
  | cons c before ih =>
    simp only [byteSize, List.cons_append, dropBytes]
    rw [if_pos (by omega), show c.utf8Size + byteSize before + n - c.utf8Size = byteSize before + n by omega, ih]

/-- What is replaced is exactly the text in the middle. -/
theorem splice_middle (before middle after replacement : List Char) :
    splice (byteSize before) (byteSize middle) replacement (before ++ (middle ++ after)) =
      before ++ (replacement ++ after) := by
  rw [splice, takeBytes_byteSize, ← byteSize_append, ← List.append_assoc before middle, dropBytes_byteSize,
    List.append_assoc]

/-- The bytes of a text are those of its first characters and those of the rest. -/
theorem byteSize_cut (c : Char) (cs : List Char) (n : Nat) :
    byteSize (c :: cs) = byteSize (c :: cs.take n) + byteSize (cs.drop n) := by
  rw [← byteSize_append, List.cons_append, List.take_append_drop]

/-- What holds of the six blanks holds of every blank. -/
theorem forall_blank {p : Char → Prop} (each : p ' ' ∧ p '\t' ∧ p '\n' ∧ p '\r' ∧ p '\x0b' ∧ p '\x0c') {c : Char}
    (isBlank : isTypeSpace c) : p c := by
  simp only [isTypeSpace, Bool.or_eq_true, beq_iff_eq] at isBlank
  obtain ⟨space, tab, feed, back, vertical, form⟩ := each
  rcases isBlank with ((((rfl | rfl) | rfl) | rfl) | rfl) | rfl <;> assumption

/-- Each blank between tokens is one byte long. -/
theorem utf8Size_blank {c : Char} (isBlank : isTypeSpace c) : c.utf8Size = 1 :=
  forall_blank (p := (·.utf8Size = 1)) (by decide) isBlank

theorem byteSize_eq_length {cs : List Char} (single : ∀ c ∈ cs, c.utf8Size = 1) : byteSize cs = cs.length := by
  induction cs with
  | nil => rfl
  | cons c cs ih =>
    rw [byteSize, single c (List.mem_cons_self ..), ih fun d member => single d (List.mem_cons_of_mem _ member),
      List.length_cons, Nat.add_comm]

theorem byteSize_blanks {blanks : List Char} (blank : ∀ c ∈ blanks, isTypeSpace c) :
    byteSize blanks = blanks.length :=
  byteSize_eq_length fun c member => utf8Size_blank (blank c member)

end Text

/-- An ending some bytes further on. -/
def Ending.shift (n : Nat) (ending : Ending) : Ending :=
  { ending with start := n + ending.start, stop := n + ending.stop }

namespace Token

/-- The token that these characters are, behind some blanks. -/
def behind (blanks chars : List Char) (offset : Nat) (spaced : Bool) : Token :=
  ⟨String.ofList chars, offset + Text.byteSize blanks, offset + Text.byteSize blanks + Text.byteSize chars,
    spaced || !blanks.isEmpty⟩

theorem scanFrom_blanks {blanks : List Char} (blank : ∀ c ∈ blanks, Text.isTypeSpace c) (offset : Nat)
    (spaced : Bool) (cs : List Char) :
    scanFrom offset spaced (blanks ++ cs) =
      scanFrom (offset + Text.byteSize blanks) (spaced || !blanks.isEmpty) cs := by
  induction blanks generalizing offset spaced with
  | nil => simp [Text.byteSize]
  | cons c blanks ih =>
    have isBlank := blank c (List.mem_cons_self ..)
    have others : ∀ c ∈ blanks, Text.isTypeSpace c := fun c member => blank c (List.mem_cons_of_mem _ member)
    rw [List.cons_append, scanFrom, if_pos isBlank, ih others, Text.byteSize_blanks others,
      Text.byteSize_blanks blank, List.length_cons, Nat.add_right_comm, Nat.add_assoc]
    simp

theorem numberTail_le (point : Bool) (cs : List Char) : numberTail point cs ≤ cs.length := by
  fun_induction numberTail point cs with
  | case1 => simp
  | case2 point c cs _ ih =>
    rw [List.length_cons]
    omega
  | case3 point c cs _ _ ih =>
    rw [List.length_cons]
    omega
  | case4 => omega

theorem quotedTail_le {quote : Char} {cs : List Char} {n : Nat} (closed : quotedTail quote cs = some n) :
    n ≤ cs.length := by
  fun_induction quotedTail quote cs generalizing n with
  | case1 => simp at closed
  | case2 cs =>
    cases Option.some.inj closed
    simp
  | case3 => simp at closed
  | case4 _ _ rest ih =>
    obtain ⟨m, isRest, rfl⟩ := Option.map_eq_some_iff.mp closed
    have bound := ih isRest
    simp only [List.length_cons]
    omega
  | case5 c cs _ _ ih =>
    obtain ⟨m, isRest, rfl⟩ := Option.map_eq_some_iff.mp closed
    have bound := ih isRest
    rw [List.length_cons]
    omega

theorem tailLength_le {first : Char} {cs : List Char} {n : Nat} (length : tailLength first cs = some n) :
    n ≤ cs.length := by
  unfold tailLength at length
  split at length
  · cases Option.some.inj length
    exact (List.takeWhile_sublist _).length_le
  split at length
  · cases Option.some.inj length
    exact numberTail_le false cs
  split at length
  · exact quotedTail_le length
  split at length
  next dots =>
    cases Option.some.inj length
    rw [Bool.and_eq_true, List.isPrefixOf_iff_prefix] at dots
    exact dots.2.length_le
  split at length
  next colons =>
    cases Option.some.inj length
    rw [Bool.and_eq_true, List.isPrefixOf_iff_prefix] at colons
    exact colons.2.length_le
  · cases Option.some.inj length
    exact Nat.zero_le _

/-- A text cut behind its first token: the blanks before the token, the token and the rest. -/
structure Cut (cs blanks : List Char) (first : Char) (tail rest : List Char) : Prop where
  split : cs = blanks ++ first :: (tail ++ rest)
  blank : ∀ c ∈ blanks, Text.isTypeSpace c
  notBlank : ¬ Text.isTypeSpace first
  length : tailLength first (tail ++ rest) = some tail.length

/-- What stands before a text goes up to the end of its first token. -/
theorem Cut.joined {cs blanks : List Char} {first : Char} {tail rest : List Char}
    (cut : Cut cs blanks first tail rest) (before : List Char) :
    before ++ cs = before ++ blanks ++ first :: tail ++ rest := by
  rw [cut.split]
  simp

theorem start_behind (before blanks chars : List Char) (spaced : Bool) :
    (behind blanks chars (Text.byteSize before) spaced).start = Text.byteSize (before ++ blanks) := by
  rw [Text.byteSize_append]
  rfl

theorem stop_behind (before blanks chars : List Char) (spaced : Bool) :
    (behind blanks chars (Text.byteSize before) spaced).stop = Text.byteSize (before ++ blanks ++ chars) := by
  rw [Text.byteSize_append, Text.byteSize_append]
  rfl

theorem Cut.scanFrom {cs blanks : List Char} {first : Char} {tail rest : List Char}
    (cut : Cut cs blanks first tail rest) (offset : Nat) (spaced : Bool) :
    Token.scanFrom offset spaced cs =
      let token := behind blanks (first :: tail) offset spaced
      ⟨token :: (Token.scanFrom token.stop false rest).tokens, (Token.scanFrom token.stop false rest).ending⟩ := by
  rw [cut.split, scanFrom_blanks cut.blank, Token.scanFrom, if_neg cut.notBlank, cut.length]
  simp [behind]

/-- A text with a token can be cut behind it. -/
theorem exists_cut {offset : Nat} {spaced : Bool} {cs : List Char}
    (some : (scanFrom offset spaced cs).tokens ≠ []) : ∃ blanks first tail rest, Cut cs blanks first tail rest := by
  fun_induction scanFrom offset spaced cs with
  | case1 => simp at some
  | case2 offset spaced c cs isBlank ih =>
    obtain ⟨blanks, first, tail, rest, cut⟩ := ih some
    refine ⟨c :: blanks, first, tail, rest, by rw [cut.split]; rfl, ?_, cut.notBlank, cut.length⟩
    exact List.forall_mem_cons.mpr ⟨isBlank, cut.blank⟩
  | case3 => simp at some
  | case4 offset spaced c cs notBlank n length text stop rest ih =>
    have bound := tailLength_le length
    refine ⟨[], c, cs.take n, cs.drop n, by simp, by simp, notBlank, ?_⟩
    rw [List.take_append_drop, length, List.length_take, Nat.min_eq_left bound]

/-- The first of some tokens can be cut off the text. -/
theorem cut_of_scanFrom {offset : Nat} {spaced : Bool} {cs : List Char} {token : Token} {tokens : List Token}
    {ending : Ending} (scanned : scanFrom offset spaced cs = ⟨token :: tokens, ending⟩) :
    ∃ blanks first tail rest, Cut cs blanks first tail rest ∧ token.text.toList = first :: tail ∧
      token = behind blanks (first :: tail) offset spaced ∧ scanFrom token.stop false rest = ⟨tokens, ending⟩ := by
  obtain ⟨blanks, first, tail, rest, cut⟩ := exists_cut (by rw [scanned]; simp)
  have whole := (cut.scanFrom offset spaced).symm.trans scanned
  simp only [TokenStream.mk.injEq, List.cons.injEq] at whole
  obtain ⟨⟨isToken, others⟩, atEnd⟩ := whole
  refine ⟨blanks, first, tail, rest, cut, ?_, isToken.symm, ?_⟩
  · rw [← isToken]
    exact String.toList_ofList
  · rw [← isToken, ← others, ← atEnd]

/-- The tokens end with the text, or a string that is never closed does. -/
theorem stop_ending (offset : Nat) (spaced : Bool) (cs : List Char) :
    (scanFrom offset spaced cs).ending.stop = offset + Text.byteSize cs := by
  fun_induction scanFrom offset spaced cs with
  | case1 => rfl
  | case2 offset spaced c cs isBlank ih =>
    rw [ih, Text.byteSize, Text.utf8Size_blank isBlank, Nat.add_assoc]
  | case3 => rfl
  | case4 offset spaced c cs notBlank n length text stop rest ih =>
    rw [ih, Text.byteSize_cut c cs n, ← Nat.add_assoc]

/-- A token some bytes further on. -/
def shift (n : Nat) (token : Token) : Token :=
  { token with start := n + token.start, stop := n + token.stop }

/-- Where a text starts changes nothing but positions. -/
theorem scanFrom_shift (m n : Nat) (spaced : Bool) (cs : List Char) :
    scanFrom (m + n) spaced cs =
      ⟨(scanFrom n spaced cs).tokens.map (shift m), (scanFrom n spaced cs).ending.shift m⟩ := by
  fun_induction scanFrom n spaced cs with
  | case1 n spaced => simp [scanFrom, Ending.shift]
  | case2 n spaced c cs isBlank ih => rw [scanFrom, if_pos isBlank, Nat.add_assoc, ih]
  | case3 n spaced c cs notBlank unclosed =>
    rw [scanFrom, if_neg notBlank, unclosed]
    simp [Ending.shift, Nat.add_assoc]
  | case4 n spaced c cs notBlank k length text stop rest ih =>
    rw [scanFrom, if_neg notBlank, length]
    simp only [Nat.add_assoc, List.map_cons]
    rw [ih]
    rfl

theorem length_scanFrom (m n : Nat) (spaced : Bool) (cs : List Char) :
    (scanFrom m spaced cs).tokens.length = (scanFrom n spaced cs).tokens.length := by
  have left := scanFrom_shift m 0 spaced cs
  have right := scanFrom_shift n 0 spaced cs
  rw [Nat.add_zero] at left right
  rw [left, right, List.length_map, List.length_map]

theorem length_takeWhile_append {p : Char → Bool} {tail rest : List Char} :
    ((tail ++ rest).takeWhile p).length = tail.length ↔
      (∀ c ∈ tail, p c) ∧ ∀ c ∈ rest.head?, ¬ p c := by
  induction tail with
  | nil =>
    cases rest with
    | nil => simp
    | cons c rest => by_cases holds : p c <;> simp [holds]
  | cons c tail ih =>
    by_cases holds : p c
    · simp [holds, ih]
    · simp [holds]

theorem numberTail_chars {point : Bool} {tail rest : List Char}
    (length : numberTail point (tail ++ rest) = tail.length) : ∀ c ∈ tail, c.isDigit ∨ c = '_' ∨ c = '.' := by
  induction tail generalizing point with
  | nil => simp
  | cons c tail ih =>
    simp only [List.cons_append, numberTail, List.length_cons] at length
    split at length
    next digit =>
      refine List.forall_mem_cons.mpr ⟨?_, ih (Nat.succ.inj length)⟩
      simp only [Bool.or_eq_true, beq_iff_eq] at digit
      exact digit.imp_right Or.inl
    next =>
      split at length
      next isPoint =>
        refine List.forall_mem_cons.mpr ⟨?_, ih (Nat.succ.inj length)⟩
        simp only [Bool.and_eq_true, beq_iff_eq] at isPoint
        exact Or.inr (Or.inr isPoint.1)
      next => omega

theorem numberTail_congr {point : Bool} {tail rest other : List Char}
    (length : numberTail point (tail ++ rest) = tail.length)
    (opens : ∀ c ∈ other.head?, rest.head? = some c ∨ c.isAlpha) :
    numberTail point (tail ++ other) = tail.length := by
  induction tail generalizing point with
  | nil =>
    cases other with
    | nil => rfl
    | cons c other =>
      rcases opens c rfl with same | letter
      · cases rest with
        | nil => simp at same
        | cons d rest =>
          obtain rfl : d = c := by simpa using same
          simp only [List.nil_append, numberTail] at length ⊢
          grind
      · have notDigit := Text.isDigit_of_isAlpha letter
        have notLow : c ≠ '_' := by rintro rfl; exact absurd letter (by decide)
        have notPoint : c ≠ '.' := by rintro rfl; exact absurd letter (by decide)
        simp [numberTail, notDigit, notLow, notPoint]
  | cons c tail ih =>
    simp only [List.cons_append, numberTail, List.length_cons] at length ⊢
    split at length
    next digit =>
      rw [if_pos digit, ih (by omega)]
    next notDigit =>
      rw [if_neg notDigit]
      split at length
      next isPoint => rw [if_pos isPoint, ih (by omega)]
      next => omega

/-- A quoted string does not depend on what follows it. -/
theorem quotedTail_congr {quote : Char} {cs : List Char} {n : Nat} (closed : quotedTail quote cs = some n)
    (other : List Char) : quotedTail quote (cs.take n ++ other) = some n := by
  fun_induction quotedTail quote cs generalizing n with
  | case1 => simp at closed
  | case2 cs =>
    cases Option.some.inj closed
    rw [quotedTail.eq_def]
    simp
  | case3 => simp at closed
  | case4 escaped rest different ih =>
    obtain ⟨m, isRest, rfl⟩ := Option.map_eq_some_iff.mp closed
    rw [List.take_succ_cons, List.take_succ_cons, List.cons_append, List.cons_append, quotedTail.eq_def]
    simp [different, ih isRest]
  | case5 c cs different plain ih =>
    obtain ⟨m, isRest, rfl⟩ := Option.map_eq_some_iff.mp closed
    rw [List.take_succ_cons, List.cons_append, quotedTail.eq_def]
    simp [different, plain, ih isRest]

/-- Whether a number starts here, which for a minus sign depends on the next character. -/
def startsNumber (first : Char) (cs : List Char) : Bool :=
  first.isDigit || (first == '-' && cs.head?.any Char.isDigit)

theorem startsNumber_congr {first : Char} {tail rest other : List Char}
    (length : startsNumber first (tail ++ rest) → numberTail false (tail ++ rest) = tail.length)
    (opens : ∀ c ∈ other.head?, rest.head? = some c ∨ c.isAlpha) :
    startsNumber first (tail ++ other) = startsNumber first (tail ++ rest) := by
  cases tail with
  | cons d tail => simp [startsNumber]
  | nil =>
    rw [List.nil_append] at length
    simp only [List.nil_append]
    by_cases number : startsNumber first rest = true
    · -- nothing is taken from `rest`, so it is the first character that starts the number
      have none := length number
      have digit : first.isDigit := by
        by_contra notDigit
        cases rest with
        | nil => simp [startsNumber, notDigit] at number
        | cons d rest =>
          have next : d.isDigit := by simp_all [startsNumber]
          simp [numberTail, next] at none
      simp [startsNumber, digit]
    · rw [Bool.eq_iff_iff]
      refine ⟨fun found => absurd found ?_, fun found => absurd found number⟩
      simp only [startsNumber, Bool.or_eq_true, Bool.and_eq_true, beq_iff_eq, not_or, not_and] at number ⊢
      refine ⟨number.1, fun isMinus digit => ?_⟩
      cases other with
      | nil => simp at digit
      | cons c other =>
        have nextDigit : c.isDigit := by simpa using digit
        rcases opens c rfl with same | letter
        · exact number.2 isMinus (by simp [same, nextDigit])
        · simp [Text.isDigit_of_isAlpha letter] at nextDigit

theorem tailLength_eq (first : Char) (cs : List Char) :
    tailLength first cs =
      if isWordStart first then some (cs.takeWhile (continuesWord first)).length
      else if startsNumber first cs then some (numberTail false cs)
      else if first = '"' ∨ first = '\'' then quotedTail first cs
      else if first = '.' ∧ ['.', '.'] <+: cs then some 2
      else if first = ':' ∧ [':'] <+: cs then some 1
      else some 0 := by
  simp only [tailLength, startsNumber, Bool.or_eq_true, Bool.and_eq_true, beq_iff_eq, List.isPrefixOf_iff_prefix]

theorem isWordStart_not_digit {c : Char} (digit : c.isDigit ∨ c = '-') : ¬ isWordStart c := by
  rcases digit with digit | rfl
  · intro start
    simp only [isWordStart, Bool.or_eq_true, beq_iff_eq] at start
    rcases start with ((letter | rfl) | rfl) | rfl
    · simp [Text.isDigit_of_isAlpha letter] at digit
    all_goals exact absurd digit (by decide)
  · decide

/-- An integer is spelled with no letters. -/
theorem lower_integer {first : Char} {tail rest : List Char}
    (length : tailLength first (tail ++ rest) = some tail.length)
    (integer : isIntLiteral (String.ofList (first :: tail))) :
    Text.lower (String.ofList (first :: tail)) = String.ofList (first :: tail) := by
  have starts : startsWithDigit (String.ofList (first :: tail)) := by
    simp only [isIntLiteral, Bool.and_eq_true] at integer
    exact integer.1
  have number : startsNumber first (tail ++ rest) ∧ (first.isDigit ∨ first = '-') := by
    unfold startsWithDigit at starts
    rw [String.toList_ofList] at starts
    split at starts
    next c _ isList =>
      obtain ⟨rfl, rfl⟩ := List.cons.inj isList
      simp [startsNumber, starts]
    next c _ _ isList =>
      obtain ⟨rfl, _⟩ := List.cons.inj isList
      simp [startsNumber, starts]
    next => simp at starts
  rw [tailLength_eq, if_neg (isWordStart_not_digit number.2), if_pos number.1, Option.some.injEq] at length
  have plain : ∀ c ∈ first :: tail, c.toLower = c := by
    refine List.forall_mem_cons.mpr ⟨?_, fun c member => ?_⟩
    · refine (Text.toLower_eq_iff ?_).mpr rfl
      rcases number.2 with digit | rfl
      · intro letter
        simp [Text.isDigit_of_isAlpha letter] at digit
      · decide
    · refine (Text.toLower_eq_iff ?_).mpr rfl
      intro letter
      rcases numberTail_chars length c member with digit | rfl | rfl
      · simp [Text.isDigit_of_isAlpha letter] at digit
      · exact absurd letter (by decide)
      · exact absurd letter (by decide)
  rw [Text.lower, String.toList_ofList, List.map_congr_left plain, List.map_id']

/-- A token ends where it did if what follows it starts as before, or with a letter where no word is
before it. -/
theorem tailLength_congr {first : Char} {tail rest other : List Char}
    (length : tailLength first (tail ++ rest) = some tail.length)
    (opens : ∀ c ∈ other.head?, rest.head? = some c ∨ c.isAlpha ∧ ¬ isWordStart first)
    (dots : ['.', '.'] <+: other → ['.', '.'] <+: rest) :
    tailLength first (tail ++ other) = some tail.length := by
  have opensNumber : ∀ c ∈ other.head?, rest.head? = some c ∨ c.isAlpha :=
    fun c member => (opens c member).imp_right And.left
  rw [tailLength_eq] at length ⊢
  by_cases wordStart : isWordStart first
  · rw [if_pos wordStart, Option.some.injEq, length_takeWhile_append] at length ⊢
    refine ⟨length.1, fun c member => ?_⟩
    rcases opens c member with same | ⟨_, notStart⟩
    · exact length.2 c same
    · exact absurd wordStart notStart
  rw [if_neg wordStart] at length ⊢
  have sameStart : startsNumber first (tail ++ other) = startsNumber first (tail ++ rest) := by
    refine startsNumber_congr (fun number => ?_) opensNumber
    rw [if_pos number] at length
    exact Option.some.inj length
  rw [sameStart]
  by_cases number : startsNumber first (tail ++ rest)
  · rw [if_pos number, Option.some.injEq] at length ⊢
    exact numberTail_congr length opensNumber
  rw [if_neg number] at length ⊢
  by_cases quote : first = '"' ∨ first = '\''
  · rw [if_pos quote] at length ⊢
    have closed := quotedTail_congr length other
    rwa [List.take_left] at closed
  rw [if_neg quote] at length ⊢
  by_cases dotted : first = '.' ∧ ['.', '.'] <+: tail ++ rest
  · rw [if_pos dotted, Option.some.injEq] at length
    obtain ⟨more, whole⟩ := dotted.2
    obtain rfl : ['.', '.'] = tail := (List.append_inj whole length).1
    rw [if_pos ⟨dotted.1, List.prefix_append ..⟩]
    rfl
  rw [if_neg dotted] at length
  by_cases colons : first = ':' ∧ [':'] <+: tail ++ rest
  · rw [if_pos colons, Option.some.injEq] at length
    obtain ⟨more, whole⟩ := colons.2
    obtain rfl : [':'] = tail := (List.append_inj whole length).1
    have notDot : first ≠ '.' := by
      rw [colons.1]
      decide
    rw [if_neg fun dot => notDot dot.1, if_pos ⟨colons.1, List.prefix_append ..⟩]
    rfl
  · rw [if_neg colons, Option.some.injEq] at length
    obtain rfl : tail = [] := List.length_eq_zero_iff.mp length.symm
    rw [List.nil_append] at dotted colons ⊢
    rw [if_neg fun dot => dotted ⟨dot.1, dots dot.2⟩, if_neg, List.length_nil]
    rintro ⟨isColon, more, rfl⟩
    rcases opens ':' rfl with same | ⟨letter, _⟩
    · obtain ⟨others, rfl⟩ : ∃ others, rest = ':' :: others := by
        cases rest with
        | nil => simp at same
        | cons c others => exact ⟨others, by simpa using same⟩
      exact colons ⟨isColon, List.prefix_append [':'] others⟩
    · exact absurd letter (by decide)

/-- A character that opens a string. -/
def isQuote (c : Char) : Bool :=
  c == '"' || c == '\''

theorem numberTail_append_blank {blank : Char} (isBlank : Text.isTypeSpace blank) (point : Bool)
    (cs rest : List Char) :
    numberTail point (cs ++ blank :: rest) = numberTail point cs := by
  induction cs generalizing point with
  | nil => exact Text.forall_blank (p := fun c => numberTail point (c :: rest) = 0) (by simp [numberTail]) isBlank
  | cons c cs ih => simp only [List.cons_append, numberTail, ih]

/-- A blank goes on no word, no number and no mark. -/
theorem blank_ends_token {blank : Char} (first : Char) (isBlank : Text.isTypeSpace blank) :
    blank ≠ '.' ∧ blank ≠ ':' ∧ blank.isDigit = false ∧ continuesWord first blank = false :=
  Text.forall_blank (p := fun c => c ≠ '.' ∧ c ≠ ':' ∧ c.isDigit = false ∧ continuesWord first c = false)
    (by simp [continuesWord]) isBlank

/-- No token but a string goes on behind a blank. -/
theorem tailLength_append_blank {blank first : Char} (isBlank : Text.isTypeSpace blank) (notQuote : ¬ isQuote first)
    (cs rest : List Char) : tailLength first (cs ++ blank :: rest) = tailLength first cs := by
  obtain ⟨notDot, notColon, notDigit, stopsWord⟩ := blank_ends_token first isBlank
  have word : (cs ++ blank :: rest).takeWhile (continuesWord first) = cs.takeWhile (continuesWord first) := by
    induction cs with
    | nil => simp [stopsWord]
    | cons c cs ih =>
      by_cases continues : continuesWord first c
      · simp [continues, ih]
      · simp [continues]
  have number : startsNumber first (cs ++ blank :: rest) = startsNumber first cs := by
    cases cs with
    | nil => simp [startsNumber, notDigit]
    | cons c cs => rfl
  have dots : ['.', '.'] <+: cs ++ blank :: rest ↔ ['.', '.'] <+: cs := by
    match cs with
    | [] => simp [Ne.symm notDot]
    | [c] => simp [List.cons_prefix_cons, Ne.symm notDot]
    | c :: d :: cs => simp [List.cons_prefix_cons]
  have colons : [':'] <+: cs ++ blank :: rest ↔ [':'] <+: cs := by
    cases cs with
    | nil => simp [Ne.symm notColon]
    | cons c cs => simp [List.cons_prefix_cons]
  have noString : ¬ (first = '"' ∨ first = '\'') := by simpa [isQuote] using notQuote
  simp only [tailLength_eq, word, number, numberTail_append_blank isBlank, noString, dots, colons, if_false]

theorem tailLength_isSome {first : Char} (notQuote : ¬ isQuote first) (cs : List Char) :
    ∃ n, tailLength first cs = some n := by
  have noString : ¬ (first = '"' ∨ first = '\'') := by simpa [isQuote] using notQuote
  rw [tailLength_eq, if_neg noString]
  repeat' split
  all_goals exact ⟨_, rfl⟩

/-- No token goes on behind a blank, if it is closed before. -/
theorem tailLength_append_of_some {blank first : Char} (isBlank : Text.isTypeSpace blank) {cs : List Char} {n : Nat}
    (length : tailLength first cs = some n) (rest : List Char) :
    tailLength first (cs ++ blank :: rest) = some n := by
  by_cases quote : isQuote first
  · have opens : first = '"' ∨ first = '\'' := by simpa [isQuote] using quote
    have notWord : ¬ isWordStart first := by rcases opens with rfl | rfl <;> decide
    have notNumber : ∀ cs, ¬ startsNumber first cs := by rcases opens with rfl | rfl <;> simp [startsNumber]
    rw [tailLength_eq, if_neg notWord, if_neg (notNumber _), if_pos opens] at length ⊢
    have closed := quotedTail_congr length (cs.drop n ++ blank :: rest)
    rwa [← List.append_assoc, List.take_append_drop] at closed
  · rw [tailLength_append_blank isBlank quote, length]

/-- A text that leaves no string open falls into tokens up to a blank as it does alone. -/
theorem scanFrom_append_of_closed {blank : Char} (isBlank : Text.isTypeSpace blank) (rest : List Char)
    (offset : Nat) (spaced : Bool) (cs : List Char)
    (closed : (scanFrom offset spaced cs).ending.start = offset + Text.byteSize cs) :
    scanFrom offset spaced (cs ++ blank :: rest) =
      ⟨(scanFrom offset spaced cs).tokens ++ (scanFrom (offset + Text.byteSize cs + 1) true rest).tokens,
        (scanFrom (offset + Text.byteSize cs + 1) true rest).ending⟩ := by
  fun_induction scanFrom offset spaced cs with
  | case1 offset spaced =>
    rw [List.nil_append, scanFrom, if_pos isBlank]
    rfl
  | case2 offset spaced c cs blankFirst ih =>
    rw [Text.byteSize, Text.utf8Size_blank blankFirst, ← Nat.add_assoc] at closed ⊢
    rw [List.cons_append, scanFrom, if_pos blankFirst, ih closed]
  | case3 offset spaced c cs notBlank unclosed =>
    have positive := Char.utf8Size_pos c
    simp only [Text.byteSize] at closed
    omega
  | case4 offset spaced c cs notBlank n length text stop tokens ih =>
    have bound := tailLength_le length
    have longer := tailLength_append_of_some isBlank length rest
    rw [List.cons_append, scanFrom, if_neg notBlank, longer]
    simp only [List.take_append_of_le_length bound, List.drop_append_of_le_length bound, List.cons_append]
    rw [Text.byteSize_cut c cs n, ← Nat.add_assoc] at closed ⊢
    rw [ih closed]

/-- A text without quotes leaves no string open. -/
theorem start_ending_of_plain (offset : Nat) (spaced : Bool) {cs : List Char} (plain : ∀ c ∈ cs, ¬ isQuote c) :
    (scanFrom offset spaced cs).ending.start = offset + Text.byteSize cs := by
  fun_induction scanFrom offset spaced cs with
  | case1 => rfl
  | case2 offset spaced c cs blankFirst ih =>
    rw [ih fun d member => plain d (List.mem_cons_of_mem _ member), Text.byteSize, Text.utf8Size_blank blankFirst,
      Nat.add_assoc]
  | case3 offset spaced c cs notBlank unclosed =>
    obtain ⟨n, length⟩ := tailLength_isSome (plain c (List.mem_cons_self ..)) cs
    rw [unclosed] at length
    exact absurd length (by simp)
  | case4 offset spaced c cs notBlank n length text stop tokens ih =>
    rw [ih fun d member => plain d (List.mem_cons_of_mem _ (List.mem_of_mem_drop member)), Text.byteSize_cut c cs n,
      ← Nat.add_assoc]

/-- A text without strings falls into tokens up to a blank as it does alone. -/
theorem scanFrom_append_blank {blank : Char} (isBlank : Text.isTypeSpace blank) (rest : List Char) (offset : Nat)
    (spaced : Bool) (cs : List Char) (plain : ∀ c ∈ cs, ¬ isQuote c) :
    (scanFrom offset spaced (cs ++ blank :: rest)).tokens =
      (scanFrom offset spaced cs).tokens ++ (scanFrom (offset + Text.byteSize cs + 1) true rest).tokens := by
  rw [scanFrom_append_of_closed isBlank rest offset spaced cs (start_ending_of_plain offset spaced plain)]

/-- Tokens hold no characters but those of the text. -/
theorem mem_of_mem_scanFrom {offset : Nat} {spaced : Bool} {cs : List Char} {token : Token}
    (isToken : token ∈ (scanFrom offset spaced cs).tokens) : ∀ c ∈ token.text.toList, c ∈ cs := by
  fun_induction scanFrom offset spaced cs with
  | case1 => simp at isToken
  | case2 offset spaced c cs _ ih => exact fun d inToken => List.mem_cons_of_mem _ (ih isToken d inToken)
  | case3 => simp at isToken
  | case4 offset spaced c cs _ n _ text stop tokens ih =>
    intro d inToken
    rcases List.mem_cons.mp isToken with rfl | later
    · rw [String.toList_ofList] at inToken
      exact (List.mem_cons.mp inToken).elim (fun same => same ▸ List.mem_cons_self ..)
        fun inTail => List.mem_cons_of_mem _ (List.mem_of_mem_take inTail)
    · exact List.mem_cons_of_mem _ (List.mem_of_mem_drop (ih later d inToken))

/-- The last token of a text without blanks and strings ends as the text does. -/
theorem exists_last_token {offset : Nat} {spaced : Bool} {cs : List Char} (nonempty : cs ≠ [])
    (plain : ∀ c ∈ cs, ¬ Text.isTypeSpace c ∧ ¬ isQuote c) :
    ∃ token, (scanFrom offset spaced cs).tokens.getLast? = some token ∧
      token.text.toList.getLast? = cs.getLast? := by
  fun_induction scanFrom offset spaced cs with
  | case1 => exact absurd rfl nonempty
  | case2 offset spaced c cs isBlank _ => exact absurd isBlank (plain c (List.mem_cons_self ..)).1
  | case3 offset spaced c cs _ unclosed =>
    obtain ⟨n, length⟩ := tailLength_isSome (plain c (List.mem_cons_self ..)).2 cs
    rw [unclosed] at length
    exact absurd length (by simp)
  | case4 offset spaced c cs _ n length text stop tokens ih =>
    by_cases last : cs.drop n = []
    · have whole : cs.take n = cs := List.take_of_length_le (List.drop_eq_nil_iff.mp last)
      refine ⟨⟨String.ofList text, offset, stop, spaced⟩, ?_, by simp [text, whole]⟩
      simp [tokens, last, scanFrom]
    · have others : ∀ d ∈ cs.drop n, ¬ Text.isTypeSpace d ∧ ¬ isQuote d :=
        fun d member => plain d (List.mem_cons_of_mem _ (List.mem_of_mem_drop member))
      obtain ⟨token, isLast, same⟩ := ih last others
      refine ⟨token, ?_, ?_⟩
      · rw [List.getLast?_cons, isLast]
        rfl
      · have longer : ¬ cs.length ≤ n := fun short => last (List.drop_eq_nil_iff.mpr short)
        have some : cs ≠ [] := fun none => last (by simp [none])
        rw [same, List.getLast?_drop, if_neg longer, List.getLast?_cons_of_ne_nil some]

end Token

end DocTypes
