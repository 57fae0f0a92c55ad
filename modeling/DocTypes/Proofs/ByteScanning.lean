import DocTypes.Proofs.Scanning
import DocTypes.TypeText.Tokenizer

namespace DocTypes

namespace Text

theorem length_charBytes (c : Char) : (charBytes c).length = c.utf8Size := by
  rw [charBytes, List.length_map, String.length_utf8EncodeChar]

@[simp] theorem bytes_nil : bytes [] = [] :=
  rfl

@[simp] theorem bytes_cons (c : Char) (cs : List Char) : bytes (c :: cs) = charBytes c ++ bytes cs :=
  rfl

theorem bytes_append (as bs : List Char) : bytes (as ++ bs) = bytes as ++ bytes bs :=
  List.flatMap_append

theorem length_bytes (cs : List Char) : (bytes cs).length = byteSize cs := by
  induction cs with
  | nil => rfl
  | cons c cs ih => rw [bytes_cons, List.length_append, ih, length_charBytes, byteSize]

theorem drop_bytes (before cs : List Char) : (bytes (before ++ cs)).drop (byteSize before) = bytes cs := by
  rw [bytes_append, ← length_bytes, List.drop_left]

theorem toNat_ofUInt8 (n : Nat) (small : n < 256) : (Char.ofUInt8 (UInt8.ofNat n)).toNat = n := by
  change (UInt8.ofNat n).toUInt32.toNat = n
  rw [UInt8.toNat_toUInt32, UInt8.toNat_ofNat_of_lt' small]

theorem charBytes_ascii {c : Char} (ascii : c.toNat < 128) : charBytes c = [c] := by
  have small : c.val.toNat ≤ 0x7f := Nat.le_of_lt_succ ascii
  rw [charBytes, String.utf8EncodeChar, if_pos small, List.map_singleton]
  exact congrArg ([·]) (Char.toNat_inj.mp (toNat_ofUInt8 _ (by omega)))

theorem utf8Size_ascii {c : Char} (ascii : c.toNat < 128) : c.utf8Size = 1 := by
  rw [← length_charBytes, charBytes_ascii ascii, List.length_singleton]

/-- A character beyond ASCII has no ASCII byte. -/
theorem charBytes_wide {c : Char} (wide : 128 ≤ c.toNat) : ∀ d ∈ charBytes c, 128 ≤ d.toNat := by
  have large : ¬ c.val.toNat ≤ 0x7f := Nat.not_le.mpr wide
  rw [charBytes, String.utf8EncodeChar, if_neg large, List.forall_mem_map]
  intro byte member
  have inRange : ∃ n, 128 ≤ n ∧ n < 256 ∧ byte = UInt8.ofNat n := by
    split at member
    · simp only [List.mem_cons, List.not_mem_nil, or_false] at member
      rcases member with rfl | rfl <;> exact ⟨_, by omega, by omega, rfl⟩
    split at member
    · simp only [List.mem_cons, List.not_mem_nil, or_false] at member
      rcases member with rfl | rfl | rfl <;> exact ⟨_, by omega, by omega, rfl⟩
    · simp only [List.mem_cons, List.not_mem_nil, or_false] at member
      rcases member with rfl | rfl | rfl | rfl <;> exact ⟨_, by omega, by omega, rfl⟩
  obtain ⟨n, lower, upper, rfl⟩ := inRange
  rwa [toNat_ofUInt8 n upper]

theorem exists_charBytes (c : Char) : ∃ first more, charBytes c = first :: more :=
  List.exists_cons_of_length_pos (by rw [length_charBytes]; exact Char.utf8Size_pos c)

/-- The bytes that go on a character are beyond ASCII. -/
theorem wide_of_charBytes {c first : Char} {more : List Char} (split : charBytes c = first :: more) :
    ∀ d ∈ more, 128 ≤ d.toNat := by
  by_cases ascii : c.toNat < 128
  · rw [charBytes_ascii ascii] at split
    obtain ⟨_, rfl⟩ := List.cons.inj split
    exact List.forall_mem_nil _
  · intro d member
    exact charBytes_wide (Nat.not_lt.mp ascii) d (by rw [split]; exact List.mem_cons_of_mem _ member)

/-- Characters of an ASCII class are found alike in a text and in its bytes. -/
theorem takeWhile_bytes {p : Char → Bool} (ascii : ∀ c, p c → c.toNat < 128) (cs : List Char) :
    (bytes cs).takeWhile p = cs.takeWhile p ∧ (bytes cs).dropWhile p = bytes (cs.dropWhile p) := by
  induction cs with
  | nil => exact ⟨rfl, rfl⟩
  | cons c cs ih =>
    rw [bytes_cons]
    by_cases narrow : c.toNat < 128
    · rw [charBytes_ascii narrow, List.singleton_append]
      by_cases holds : p c
      · rw [List.takeWhile_cons_of_pos holds, List.takeWhile_cons_of_pos holds, List.dropWhile_cons_of_pos holds,
          List.dropWhile_cons_of_pos holds, ih.1]
        exact ⟨rfl, ih.2⟩
      · rw [List.takeWhile_cons_of_neg holds, List.takeWhile_cons_of_neg holds, List.dropWhile_cons_of_neg holds,
          List.dropWhile_cons_of_neg holds, bytes_cons, charBytes_ascii narrow]
        exact ⟨rfl, rfl⟩
    · obtain ⟨first, more, split⟩ := exists_charBytes c
      have firstWide := charBytes_wide (Nat.not_lt.mp narrow) first (by rw [split]; exact List.mem_cons_self ..)
      have fails : ¬ p c := fun holds => narrow (ascii c holds)
      have failsFirst : ¬ p first := fun holds => Nat.not_lt.mpr firstWide (ascii first holds)
      rw [split, List.cons_append, List.takeWhile_cons_of_neg failsFirst, List.takeWhile_cons_of_neg fails,
        List.dropWhile_cons_of_neg failsFirst, List.dropWhile_cons_of_neg fails, bytes_cons, split]
      exact ⟨rfl, rfl⟩

theorem byteSize_ascii {cs : List Char} (ascii : ∀ c ∈ cs, c.toNat < 128) : byteSize cs = cs.length :=
  byteSize_eq_length fun c member => utf8Size_ascii (ascii c member)

theorem slice?_middle (before middle after : List Char) :
    slice? (byteSize before) (byteSize (before ++ middle)) (before ++ middle ++ after) = some middle := by
  have start : isBoundary (byteSize before) (before ++ middle ++ after) := by
    rw [isBoundary, List.append_assoc, takeBytes_byteSize, beq_self_eq_true]
  have stop : isBoundary (byteSize (before ++ middle)) (before ++ middle ++ after) := by
    rw [isBoundary, takeBytes_byteSize, beq_self_eq_true]
  rw [slice?, start, stop, Bool.and_self, if_pos rfl, slice, List.append_assoc, dropBytes_byteSize, byteSize_append,
    Nat.add_sub_cancel_left, takeBytes_byteSize]

end Text

namespace Token

/-- A text that opens a string behind some blanks and never closes it. -/
structure Unclosed (cs blanks : List Char) (quote : Char) (rest : List Char) : Prop where
  split : cs = blanks ++ quote :: rest
  blank : ∀ c ∈ blanks, Text.isTypeSpace c
  notBlank : ¬ Text.isTypeSpace quote
  length : tailLength quote rest = none

/-- A text is blank, or opens a string that is never closed, or has a first token. -/
theorem blank_or_unclosed_or_cut (cs : List Char) :
    (∀ c ∈ cs, Text.isTypeSpace c) ∨ (∃ blanks quote rest, Unclosed cs blanks quote rest) ∨
      ∃ blanks first tail rest, Cut cs blanks first tail rest := by
  have whole : cs.takeWhile Text.isTypeSpace ++ cs.dropWhile Text.isTypeSpace = cs :=
    List.takeWhile_append_dropWhile
  have blank : ∀ c ∈ cs.takeWhile Text.isTypeSpace, Text.isTypeSpace c := fun c => List.mem_takeWhile_imp
  cases others : cs.dropWhile Text.isTypeSpace with
  | nil =>
    rw [others, List.append_nil] at whole
    exact Or.inl (by rwa [whole] at blank)
  | cons first more =>
    have notBlank : ¬ Text.isTypeSpace first := by
      have failed := List.head?_dropWhile_not Text.isTypeSpace cs
      simpa [others] using failed
    rw [others] at whole
    right
    cases length : tailLength first more with
    | none => exact Or.inl ⟨_, first, more, whole.symm, blank, notBlank, length⟩
    | some n =>
      have bound := tailLength_le length
      refine Or.inr ⟨_, first, more.take n, more.drop n, ?_, blank, notBlank, ?_⟩
      · rw [List.take_append_drop, whole]
      · rw [List.take_append_drop, length, List.length_take, Nat.min_eq_left bound]

theorem scanFrom_of_blank {cs : List Char} (blank : ∀ c ∈ cs, Text.isTypeSpace c) (offset : Nat) (spaced : Bool) :
    scanFrom offset spaced cs =
      ⟨[], ⟨offset + Text.byteSize cs, offset + Text.byteSize cs, spaced || !cs.isEmpty⟩⟩ := by
  have scanned := scanFrom_blanks blank offset spaced []
  rwa [List.append_nil, scanFrom] at scanned

theorem Unclosed.scanFrom {cs blanks : List Char} {quote : Char} {rest : List Char}
    (unclosed : Unclosed cs blanks quote rest) (offset : Nat) (spaced : Bool) :
    Token.scanFrom offset spaced cs =
      ⟨[], ⟨offset + Text.byteSize blanks, offset + Text.byteSize cs, spaced || !blanks.isEmpty⟩⟩ := by
  rw [unclosed.split, scanFrom_blanks unclosed.blank, Token.scanFrom, if_neg unclosed.notBlank, unclosed.length,
    Text.byteSize_append, Nat.add_assoc]

end Token

namespace Token

theorem ascii_of_isAlphanum {c : Char} (isChar : c.isAlphanum) : c.toNat < 128 := by
  simp only [Char.isAlphanum, Text.isAlpha_eq, Text.isUpper_eq, Text.isLower_eq, Char.isDigit, Bool.or_eq_true,
    Bool.and_eq_true, decide_eq_true_eq, ge_iff_le, UInt32.le_iff_toNat_le] at isChar
  simp at isChar
  have same : c.toNat = c.val.toNat := rfl
  omega

theorem ascii_of_isDigit {c : Char} (digit : c.isDigit) : c.toNat < 128 :=
  ascii_of_isAlphanum (by simp [Char.isAlphanum, digit])

theorem ascii_of_isTypeSpace {c : Char} (isBlank : Text.isTypeSpace c) : c.toNat < 128 :=
  Text.forall_blank (p := (·.toNat < 128)) (by decide) isBlank

theorem ascii_of_isWordStart {c : Char} (starts : isWordStart c) : c.toNat < 128 := by
  simp only [isWordStart, Bool.or_eq_true, beq_iff_eq] at starts
  rcases starts with ((letter | rfl) | rfl) | rfl
  · exact ascii_of_isAlphanum (by simp [Char.isAlphanum, letter])
  all_goals decide

theorem ascii_of_continuesWord (first : Char) {c : Char} (continues : continuesWord first c) : c.toNat < 128 := by
  simp only [continuesWord, Bool.or_eq_true, Bool.and_eq_true, beq_iff_eq] at continues
  rcases continues with (isChar | rfl) | ⟨_, rfl | rfl⟩
  · exact ascii_of_isAlphanum isChar
  all_goals decide

theorem numberTail_bytes (point : Bool) (cs : List Char) :
    numberTail point (Text.bytes cs) = Text.byteSize (cs.take (numberTail point cs)) := by
  induction cs generalizing point with
  | nil => rfl
  | cons c cs ih =>
    rw [Text.bytes_cons]
    by_cases narrow : c.toNat < 128
    · have size := Text.utf8Size_ascii narrow
      rw [Text.charBytes_ascii narrow, List.singleton_append, numberTail, numberTail]
      split
      · rw [ih, List.take_succ_cons, Text.byteSize]
        omega
      split
      · rw [ih, List.take_succ_cons, Text.byteSize]
        omega
      · rfl
    · obtain ⟨first, more, split⟩ := Text.exists_charBytes c
      have wide := Nat.not_lt.mp narrow
      have firstWide := Text.charBytes_wide wide first (by rw [split]; exact List.mem_cons_self ..)
      have none {d : Char} (wide : 128 ≤ d.toNat) (ds : List Char) : numberTail point (d :: ds) = 0 := by
        have notDigit : ¬ d.isDigit := fun digit => Nat.not_lt.mpr wide (ascii_of_isDigit digit)
        have notLow : d ≠ '_' := by rintro rfl; exact absurd wide (by decide)
        have notPoint : d ≠ '.' := by rintro rfl; exact absurd wide (by decide)
        simp [numberTail, notDigit, notLow, notPoint]
      rw [split, List.cons_append, none firstWide, none wide]
      rfl

/-- Bytes beyond ASCII neither close a string nor escape anything. -/
theorem quotedTail_wide {quote : Char} (ascii : quote.toNat < 128) {ds : List Char} (wide : ∀ d ∈ ds, 128 ≤ d.toNat)
    (rest : List Char) : quotedTail quote (ds ++ rest) = (quotedTail quote rest).map (· + ds.length) := by
  induction ds with
  | nil => simp
  | cons d ds ih =>
    have dWide := wide d (List.mem_cons_self ..)
    have notQuote : d ≠ quote := by rintro rfl; exact absurd ascii (Nat.not_lt.mpr dWide)
    have notSlash : d ≠ '\\' := by rintro rfl; exact absurd dWide (by decide)
    rw [List.cons_append, quotedTail.eq_def]
    simp only [notQuote, notSlash, if_false]
    rw [ih fun e member => wide e (List.mem_cons_of_mem _ member), Option.map_map, List.length_cons]
    rfl

/-- A string is closed by the same quote in a text and in its bytes, although a backslash takes only one
byte with it. -/
theorem quotedTail_bytes {quote : Char} (ascii : quote.toNat < 128) (cs : List Char) :
    quotedTail quote (Text.bytes cs) = (quotedTail quote cs).map fun n => Text.byteSize (cs.take n) := by
  fun_induction quotedTail quote cs with
  | case1 => rfl
  | case2 cs =>
    rw [Text.bytes_cons, Text.charBytes_ascii ascii, List.singleton_append, quotedTail.eq_def]
    simp [Text.byteSize, Text.utf8Size_ascii ascii]
  | case3 different =>
    rw [Text.bytes_cons, Text.charBytes_ascii (by decide), List.singleton_append, quotedTail.eq_def]
    simp [different]
  | case4 escaped rest different ih =>
    -- the backslash takes the first byte of the character with it, and no other byte of it is ASCII
    obtain ⟨first, more, split⟩ := Text.exists_charBytes escaped
    have size := Text.length_charBytes escaped
    rw [split, List.length_cons] at size
    have slash : '\\'.utf8Size = 1 := Text.utf8Size_ascii (by decide)
    rw [Text.bytes_cons, Text.charBytes_ascii (by decide), List.singleton_append, Text.bytes_cons, split,
      List.cons_append, quotedTail.eq_def]
    simp only [different, if_false, if_true]
    rw [quotedTail_wide ascii (Text.wide_of_charBytes split), ih, Option.map_map, Option.map_map, Option.map_map]
    refine congrArg (Option.map · _) (funext fun n => ?_)
    simp only [Function.comp_apply, List.take_succ_cons, Text.byteSize]
    omega
  | case5 c cs different plain ih =>
    by_cases narrow : c.toNat < 128
    · have size := Text.utf8Size_ascii narrow
      rw [Text.bytes_cons, Text.charBytes_ascii narrow, List.singleton_append, quotedTail.eq_def]
      simp only [different, plain, if_false]
      rw [ih, Option.map_map, Option.map_map]
      refine congrArg (Option.map · _) (funext fun n => ?_)
      simp only [Function.comp_apply, List.take_succ_cons, Text.byteSize]
      omega
    · rw [Text.bytes_cons, quotedTail_wide ascii (Text.charBytes_wide (Nat.not_lt.mp narrow)), ih, Option.map_map,
        Option.map_map]
      refine congrArg (Option.map · _) (funext fun n => ?_)
      simp only [Function.comp_apply, List.take_succ_cons, Text.byteSize, Text.length_charBytes]
      omega

/-- Marks of several ASCII characters stand at the start of a text and of its bytes alike. -/
theorem prefix_bytes_iff {mark : List Char} (ascii : ∀ c ∈ mark, c.toNat < 128) (cs : List Char) :
    mark <+: Text.bytes cs ↔ mark <+: cs := by
  induction mark generalizing cs with
  | nil => simp
  | cons m mark ih =>
    cases cs with
    | nil => simp
    | cons c cs =>
      have mAscii := ascii m (List.mem_cons_self ..)
      rw [Text.bytes_cons]
      by_cases narrow : c.toNat < 128
      · rw [Text.charBytes_ascii narrow, List.singleton_append, List.cons_prefix_cons, List.cons_prefix_cons,
          ih fun d member => ascii d (List.mem_cons_of_mem _ member)]
      · obtain ⟨first, more, split⟩ := Text.exists_charBytes c
        have firstWide :=
          Text.charBytes_wide (Nat.not_lt.mp narrow) first (by rw [split]; exact List.mem_cons_self ..)
        rw [split, List.cons_append, List.cons_prefix_cons, List.cons_prefix_cons]
        refine iff_of_false ?_ ?_
        · rintro ⟨rfl, _⟩
          omega
        · rintro ⟨rfl, _⟩
          omega

theorem startsNumber_bytes (first : Char) (cs : List Char) :
    startsNumber first (Text.bytes cs) = startsNumber first cs := by
  cases cs with
  | nil => rfl
  | cons c cs =>
    by_cases narrow : c.toNat < 128
    · rw [Text.bytes_cons, Text.charBytes_ascii narrow]
      rfl
    · obtain ⟨d, more, split⟩ := Text.exists_charBytes c
      have wide := Text.charBytes_wide (Nat.not_lt.mp narrow) d (by rw [split]; exact List.mem_cons_self ..)
      have notDigit : c.isDigit = false := Bool.eq_false_iff.mpr fun digit => narrow (ascii_of_isDigit digit)
      have notDigit' : d.isDigit = false :=
        Bool.eq_false_iff.mpr fun digit => Nat.not_lt.mpr wide (ascii_of_isDigit digit)
      simp [startsNumber, split, notDigit, notDigit']

/-- Behind an ASCII character the bytes of a token are those of its characters. -/
theorem tailLength_bytes {first : Char} (ascii : first.toNat < 128) (cs : List Char) :
    tailLength first (Text.bytes cs) = (tailLength first cs).map fun n => Text.byteSize (cs.take n) := by
  have dots := prefix_bytes_iff (show ∀ c ∈ ['.', '.'], c.toNat < 128 by simp) cs
  have colon := prefix_bytes_iff (show ∀ c ∈ [':'], c.toNat < 128 by simp) cs
  have word := (Text.takeWhile_bytes (fun c => ascii_of_continuesWord first) cs).1
  simp only [tailLength_eq, startsNumber_bytes, dots, colon, word, numberTail_bytes, quotedTail_bytes ascii]
  split
  · have taken : cs.take (cs.takeWhile (continuesWord first)).length = cs.takeWhile (continuesWord first) :=
      (List.prefix_iff_eq_take.mp (List.takeWhile_prefix _)).symm
    rw [Option.map_some, taken, Text.byteSize_ascii fun c member => ?_]
    exact ascii_of_continuesWord first (List.mem_takeWhile_imp member)
  split
  · rfl
  split
  · rfl
  split
  next isDots =>
    obtain ⟨more, rfl⟩ := isDots.2
    rfl
  split
  next isColon =>
    obtain ⟨more, rfl⟩ := isColon.2
    rfl
  · rfl

/-- A character beyond ASCII starts no word, number, string or mark. -/
theorem tailBytes_wide {first : Char} (wide : 128 ≤ first.toNat) (width : Nat) (bytes : List Char) :
    tailBytes width first bytes = some (width - 1) := by
  have notWord : ¬ isWordStart first := fun starts => Nat.not_lt.mpr wide (ascii_of_isWordStart starts)
  have notDigit : ¬ first.isDigit := fun digit => Nat.not_lt.mpr wide (ascii_of_isDigit digit)
  have other {c : Char} (ascii : c.toNat < 128) : first ≠ c := by
    rintro rfl
    omega
  have notMinus : first ≠ '-' := other (by decide)
  have notDouble : first ≠ '"' := other (by decide)
  have notSingle : first ≠ '\'' := other (by decide)
  have notDot : first ≠ '.' := other (by decide)
  have notColon : first ≠ ':' := other (by decide)
  simp [tailBytes, notWord, notDigit, notMinus, notDouble, notSingle, notDot, notColon]

/-- The bytes of a token are those of its characters. -/
theorem tailBytes_bytes {c first : Char} {cs more : List Char} (split : Text.bytes (c :: cs) = first :: more) :
    tailBytes c.utf8Size first more = (tailLength c cs).map fun n => Text.byteSize (c :: cs.take n) - 1 := by
  by_cases narrow : c.toNat < 128
  · rw [Text.bytes_cons, Text.charBytes_ascii narrow] at split
    obtain ⟨rfl, rfl⟩ := List.cons.inj split
    have size := Text.utf8Size_ascii narrow
    have alike := tailLength_bytes narrow cs
    simp only [Text.byteSize, size, Nat.add_sub_cancel_left]
    exact alike
  · obtain ⟨d, others, isChar⟩ := Text.exists_charBytes c
    have wide := Text.charBytes_wide (Nat.not_lt.mp narrow) d (by rw [isChar]; exact List.mem_cons_self ..)
    rw [Text.bytes_cons, isChar] at split
    obtain ⟨rfl, _⟩ := List.cons.inj split
    have alone : tailLength c cs = some 0 := tailBytes_wide (Nat.not_lt.mp narrow) 1 cs
    rw [tailBytes_wide wide, alone]
    rfl

end Token

namespace Found

variable (before : List Char) {cs : List Char}

theorem scanAt_of_blank (blank : ∀ c ∈ cs, Text.isTypeSpace c) :
    scanAt (before ++ cs) (Text.byteSize before) =
      ⟨Text.byteSize (before ++ cs), Text.byteSize (before ++ cs), none⟩ := by
  obtain ⟨taken, dropped⟩ := Text.takeWhile_bytes (fun c => Token.ascii_of_isTypeSpace) cs
  rw [List.takeWhile_eq_self_iff.mpr blank] at taken
  rw [List.dropWhile_eq_nil_iff.mpr blank, Text.bytes_nil] at dropped
  have start : Text.byteSize before + cs.length = Text.byteSize (before ++ cs) := by
    rw [Text.byteSize_append, Text.byteSize_blanks blank]
  simp only [scanAt, Text.drop_bytes, taken, dropped, start]

/-- What is scanned behind some blanks is told by the characters there. -/
theorem scanAt_of_blanks {blanks : List Char} {first : Char} (blank : ∀ c ∈ blanks, Text.isTypeSpace c)
    (notBlank : ¬ Text.isTypeSpace first) (more : List Char) :
    scanAt (before ++ (blanks ++ first :: more)) (Text.byteSize before) =
      match Token.tailLength first more with
      | none => ⟨Text.byteSize (before ++ blanks), Text.byteSize (before ++ (blanks ++ first :: more)), none⟩
      | some n => ⟨Text.byteSize (before ++ blanks), Text.byteSize (before ++ blanks ++ first :: more.take n),
          some (String.ofList (first :: more.take n))⟩ := by
  obtain ⟨taken, dropped⟩ := Text.takeWhile_bytes (fun c => Token.ascii_of_isTypeSpace) (blanks ++ first :: more)
  rw [List.takeWhile_append_of_pos blank, List.takeWhile_cons_of_neg notBlank, List.append_nil] at taken
  rw [List.dropWhile_append_of_pos blank, List.dropWhile_cons_of_neg notBlank] at dropped
  obtain ⟨byte, others, split⟩ : ∃ byte others, Text.bytes (first :: more) = byte :: others := by
    obtain ⟨byte, others, isChar⟩ := Text.exists_charBytes first
    exact ⟨byte, others ++ Text.bytes more, by rw [Text.bytes_cons, isChar]; rfl⟩
  rw [split] at dropped
  have start : Text.byteSize before + blanks.length = Text.byteSize (before ++ blanks) := by
    rw [Text.byteSize_append, Text.byteSize_blanks blank]
  have width : ((Text.dropBytes (Text.byteSize (before ++ blanks)) (before ++ (blanks ++ first :: more))).head?.map
      Char.utf8Size).getD 1 = first.utf8Size := by
    rw [← List.append_assoc, Text.dropBytes_byteSize]
    rfl
  simp only [scanAt, Text.drop_bytes, taken, dropped, start, width, Token.tailBytes_bytes split]
  cases Token.tailLength first more with
  | none => rfl
  | some n =>
    have whole : before ++ (blanks ++ first :: more) = before ++ blanks ++ first :: more.take n ++ more.drop n := by
      simp
    have stop : min (Text.byteSize (before ++ blanks) + 1 + (Text.byteSize (first :: more.take n) - 1))
        (Text.byteSize (before ++ (blanks ++ first :: more))) =
          Text.byteSize (before ++ blanks ++ first :: more.take n) := by
      have positive := Char.utf8Size_pos first
      rw [whole, Text.byteSize_append _ (more.drop n), Text.byteSize_append _ (first :: more.take n)]
      simp only [Text.byteSize]
      omega
    simp only [Option.map_some, stop]
    rw [whole, Text.slice?_middle, Option.map_some]

theorem scanAt_of_unclosed {blanks : List Char} {quote : Char} {rest : List Char}
    (unclosed : Token.Unclosed cs blanks quote rest) :
    scanAt (before ++ cs) (Text.byteSize before) =
      ⟨Text.byteSize (before ++ blanks), Text.byteSize (before ++ cs), none⟩ := by
  rw [unclosed.split, scanAt_of_blanks before unclosed.blank unclosed.notBlank, unclosed.length]

theorem scanAt_of_cut {blanks : List Char} {first : Char} {tail rest : List Char}
    (cut : Token.Cut cs blanks first tail rest) (spaced : Bool) :
    scanAt (before ++ cs) (Text.byteSize before) =
      let token := Token.behind blanks (first :: tail) (Text.byteSize before) spaced
      ⟨token.start, token.stop, some token.text⟩ := by
  rw [cut.split, scanAt_of_blanks before cut.blank cut.notBlank, cut.length]
  simp only [List.take_left, Token.start_behind, Token.stop_behind]
  rfl

/-- What is scanned at the end of the text is the end. -/
theorem scanAt_byteSize (text : List Char) :
    scanAt text (Text.byteSize text) = ⟨Text.byteSize text, Text.byteSize text, none⟩ := by
  have atEnd := scanAt_of_blank text (List.forall_mem_nil _)
  rwa [List.append_nil] at atEnd

end Found

end DocTypes
