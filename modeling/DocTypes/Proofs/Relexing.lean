import DocTypes.Proofs.RereadTypes
import DocTypes.Proofs.Scanning

namespace DocTypes

namespace Grammar

open Token (Cut scanFrom cut_of_scanFrom tailLength isWordStart continuesWord behind)

/-- The text with some of its first tokens in their right spelling. -/
def respell : List (Token × String) → List Char → List Char
  | [], cs => cs
  | (token, right) :: more, cs =>
    cs.takeWhile Text.isTypeSpace ++
      (right.toList ++ respell more ((cs.dropWhile Text.isTypeSpace).drop token.text.toList.length))

theorem respell_cut {cs blanks : List Char} {first : Char} {tail rest : List Char}
    (cut : Cut cs blanks first tail rest) {token : Token} (chars : token.text.toList = first :: tail)
    (right : String) (more : List (Token × String)) :
    respell ((token, right) :: more) cs = blanks ++ (right.toList ++ respell more rest) := by
  have front : cs.takeWhile Text.isTypeSpace = blanks := by
    rw [cut.split, List.takeWhile_append_of_pos cut.blank]
    simp [cut.notBlank]
  have back : cs.dropWhile Text.isTypeSpace = first :: (tail ++ rest) := by
    rw [cut.split, List.dropWhile_append_of_pos cut.blank]
    simp [cut.notBlank]
  rw [respell, front, back, chars]
  simp

/-- Making the corrections gives the text in its right spelling. -/
theorem foldr_splice (before : List Char) {cs : List Char} {spaced : Bool} {used : List (Token × String)}
    {rest : List Token} {ending : Ending}
    (scanned : scanFrom (Text.byteSize before) spaced cs = ⟨used.map Prod.fst ++ rest, ending⟩) :
    (used.filterMap correction?).foldr
        (fun fix text => Text.splice fix.pos fix.len fix.replacement.toList text) (before ++ cs) =
      before ++ respell used cs := by
  induction used generalizing before cs spaced with
  | nil => rfl
  | cons pair used ih =>
    obtain ⟨token, right⟩ := pair
    simp only [List.map_cons, List.cons_append] at scanned
    obtain ⟨blanks, first, tail, behindToken, cut, chars, isToken, others⟩ := cut_of_scanFrom scanned
    have start : token.start = Text.byteSize (before ++ blanks) := by rw [isToken, Token.start_behind]
    have stop : token.stop = Text.byteSize (before ++ blanks ++ first :: tail) := by rw [isToken, Token.stop_behind]
    rw [stop] at others
    have inner := ih _ others
    rw [respell_cut cut chars, cut.joined before]
    by_cases same : token.text = right
    · rw [List.filterMap_cons_none (by simp [correction?, same]), inner, ← same, chars]
      simp
    · have noted : correction? (token, right) =
          some ⟨token.start, Text.byteSize token.text.toList, right⟩ := if_neg same
      rw [List.filterMap_cons_some noted, List.foldr_cons, inner, start, chars, List.append_assoc _ (first :: tail),
        Text.splice_middle]
      simp

/-- A keyword starts with a letter or, if it is `$this`, with a `$`. -/
theorem keyword_first : ∀ word ∈ keywords ++ aliases,
    word.toList.head?.any Char.isAlpha ∨ word.toList.head? = some '$' ∧
      ∀ closure named : Bool, (Head.ofWord closure named word).spelling = some "static" := by
  decide +kernel

/-- A corrected token is a word, and its right spelling a keyword. -/
theorem corrected_word {scope : Scope} {token right : String} {first : Char} {tail rest : List Char}
    (chars : token.toList = first :: tail) (length : tailLength first (tail ++ rest) = some tail.length)
    (respelled : Respelled scope token right) (changed : right ≠ token) :
    right ∈ keywords ∧ (first.isAlpha ∨ first = '$' ∧ right = "static") := by
  have spelled := respelled.resolve_left changed
  rcases spelling_cases spelled with ⟨isKeyword, origin⟩ | ⟨integer, same⟩
  · refine ⟨isKeyword, ?_⟩
    have known : Text.lower token ∈ keywords ++ aliases := by
      rw [List.mem_append]
      rcases origin with same | second
      · exact Or.inl (same.symm ▸ isKeyword)
      · exact Or.inr second
    have head : (Text.lower token).toList.head? = some first.toLower := by simp [Text.lower, chars]
    rcases keyword_first _ known with letter | ⟨dollar, static⟩
    · rw [head, Option.any_some, Text.isAlpha_toLower] at letter
      exact Or.inl letter
    · rw [head, Option.some.injEq, Text.toLower_eq_iff (by decide)] at dollar
      rw [Head.ofToken_eq, static] at spelled
      exact Or.inr ⟨dollar, (Option.some.inj spelled).symm⟩
  · have isToken : token = String.ofList (first :: tail) := by rw [← chars, String.ofList_toList]
    rw [isToken, Token.lower_integer length (isToken ▸ integer), ← isToken] at same
    exact absurd same changed

/-- A corrected token stands at the very start of a text. -/
def StartsCorrected (used : List (Token × String)) (cs : List Char) : Prop :=
  ∃ token right more, used = (token, right) :: more ∧ right ≠ token.text ∧ cs.head? = token.text.toList.head?

/-- A text in its right spelling starts with the same character, or with a letter for a corrected token. -/
theorem respell_head {scope : Scope} {offset : Nat} {spaced : Bool} {cs : List Char} {used : List (Token × String)}
    {rest : List Token} {ending : Ending}
    (scanned : scanFrom offset spaced cs = ⟨used.map Prod.fst ++ rest, ending⟩)
    (spelled : ∀ pair ∈ used, Respelled scope pair.1.text pair.2) :
    ∀ c ∈ (respell used cs).head?, cs.head? = some c ∨ c.isAlpha ∧ StartsCorrected used cs := by
  intro c isHead
  cases used with
  | nil => exact Or.inl isHead
  | cons pair more =>
    obtain ⟨token, right⟩ := pair
    simp only [List.map_cons, List.cons_append] at scanned
    obtain ⟨blanks, first, tail, behindToken, cut, chars, isToken, others⟩ := cut_of_scanFrom scanned
    rw [respell_cut cut chars] at isHead
    cases blanks with
    | cons blank blanks =>
      rw [cut.split]
      exact Or.inl (by simpa using isHead)
    | nil =>
      rw [List.nil_append] at isHead
      by_cases same : right = token.text
      · rw [same, chars] at isHead
        rw [cut.split]
        exact Or.inl (by simpa using isHead)
      · obtain ⟨isKeyword, _⟩ := corrected_word chars cut.length (spelled _ (List.mem_cons_self ..)) same
        obtain ⟨letter, _⟩ := keyword_chars right isKeyword
        refine Or.inr ⟨?_, token, right, more, rfl, same, by rw [cut.split, chars]; rfl⟩
        cases spelling : right.toList with
        | nil => simp [spelling] at letter
        | cons r others =>
          rw [spelling] at letter isHead
          obtain rfl : r = c := by simpa using isHead
          simpa using letter

/-- Two points at the start of the right spelling are there in the text. -/
theorem respell_dots {scope : Scope} {offset : Nat} {spaced : Bool} {cs : List Char}
    {used : List (Token × String)} {rest : List Token} {ending : Ending}
    (scanned : scanFrom offset spaced cs = ⟨used.map Prod.fst ++ rest, ending⟩)
    (spelled : ∀ pair ∈ used, Respelled scope pair.1.text pair.2)
    (dots : ['.', '.'] <+: respell used cs) : ['.', '.'] <+: cs := by
  obtain ⟨behindDots, whole⟩ := dots
  cases used with
  | nil => exact ⟨behindDots, whole⟩
  | cons pair more =>
    have noLetter : ∀ {rest : List Char} {used : List (Token × String)} {c : Char}, c = '.' →
        (rest.head? = some c ∨ c.isAlpha ∧ StartsCorrected used rest) → rest.head? = some '.' := by
      rintro rest used c rfl (same | ⟨letter, _⟩)
      · exact same
      · exact absurd letter (by decide)
    have front := noLetter rfl (respell_head scanned spelled '.' (by rw [← whole]; rfl))
    obtain ⟨token, right⟩ := pair
    simp only [List.map_cons, List.cons_append] at scanned
    obtain ⟨blanks, first, tail, behindToken, cut, chars, isToken, others⟩ := cut_of_scanFrom scanned
    obtain rfl : blanks = [] := by
      cases blanks with
      | nil => rfl
      | cons blank blanks =>
        rw [cut.split] at front
        obtain rfl : blank = '.' := by simpa using front
        exact absurd (cut.blank '.' (List.mem_cons_self ..)) (by decide)
    obtain rfl : first = '.' := by
      rw [cut.split] at front
      simpa using front
    have same : right = token.text := by
      by_contra changed
      obtain ⟨_, letter | dollar⟩ := corrected_word chars cut.length (spelled _ (List.mem_cons_self ..)) changed
      · exact absurd letter (by decide)
      · exact absurd dollar.1 (by decide)
    rw [respell_cut cut chars, same, chars] at whole
    rw [cut.split]
    cases tail with
    | cons d tail =>
      simp only [List.cons_append, List.nil_append, List.cons.injEq, true_and] at whole
      rw [← whole.1]
      exact List.prefix_append ['.', '.'] _
    | nil =>
      simp only [List.cons_append, List.nil_append, List.cons.injEq, true_and] at whole
      have next :=
        noLetter rfl (respell_head others (fun pair member => spelled pair (List.mem_cons_of_mem _ member)) '.'
        (by rw [← whole]; rfl))
      cases behindToken with
      | nil => simp at next
      | cons d behindToken =>
        obtain rfl : d = '.' := by simpa using next
        exact List.prefix_append ['.', '.'] _

/-- Where no token is found the text is blank or opens a string. -/
theorem quote_of_no_tokens {offset : Nat} {spaced : Bool} {c : Char} {cs : List Char}
    (none : (scanFrom offset spaced (c :: cs)).tokens = []) : Text.isTypeSpace c ∨ c = '"' ∨ c = '\'' := by
  by_contra other
  rw [not_or] at other
  rw [scanFrom, if_neg other.1] at none
  have closed : tailLength c cs ≠ Option.none := by
    rw [Token.tailLength_eq, if_neg other.2]
    grind
  cases length : tailLength c cs with
  | none => exact closed length
  | some n => simp [length] at none

/-- What is settled does not go on a word right before it. -/
theorem settled_first {offset : Nat} {c : Char} {cs : List Char} {tokens : List Token} {ending : Ending}
    (scanned : scanFrom offset false (c :: cs) = ⟨tokens, ending⟩)
    (detached : ∀ token ∈ tokens.head?, Detached token) :
    c ≠ '-' ∧ c ≠ '\\' := by
  cases tokens with
  | nil =>
    rcases quote_of_no_tokens (congrArg TokenStream.tokens scanned) with blank | rfl | rfl
    · exact ⟨by rintro rfl; exact absurd blank (by decide), by rintro rfl; exact absurd blank (by decide)⟩
    all_goals decide
  | cons token others =>
    obtain ⟨blanks, first, tail, behindToken, cut, chars, isToken, _⟩ := cut_of_scanFrom scanned
    obtain ⟨whole, blank, _, _⟩ := cut
    cases blanks with
    | cons d blanks =>
      obtain ⟨rfl, _⟩ := List.cons.inj whole
      have isBlank := blank c (List.mem_cons_self ..)
      exact ⟨by rintro rfl; exact absurd isBlank (by decide), by rintro rfl; exact absurd isBlank (by decide)⟩
    | nil =>
      obtain ⟨rfl, _⟩ := List.cons.inj whole
      rcases detached token rfl with spaced | apart
      · rw [isToken] at spaced
        simp [behind] at spaced
      · rw [chars] at apart
        simpa using apart

/-- No word goes on behind a corrected token. -/
theorem corrected_end {scope : Scope} {offset : Nat} {first : Char} {tail behindToken : List Char}
    {more : List (Token × String)} {rest : List Token} {ending : Ending}
    (scanned : scanFrom offset false behindToken = ⟨more.map Prod.fst ++ rest, ending⟩)
    (spelled : ∀ pair ∈ more, Respelled scope pair.1.text pair.2)
    (settled : Settled (more.map Prod.fst ++ rest) (more.map Prod.snd ++ rest.map Token.text))
    (isWord : isWordStart first) (length : tailLength first (tail ++ behindToken) = some tail.length) :
    ∀ c ∈ (respell more behindToken).head?, ∀ start, ¬ continuesWord start c := by
  intro c isHead start
  have same : behindToken.head? = some c := by
    rcases respell_head scanned spelled c isHead with same | ⟨_, token, right, others, rfl, changed, _⟩
    · exact same
    · exact absurd (by simpa using settled.2) changed
  rw [Token.tailLength_eq, if_pos isWord, Option.some.injEq, Token.length_takeWhile_append] at length
  have maximal := length.2 c same
  cases behindToken with
  | nil => simp at same
  | cons d behindToken =>
    obtain rfl : d = c := by simpa using same
    have apart := settled_first scanned settled.1
    simp only [continuesWord, Bool.or_eq_true, Bool.and_eq_true, beq_iff_eq, not_or] at maximal ⊢
    exact ⟨maximal.1, fun goesOn => goesOn.2.elim apart.1 apart.2⟩

/-- A text and its right spelling go on alike behind the tokens that were taken. -/
def Relexed (used : List (Token × String)) (rest : List Token) (ending : Ending) (offset other : Nat)
    (spaced : Bool) (cs : List Char) : Prop :=
  ∃ before now behind gap taken, cs = before ++ behind ∧ respell used cs = now ++ behind ∧
    scanFrom (offset + Text.byteSize before) gap behind = ⟨rest, ending⟩ ∧
    taken.map (fun token => (token.text, token.spaced)) = used.map (fun pair => (pair.2, pair.1.spaced)) ∧
    scanFrom other spaced (respell used cs) =
      ⟨taken ++ (scanFrom (other + Text.byteSize now) gap behind).tokens,
        (scanFrom (other + Text.byteSize now) gap behind).ending⟩

/-- One more token is found in its right spelling. -/
theorem Relexed.cons {used : List (Token × String)} {rest : List Token} {ending : Ending} {offset other : Nat}
    {spaced : Bool} {cs blanks : List Char} {first : Char} {tail behindToken : List Char} {token : Token}
    {right : String} {start : Char} {letters : List Char} (cut : Cut cs blanks first tail behindToken)
    (isToken : token = behind blanks (first :: tail) offset spaced) (spelling : right.toList = start :: letters)
    (again : Cut (respell ((token, right) :: used) cs) blanks start letters (respell used behindToken))
    (relexed : Relexed used rest ending (behind blanks (first :: tail) offset spaced).stop
      (behind blanks (start :: letters) other spaced).stop false behindToken) :
    Relexed ((token, right) :: used) rest ending offset other spaced cs := by
  obtain ⟨before, now, back, gap, taken, split, respelled, following, texts, scanned⟩ := relexed
  refine ⟨blanks ++ (first :: tail) ++ before, blanks ++ (start :: letters) ++ now, back, gap,
    behind blanks (start :: letters) other spaced :: taken, ?_, ?_, ?_, ?_, ?_⟩
  · rw [cut.split, split]
    simp
  · rw [again.split, respelled]
    simp
  · rw [← following]
    simp only [behind, Text.byteSize_append, Nat.add_assoc]
  · rw [List.map_cons, List.map_cons, texts, isToken, ← String.ofList_toList (s := right), spelling]
    rfl
  · rw [again.scanFrom]
    dsimp only
    rw [scanned]
    simp only [behind, Text.byteSize_append, Nat.add_assoc, List.cons_append]

section Step

variable {scope : Scope} {cs blanks : List Char} {first : Char} {tail behindToken : List Char} {token : Token}
  {right : String} {more : List (Token × String)} {rest : List Token} {ending : Ending}

/-- A corrected token is a word. -/
theorem corrected_isWordStart (chars : token.text.toList = first :: tail)
    (length : tailLength first (tail ++ behindToken) = some tail.length)
    (respelled : Respelled scope token.text right) (changed : right ≠ token.text) : isWordStart first := by
  rcases (corrected_word chars length respelled changed).2 with letter | ⟨rfl, _⟩
  · simp [isWordStart, letter]
  · decide

theorem word_continues {start c : Char} (letter : start.isAlpha) (goesOn : c.isAlpha || c == '-') :
    continuesWord start c := by
  have notVariable : start ≠ '$' := by
    rintro rfl
    exact absurd letter (by decide)
  rcases Bool.or_eq_true_iff.mp goesOn with alpha | dash
  · simp [continuesWord, Char.isAlphanum, alpha]
  · simp [continuesWord, notVariable, beq_iff_eq.mp dash]

/-- A token in its right spelling is a token again, unless a corrected one runs into it. -/
theorem respell_token (cut : Cut cs blanks first tail behindToken) (chars : token.text.toList = first :: tail)
    (others : scanFrom token.stop false behindToken = ⟨more.map Prod.fst ++ rest, ending⟩)
    (spelled : ∀ pair ∈ (token, right) :: more, Respelled scope pair.1.text pair.2)
    (clear : Clear ((token, right) :: more) rest (rest.map Token.text))
    (apart : ¬ (isWordStart first ∧ StartsCorrected more behindToken)) :
    ∃ start letters, right.toList = start :: letters ∧
      Cut (respell ((token, right) :: more) cs) blanks start letters (respell more behindToken) := by
  obtain ⟨respelled, spelled⟩ := List.forall_mem_cons.mp spelled
  by_cases same : right = token.text
  · refine ⟨first, tail, same ▸ chars, ?_, cut.blank, cut.notBlank, ?_⟩
    · rw [respell_cut cut chars, same, chars]
      rfl
    · refine Token.tailLength_congr cut.length (fun c isHead => ?_) (respell_dots others spelled)
      refine (respell_head others spelled c isHead).imp_right fun ⟨letter, corrected⟩ => ⟨letter, ?_⟩
      exact fun isWord => apart ⟨isWord, corrected⟩
  · obtain ⟨isKeyword, _⟩ := corrected_word chars cut.length respelled same
    obtain ⟨letter, letters⟩ := keyword_chars right isKeyword
    have wordEnd :=
      corrected_end others spelled (clear.1 same) (corrected_isWordStart chars cut.length respelled same) cut.length
    cases spelling : right.toList with
    | nil => simp [spelling] at letter
    | cons r others =>
      rw [spelling] at letter letters
      have letter : r.isAlpha := letter
      have isWord : isWordStart r := by simp [isWordStart, letter]
      have notBlank : ¬ Text.isTypeSpace r :=
        fun blank => Text.forall_blank (p := (¬ ·.isAlpha)) (by decide) blank letter
      refine ⟨r, others, rfl, ?_, cut.blank, notBlank, ?_⟩
      · rw [respell_cut cut chars, spelling]
        rfl
      · rw [Token.tailLength_eq, if_pos isWord, Option.some.injEq, Token.length_takeWhile_append]
        exact ⟨fun c member => word_continues letter
          (List.all_eq_true.mp letters c (List.mem_cons_of_mem _ member)), fun c isHead => wordEnd c isHead r⟩

/-- A corrected token that runs into the word before it makes one word of both. -/
theorem respell_glued (cut : Cut cs blanks first tail behindToken) (chars : token.text.toList = first :: tail)
    (others : scanFrom token.stop false behindToken = ⟨more.map Prod.fst ++ rest, ending⟩)
    (spelled : ∀ pair ∈ (token, right) :: more, Respelled scope pair.1.text pair.2)
    (clear : Clear ((token, right) :: more) rest (rest.map Token.text))
    (isWord : isWordStart first) (corrected : StartsCorrected more behindToken) :
    ∃ second fixed further letters behindSecond, more = (second, fixed) :: further ∧
      scanFrom second.stop false behindSecond = ⟨further.map Prod.fst ++ rest, ending⟩ ∧
      Cut (respell ((token, right) :: more) cs) blanks first letters (respell further behindSecond) := by
  obtain ⟨second, fixed, further, rfl, changed, atStart⟩ := corrected
  have same : right = token.text := by
    by_contra different
    exact absurd (by simpa using (clear.1 different).2) changed
  simp only [List.map_cons, List.cons_append] at others
  obtain ⟨gap, start, letters, behindSecond, cutSecond, charsSecond, _, following⟩ := cut_of_scanFrom others
  obtain ⟨respelled, spelledFurther⟩ := List.forall_mem_cons.mp (List.forall_mem_cons.mp spelled).2
  have wordEnd := corrected_end following spelledFurther (clear.2.1 changed)
    (corrected_isWordStart charsSecond cutSecond.length respelled changed) cutSecond.length
  have length := cut.length
  rw [Token.tailLength_eq, if_pos isWord, Option.some.injEq, Token.length_takeWhile_append] at length
  rw [charsSecond] at atStart
  have noGap : gap = [] := by
    cases gap with
    | nil => rfl
    | cons blank gap =>
      rw [cutSecond.split] at atStart
      obtain rfl : blank = start := by simpa using atStart
      exact absurd (cutSecond.blank _ (List.mem_cons_self ..)) cutSecond.notBlank
  subst noGap
  -- the word before ends there, so what was corrected is a variable
  have isStatic : fixed = "static" := by
    rcases (corrected_word charsSecond cutSecond.length respelled changed).2 with letter | ⟨_, isStatic⟩
    · refine absurd ?_ (length.2 start atStart)
      simp [continuesWord, Char.isAlphanum, letter]
    · exact isStatic
  refine ⟨second, fixed, further, tail ++ "static".toList, behindSecond, rfl, following, ?_, cut.blank,
    cut.notBlank, ?_⟩
  · rw [respell_cut cut chars, respell_cut cutSecond charsSecond, same, chars, isStatic]
    simp
  · rw [Token.tailLength_eq, if_pos isWord, Option.some.injEq, Token.length_takeWhile_append]
    refine ⟨fun c member => ?_, fun c isHead => wordEnd c isHead first⟩
    rcases List.mem_append.mp member with inWord | inStatic
    · exact length.1 c inWord
    · have letter : ∀ c ∈ "static".toList, c.isAlphanum := by simp
      simp [continuesWord, letter c inStatic]

end Step

/-- The right spelling of a text has no more tokens than the text; if it has as many, they are the tokens
of the text in their right spelling. -/
theorem relex {scope : Scope} {used : List (Token × String)} {rest : List Token} {ending : Ending} {offset : Nat}
    {spaced : Bool} {cs : List Char}
    (scanned : scanFrom offset spaced cs = ⟨used.map Prod.fst ++ rest, ending⟩)
    (spelled : ∀ pair ∈ used, Respelled scope pair.1.text pair.2) (clear : Clear used rest (rest.map Token.text))
    (other : Nat) :
    (scanFrom other spaced (respell used cs)).tokens.length ≤ used.length + rest.length ∧
      (used.length + rest.length ≤ (scanFrom other spaced (respell used cs)).tokens.length →
        Relexed used rest ending offset other spaced cs) := by
  -- where two tokens become one the induction goes on behind both
  induction size : used.length using Nat.strong_induction_on generalizing used offset other spaced cs with
  | _ n ih =>
    subst size
    cases used with
    | nil =>
      have found : scanFrom offset spaced cs = ⟨rest, ending⟩ := scanned
      refine ⟨?_, fun _ => ⟨[], [], cs, spaced, [], rfl, rfl, found, rfl, rfl⟩⟩
      rw [respell, Token.length_scanFrom other offset, found]
      simp
    | cons pair more =>
      obtain ⟨token, right⟩ := pair
      simp only [List.map_cons, List.cons_append] at scanned
      obtain ⟨blanks, first, tail, behindToken, cut, chars, isToken, others⟩ := cut_of_scanFrom scanned
      have moreSpelled := (List.forall_mem_cons.mp spelled).2
      rw [List.length_cons]
      by_cases glued : isWordStart first ∧ StartsCorrected more behindToken
      · obtain ⟨second, fixed, further, letters, behindSecond, rfl, following, again⟩ :=
          respell_glued cut chars others spelled clear glued.1 glued.2
        have fewer := (ih further.length (by simp only [List.length_cons]; omega) following
          (List.forall_mem_cons.mp moreSpelled).2 clear.2.2 (behind blanks (first :: letters) other spaced).stop
          rfl).1
        rw [again.scanFrom]
        simp only [List.length_cons] at fewer ⊢
        omega
      · obtain ⟨start, letters, spelling, again⟩ := respell_token cut chars others spelled clear glued
        obtain ⟨atMost, asMany⟩ := ih more.length (by simp) others moreSpelled clear.2
          (behind blanks (start :: letters) other spaced).stop rfl
        refine ⟨?_, fun enough => ?_⟩
        · rw [again.scanFrom]
          simp only [List.length_cons]
          omega
        · rw [again.scanFrom] at enough
          simp only [List.length_cons] at enough
          have relexed := asMany (by omega)
          rw [isToken] at relexed
          exact Relexed.cons cut isToken spelling again relexed

end Grammar

end DocTypes
