import DocTypes.Proofs.RereadTypes

namespace DocTypes

namespace Grammar

/-- The marks of arguments, array types, constants and conditionals, which are in no native type. -/
def argumentMarks : List String :=
  ["<", "[", "\x7b", "::", ":"]

/-- The marks behind which a native type has to go on. -/
def openers : List String :=
  ["(", "?", "|", "&"]

/-- What follows a native type does not go on a type. -/
structure Stops (tail : List Token) : Prop where
  front : ∀ mark ∈ argumentMarks ++ ["(", ")", "?", "|"], tail.head?.map Token.text ≠ some mark
  reference : tail.head?.map Token.text = some "&" → marksReference (tail[1]?.map Token.text)

/-- Tokens at the end of a native type. -/
structure Hinted (used : List Token) : Prop where
  bare : ∀ token ∈ used, token.text ∉ argumentMarks ∧ ¬ Token.isVariable token.text
  last : ∀ token ∈ used.getLast?, token.text ∉ openers

theorem Hinted.of_suffix {used rest : List Token} (hinted : Hinted used) (suffix : rest <:+ used) :
    Hinted rest := by
  refine ⟨fun token isToken => hinted.bare token (suffix.subset isToken), fun token isLast => hinted.last token ?_⟩
  obtain ⟨before, rfl⟩ := suffix
  rw [Option.mem_def] at isLast ⊢
  rw [List.getLast?_append, isLast]
  rfl

theorem Hinted.ne_nil {token : Token} {rest : List Token} (hinted : Hinted (token :: rest))
    (opens : token.text ∈ openers) : rest ≠ [] := by
  rintro rfl
  exact hinted.last token rfl opens

/-- In step: from cursors that have the same tokens ahead up to two tails, the readings find the same value
and leave the same tokens before the tails. -/
def InStep {α : Type} (tail tail' : List Token) (used : List Token) (reading reading' : Reading α)
    (leaves : α → List Token → Prop) : Prop :=
  ∀ c c' : Cursor, c.ahead = used ++ tail → c'.ahead = used ++ tail' → ∀ value after, Reads reading c value after →
    ∃ rest after', rest <:+ used ∧ leaves value rest ∧ after.ahead = rest ++ tail ∧ after'.ahead = rest ++ tail' ∧
      Reads reading' c' value after'

section Rules

variable {α β : Type} {tail tail' used : List Token}

theorem inStep_pure {value : α} {leaves : α → List Token → Prop} (holds : leaves value used) :
    InStep tail tail' used (pure value) (pure value) leaves := by
  intro c c' ahead ahead' found after reads
  obtain ⟨rfl, rfl⟩ := reads_pure.mp reads
  exact ⟨used, c', List.suffix_rfl, holds, ahead, ahead', reads_pure.mpr ⟨rfl, rfl⟩⟩

theorem inStep_throw {error : ParseError} {reading' : Reading α} {leaves : α → List Token → Prop} :
    InStep tail tail' used (throw error) reading' leaves :=
  fun _ _ _ _ _ _ reads => absurd reads reads_throw

theorem InStep.bind {reading reading' : Reading α} {next next' : α → Reading β} {between : α → List Token → Prop}
    {leaves : β → List Token → Prop} (first : InStep tail tail' used reading reading' between)
    (second : ∀ value rest, rest <:+ used → between value rest →
      InStep tail tail' rest (next value) (next' value) leaves) :
    InStep tail tail' used (reading >>= next) (reading' >>= next') leaves := by
  intro c c' ahead ahead' value after reads
  obtain ⟨found, middle, readsFirst, readsSecond⟩ := reads_bind.mp reads
  obtain ⟨rest, middle', suffix, holds, aheadMiddle, aheadMiddle', readsFirst'⟩ :=
    first c c' ahead ahead' found middle readsFirst
  obtain ⟨last, after', suffixLast, holdsLast, aheadAfter, aheadAfter', readsSecond'⟩ :=
    second found rest suffix holds middle middle' aheadMiddle aheadMiddle' value after readsSecond
  exact ⟨last, after', suffixLast.trans suffix, holdsLast, aheadAfter, aheadAfter',
    reads_bind.mpr ⟨found, middle', readsFirst', readsSecond'⟩⟩

theorem inStep_peek {token : Token} {next next' : Option String → Reading α} {leaves : α → List Token → Prop}
    (follows : InStep tail tail' (token :: used) (next (some token.text)) (next' (some token.text)) leaves) :
    InStep tail tail' (token :: used) (peek 0 >>= next) (peek 0 >>= next') leaves := by
  intro c c' ahead ahead' value after reads
  have front : c.peek 0 = some token.text := by simp [Cursor.peek, ahead]
  have front' : c'.peek 0 = some token.text := by simp [Cursor.peek, ahead']
  rw [reads_peek_bind, front] at reads
  obtain ⟨rest, after', suffix, holds, aheadAfter, aheadAfter', reads'⟩ :=
    follows c c' ahead ahead' value after reads
  exact ⟨rest, after', suffix, holds, aheadAfter, aheadAfter', reads_peek_bind.mpr (front'.symm ▸ reads')⟩

theorem inStep_take {token : Token} :
    InStep tail tail' (token :: used) take take fun value rest => value = token.text ∧ rest = used := by
  intro c c' ahead ahead' value after reads
  obtain ⟨front, rfl⟩ := reads_take.mp reads
  have isValue : value = token.text := by simpa [Cursor.peek, ahead, eq_comm] using front
  refine ⟨used, c'.advance, List.suffix_cons token used, ⟨isValue, rfl⟩, ?_, ?_, ?_⟩
  · simp [Cursor.advance, ahead]
  · simp [Cursor.advance, ahead']
  · exact reads_take.mpr ⟨by simp [Cursor.peek, ahead', isValue], rfl⟩

theorem inStep_skip {token : Token} :
    InStep tail tail' (token :: used) (discard take) (discard take) fun _ rest => rest = used := by
  change InStep tail tail' (token :: used) (take >>= fun _ => Pure.pure ()) (take >>= fun _ => Pure.pure ()) _
  exact inStep_take.bind fun _ _ _ taken => inStep_pure taken.2

theorem inStep_keyword {token : Token} (right : String) :
    InStep tail tail' (token :: used) (keyword right) (keyword right) fun _ rest => rest = used := by
  intro c c' ahead ahead' value after reads
  obtain ⟨_, rfl⟩ := reads_keyword.mp reads
  refine ⟨used, (c'.correct right).advance, List.suffix_cons token used, rfl, ?_, ?_, ?_⟩
  · simp [Cursor.advance, Cursor.correct_ahead, ahead]
  · simp [Cursor.advance, Cursor.correct_ahead, ahead']
  · exact reads_keyword.mpr ⟨⟨token.text, by simp [Cursor.peek, ahead']⟩, rfl⟩

/-- A mark that the tails do not start with is in front in both texts or in neither. -/
theorem peek_mark {c : Cursor} {mark : String} (ahead : c.ahead = used ++ tail)
    (other : tail.head?.map Token.text ≠ some mark) :
    c.peek 0 = some mark ↔ ∃ token rest, used = token :: rest ∧ token.text = mark := by
  cases used with
  | nil =>
    have front : c.peek 0 = tail.head?.map Token.text := by
      rw [Cursor.peek, ahead, List.nil_append, List.head?_eq_getElem?]
    simp [front, other]
  | cons token rest => simp [Cursor.peek, ahead]

theorem inStep_eat {mark : String} (other : tail.head?.map Token.text ≠ some mark)
    (other' : tail'.head?.map Token.text ≠ some mark) :
    InStep tail tail' used (eat mark) (eat mark) fun found rest =>
      found = true → ∃ token, used = token :: rest ∧ token.text = mark := by
  intro c c' ahead ahead' found after reads
  obtain ⟨rfl, afterIs⟩ := reads_eat.mp reads
  by_cases front : c.peek 0 = some mark
  · obtain ⟨token, rest, rfl, isMark⟩ := (peek_mark ahead other).mp front
    have front' := (peek_mark ahead' other').mpr ⟨token, rest, rfl, isMark⟩
    rw [if_pos front] at afterIs
    refine ⟨rest, c'.advance, List.suffix_cons token rest, fun _ => ⟨token, rfl, isMark⟩, ?_, ?_, ?_⟩
    · simp [afterIs, Cursor.advance, ahead]
    · simp [Cursor.advance, ahead']
    · exact reads_eat.mpr ⟨by simp [front, front'], by rw [if_pos front']⟩
  · have front' : ¬ c'.peek 0 = some mark := by
      rw [peek_mark ahead' other', ← peek_mark ahead other]
      exact front
    rw [if_neg front] at afterIs
    refine ⟨used, c', List.suffix_rfl, fun found => absurd (of_decide_eq_true found) front, ?_, ahead', ?_⟩
    · rw [afterIs, ahead]
    · exact reads_eat.mpr ⟨by simp [front, front'], by rw [if_neg front']⟩

theorem inStep_expect {mark : String} (noLetter : ∀ c ∈ mark.toList, ¬ c.isAlpha)
    (other : tail.head?.map Token.text ≠ some mark) :
    InStep tail tail' used (expect mark) (expect mark) fun _ rest =>
      ∃ token, used = token :: rest ∧ token.text = mark := by
  intro c c' ahead ahead' value after reads
  obtain ⟨⟨found, front, same⟩, rfl⟩ := reads_expect.mp reads
  obtain rfl := Text.eq_of_sameWord noLetter same
  obtain ⟨token, rest, rfl, isMark⟩ := (peek_mark ahead other).mp front
  refine ⟨rest, c'.advance, List.suffix_cons token rest, ⟨token, rfl, isMark⟩, ?_, ?_, ?_⟩
  · simp [Cursor.advance, ahead]
  · simp [Cursor.advance, ahead']
  · exact reads_expect.mpr ⟨⟨found, by simp [Cursor.peek, ahead', isMark], same⟩, rfl⟩

end Rules

/-- Items of a native type with separators between them. The loops may have different bounds, since each item
takes a token and both bounds cover the tokens of the type. -/
theorem inStep_separated {α : Type} {tail tail' : List Token} {item item' : Reading α} {more : Reading Bool}
    (ofItem : ∀ used, used ≠ [] → Hinted used →
      InStep tail tail' used item item' fun _ rest => rest.length < used.length)
    (ofMore : ∀ used, Hinted used →
      InStep tail tail' used more more fun found rest => found = true → rest ≠ []) (n : Nat) :
    ∀ n' used, used ≠ [] → Hinted used → used.length ≤ n → used.length ≤ n' →
      InStep tail tail' used (separated item more n) (separated item' more n')
        fun _ rest => rest.length < used.length := by
  induction n with
  | zero =>
    intro n' used nonempty _ bound
    exact absurd (List.length_eq_zero_iff.mp (Nat.le_zero.mp bound)) nonempty
  | succ n ih =>
    intro n' used nonempty hinted bound bound'
    obtain ⟨m, rfl⟩ : ∃ m, n' = m + 1 := by
      have positive := List.length_pos_iff.mpr nonempty
      exact ⟨n' - 1, by omega⟩
    refine (ofItem used nonempty hinted).bind fun first rest suffix shorter => ?_
    refine (ofMore rest (hinted.of_suffix suffix)).bind fun found left suffixLeft goesOn => ?_
    have leftShorter : left.length < used.length := Nat.lt_of_le_of_lt suffixLeft.length_le shorter
    cases found with
    | false => exact inStep_pure leftShorter
    | true =>
      have others := ih m left (goesOn rfl) (hinted.of_suffix (suffixLeft.trans suffix)) (by omega) (by omega)
      exact others.bind fun _ last _ lastShorter => inStep_pure (Nat.lt_trans lastShorter leftShorter)

theorem inStep_sepBy {α : Type} {tail tail' : List Token} {item item' : Reading α} {more : Reading Bool}
    (ofItem : ∀ used, used ≠ [] → Hinted used →
      InStep tail tail' used item item' fun _ rest => rest.length < used.length)
    (ofMore : ∀ used, Hinted used →
      InStep tail tail' used more more fun found rest => found = true → rest ≠ [])
    {used : List Token} (nonempty : used ≠ []) (hinted : Hinted used) :
    InStep tail tail' used (sepBy item more) (sepBy item' more) fun _ rest => rest.length < used.length := by
  intro c c' ahead ahead' value after reads
  have bound : used.length ≤ c.ahead.length := by simp [ahead]
  have bound' : used.length ≤ c'.ahead.length := by simp [ahead']
  rw [sepBy, reads_get_bind] at reads
  exact inStep_separated ofItem ofMore _ _ used nonempty hinted bound bound' c c' ahead ahead' value after reads

/-- What the productions of one level do side by side. -/
structure Level.InStep (tail tail' : List Token) (inner inner' : Level) : Prop where
  anyType : ∀ bracketed used, used ≠ [] → Hinted used →
    Grammar.InStep tail tail' used (inner.anyType bracketed) (inner'.anyType bracketed)
      fun _ rest => rest.length < used.length
  basicType : ∀ used, used ≠ [] → Hinted used →
    Grammar.InStep tail tail' used inner.basicType inner'.basicType fun _ rest => rest.length < used.length

section Productions

variable {tail tail' : List Token} (bare : ∀ token ∈ tail, token.text ∉ argumentMarks) (stops : Stops tail)
  (stops' : Stops tail') {ctx : Context} {wide : Bool} {inner inner' : Level}

include stops stops' in
theorem inStep_continuesIntersection (used : List Token) (hinted : Hinted used) :
    InStep tail tail' used continuesIntersection continuesIntersection fun found rest => found = true →
      rest ≠ [] := by
  intro c c' ahead ahead' found after reads
  -- an `&` of the type has its next token in the type, and one behind it marks a reference
  have decides : (c.peek 0 = some "&" ∧ marksReference (c.peek 1) = false) ↔
      (c'.peek 0 = some "&" ∧ marksReference (c'.peek 1) = false) := by
    rcases used with _ | ⟨token, _ | ⟨next, rest⟩⟩
    · have reference := stops.reference
      have reference' := stops'.reference
      simp only [Cursor.peek, ahead, ahead', List.nil_append, ← List.head?_eq_getElem?]
      grind
    · have other : token.text ≠ "&" := fun isAnd => hinted.last token rfl (isAnd ▸ by decide)
      simp [Cursor.peek, ahead, ahead', other]
    · simp [Cursor.peek, ahead, ahead']
  have unfolded : ∀ c : Cursor, ∀ found after, Reads continuesIntersection c found after ↔
      if c.peek 0 = some "&" ∧ marksReference (c.peek 1) = false then found = true ∧ after = c.advance
      else found = false ∧ after = c := by
    intro c found after
    rw [continuesIntersection, reads_peek_bind, reads_peek_bind]
    by_cases front : c.peek 0 = some "&" <;> by_cases mark : marksReference (c.peek 1) <;> simp [front, mark]
  rw [unfolded] at reads
  by_cases goesOn : c.peek 0 = some "&" ∧ marksReference (c.peek 1) = false
  · rw [if_pos goesOn] at reads
    obtain ⟨rfl, rfl⟩ := reads
    cases used with
    | nil =>
      have reference := stops.reference
      simp only [Cursor.peek, ahead, List.nil_append, ← List.head?_eq_getElem?] at goesOn
      rw [reference goesOn.1] at goesOn
      exact absurd goesOn.2 (by decide)
    | cons token rest =>
      have isAnd : token.text = "&" := by simpa [Cursor.peek, ahead] using goesOn.1
      refine ⟨rest, c'.advance, List.suffix_cons token rest, fun _ => hinted.ne_nil (isAnd ▸ by decide), ?_, ?_, ?_⟩
      · simp [Cursor.advance, ahead]
      · simp [Cursor.advance, ahead']
      · rw [unfolded, if_pos (decides.mp goesOn)]
        exact ⟨rfl, rfl⟩
  · rw [if_neg goesOn] at reads
    obtain ⟨rfl, rfl⟩ := reads
    refine ⟨used, c', List.suffix_rfl, fun found => absurd found (by decide), ahead, ahead', ?_⟩
    rw [unfolded, if_neg fun goesOn' => goesOn (decides.mpr goesOn')]
    exact ⟨rfl, rfl⟩

/-- No native type has a `[]` behind it. -/
theorem reads_arraySuffix_of_ne {c : Cursor} (other : c.peek 0 ≠ some "[") (n : Nat) {found : Bool}
    {after : Cursor} :
    Reads (arraySuffix n) c found after ↔ found = false ∧ after = c := by
  cases n with
  | zero => exact reads_pure
  | succ n => simp [arraySuffix, other]

/-- None of the marks of arguments is in front of a native type or behind it. -/
theorem Hinted.peek_ne {used : List Token} (hinted : Hinted used) {c : Cursor} (ahead : c.ahead = used ++ tail)
    (stops : Stops tail) {mark : String} (isMark : mark ∈ argumentMarks) : c.peek 0 ≠ some mark := by
  intro front
  obtain ⟨token, rest, rfl, text⟩ := (peek_mark ahead (stops.front mark (List.mem_append_left _ isMark))).mp front
  exact (hinted.bare token (List.mem_cons_self ..)).1 (text ▸ isMark)

/-- A type whose first token is no variable is no conditional. -/
theorem reads_anyType_of_front {ctx : Context} {inner : Level} {bracketed : Bool} {c after : Cursor}
    {token : String} {type : DocType} (front : c.peek 0 = some token) (notVariable : ¬ Token.isVariable token) :
    Reads (anyType ctx inner bracketed) c type after ↔
      Reads (do let members ← if some token = some "?" then nullable inner else union ctx inner
                return (⟨ctx.classes.normalUnion members⟩ : DocType)) c type after := by
  rw [anyType, reads_peek_bind, front, reads_peek_bind]
  simp only [Option.any_some, notVariable, Bool.and_false, Bool.false_and, Bool.false_eq_true, if_false]

section Nested

variable (levels : Level.InStep tail tail' inner inner')
include stops stops' levels

theorem inStep_singleType {used : List Token} (nonempty : used ≠ []) (hinted : Hinted used) :
    InStep tail tail' used (singleType inner) (singleType inner') fun _ rest => rest.length < used.length := by
  have suffix : ∀ base rest, Hinted rest → rest.length < used.length → InStep tail tail' rest
      (do if ← arraySuffix (← get).ahead.length then return (⟨["array"]⟩ : DocType) else return base)
      (do if ← arraySuffix (← get).ahead.length then return (⟨["array"]⟩ : DocType) else return base)
      fun _ rest => rest.length < used.length := by
    intro base rest hintedRest shorter c c' ahead ahead' value after reads
    have other := hintedRest.peek_ne ahead stops (show "[" ∈ argumentMarks by decide)
    have other' := hintedRest.peek_ne ahead' stops' (show "[" ∈ argumentMarks by decide)
    rw [reads_get_bind] at reads
    obtain ⟨_, _, readsSuffix, last⟩ := reads_bind.mp reads
    obtain ⟨rfl, rfl⟩ := (reads_arraySuffix_of_ne other _).mp readsSuffix
    obtain ⟨rfl, rfl⟩ := reads_pure.mp last
    refine ⟨rest, c', List.suffix_rfl, shorter, ahead, ahead', ?_⟩
    rw [reads_get_bind]
    exact reads_bind.mpr ⟨false, c', (reads_arraySuffix_of_ne other' _).mpr ⟨rfl, rfl⟩, reads_pure.mpr ⟨rfl, rfl⟩⟩
  obtain ⟨token, more, rfl⟩ := List.exists_cons_of_ne_nil nonempty
  refine inStep_peek ?_
  by_cases opens : some token.text = some "("
  · rw [if_pos opens, if_pos opens]
    have isOpener : token.text ∈ openers := Option.some.inj opens ▸ by decide
    refine (inStep_expect (by simp) (stops.front "(" (by decide))).bind ?_
    rintro _ rest suffixRest ⟨_, isRest, _⟩
    obtain ⟨rfl, rfl⟩ := List.cons.inj isRest
    refine (levels.anyType true more (hinted.ne_nil isOpener) (hinted.of_suffix suffixRest)).bind ?_
    intro base left suffixLeft shorter
    refine (inStep_expect (by simp) (stops.front ")" (by decide))).bind ?_
    intro _ last suffixLast _
    have hintedLast := hinted.of_suffix ((suffixLast.trans suffixLeft).trans suffixRest)
    refine suffix base last hintedLast ?_
    have lengths := suffixLast.length_le
    rw [List.length_cons]
    omega
  · rw [if_neg opens, if_neg opens]
    refine (levels.basicType _ nonempty hinted).bind fun base rest suffixRest shorter => ?_
    exact suffix base rest (hinted.of_suffix suffixRest) shorter

theorem inStep_intersection (used : List Token) (nonempty : used ≠ []) (hinted : Hinted used) :
    InStep tail tail' used (intersection ctx inner) (intersection { ctx with wide } inner')
      fun _ rest => rest.length < used.length := by
  have ofSingle : ∀ used, used ≠ [] → Hinted used →
      InStep tail tail' used (singleType inner) (singleType inner') fun _ rest => rest.length < used.length :=
    fun _ nonempty hinted => inStep_singleType stops stops' levels nonempty hinted
  refine (inStep_sepBy ofSingle (inStep_continuesIntersection stops stops') nonempty hinted).bind ?_
  intro singles rest _ shorter c c' ahead ahead' members after reads
  obtain ⟨result, rfl⟩ := reads_lift.mp reads
  exact ⟨rest, c', List.suffix_rfl, shorter, ahead, ahead', reads_lift.mpr ⟨result, rfl⟩⟩

theorem inStep_union (used : List Token) (nonempty : used ≠ []) (hinted : Hinted used) :
    InStep tail tail' used (union ctx inner) (union { ctx with wide } inner')
      fun _ rest => rest.length < used.length := by
  have ofMore : ∀ used, Hinted used →
      InStep tail tail' used (eat "|") (eat "|") fun found rest => found = true → rest ≠ [] := by
    intro used hinted c c' ahead ahead' found after reads
    obtain ⟨rest, after', suffix, eaten, others⟩ :=
      inStep_eat (stops.front "|" (by decide)) (stops'.front "|" (by decide)) c c' ahead ahead' found after reads
    refine ⟨rest, after', suffix, fun isTrue => ?_, others⟩
    obtain ⟨token, rfl, text⟩ := eaten isTrue
    exact hinted.ne_nil (text ▸ by decide)
  refine (inStep_sepBy (inStep_intersection stops stops' levels) ofMore nonempty hinted).bind ?_
  exact fun _ _ _ shorter => inStep_pure shorter

theorem inStep_nullable {used : List Token} (hinted : Hinted used) :
    InStep tail tail' used (nullable inner) (nullable inner') fun _ rest => rest.length < used.length := by
  refine (inStep_expect (by simp) (stops.front "?" (by decide))).bind ?_
  rintro _ rest suffix ⟨token, rfl, text⟩
  have goesOn : rest ≠ [] := hinted.ne_nil (text ▸ by decide)
  refine (inStep_singleType stops stops' levels goesOn (hinted.of_suffix suffix)).bind fun _ last _ shorter => ?_
  exact inStep_pure (Nat.lt_succ_of_lt shorter)

theorem inStep_anyType (bracketed : Bool) (used : List Token) (nonempty : used ≠ []) (hinted : Hinted used) :
    InStep tail tail' used (anyType ctx inner bracketed) (anyType { ctx with wide } inner' bracketed)
      fun _ rest => rest.length < used.length := by
  have ofMembers : InStep tail tail' used
      (do let members ← if used.head?.map Token.text = some "?" then nullable inner else union ctx inner
          return (⟨ctx.classes.normalUnion members⟩ : DocType))
      (do let members ←
            if used.head?.map Token.text = some "?" then nullable inner' else union { ctx with wide } inner'
          return (⟨ctx.classes.normalUnion members⟩ : DocType))
      fun _ rest => rest.length < used.length := by
    split
    · exact (inStep_nullable stops stops' levels hinted).bind fun _ _ _ shorter => inStep_pure shorter
    · exact (inStep_union stops stops' levels used nonempty hinted).bind fun _ _ _ shorter => inStep_pure shorter
  intro c c' ahead ahead' type after reads
  obtain ⟨token, more, rfl⟩ := List.exists_cons_of_ne_nil nonempty
  have notVariable := (hinted.bare token (List.mem_cons_self ..)).2
  rw [reads_anyType_of_front (by simp [Cursor.peek, ahead]) notVariable] at reads
  obtain ⟨rest, after', suffix, shorter, aheadAfter, aheadAfter', reads'⟩ :=
    ofMembers c c' ahead ahead' type after reads
  refine ⟨rest, after', suffix, shorter, aheadAfter, aheadAfter', ?_⟩
  exact (reads_anyType_of_front (by simp [Cursor.peek, ahead']) notVariable).mpr reads'

end Nested

/-- Arguments that are not there in the one text are not there in the other. -/
theorem inStep_still {used : List Token} {arguments arguments' : Reading Unit}
    (silent : ∀ c value after, c.ahead = used ++ tail → Reads arguments c value after →
      after = c ∧ ∀ c', Cursor.ahead c' = used ++ tail' → Reads arguments' c' value c') :
    InStep tail tail' used arguments arguments' fun _ rest => rest = used := by
  intro c c' ahead ahead' value after reads
  obtain ⟨rfl, reads'⟩ := silent c value after ahead reads
  exact ⟨used, c', List.suffix_rfl, rfl, ahead, ahead', reads' c' ahead'⟩

theorem not_reads_expect {c after : Cursor} {value : Unit} {mark : String} (other : c.peek 0 ≠ some mark)
    (noLetter : ∀ c ∈ mark.toList, ¬ c.isAlpha) : ¬ Reads (expect mark) c value after := by
  intro reads
  obtain ⟨⟨found, front, same⟩, _⟩ := reads_expect.mp reads
  exact other (Text.eq_of_sameWord noLetter same ▸ front)

section Arguments

variable {used : List Token} (hinted : Hinted used)
include stops stops' hinted

theorem inStep_intArguments (word : String) :
    InStep tail tail' used (intArguments ctx inner word) (intArguments { ctx with wide } inner' word)
      fun _ rest => rest = used := by
  refine inStep_still fun c value after ahead reads => ?_
  have angle := hinted.peek_ne ahead stops (show "<" ∈ argumentMarks by decide)
  have refused : ∀ value after, ¬ Reads (expect "<") c value after :=
    fun _ _ => not_reads_expect angle (by simp)
  rw [intArguments, reads_peek_bind, if_neg (by simp [angle])] at reads
  split at reads
  · obtain ⟨_, _, opened, _⟩ := reads_bind.mp reads
    exact absurd opened (refused _ _)
  split at reads
  · obtain ⟨_, _, opened, _⟩ := reads_bind.mp reads
    exact absurd opened (refused _ _)
  next notMask notMaskOf =>
    refine ⟨(reads_pure.mp reads).2, fun c' ahead' => ?_⟩
    have angle' := hinted.peek_ne ahead' stops' (show "<" ∈ argumentMarks by decide)
    rw [intArguments, reads_peek_bind, if_neg (by simp [angle']), if_neg notMask, if_neg notMaskOf]
    exact reads_pure.mpr ⟨rfl, rfl⟩

theorem inStep_stringArguments (word : String) :
    InStep tail tail' used (stringArguments ctx inner word) (stringArguments { ctx with wide } inner' word)
      fun _ rest => rest = used := by
  refine inStep_still fun c value after ahead reads => ?_
  have angle := hinted.peek_ne ahead stops (show "<" ∈ argumentMarks by decide)
  rw [stringArguments, reads_peek_bind, if_neg (by simp [angle])] at reads
  refine ⟨(reads_pure.mp reads).2, fun c' ahead' => ?_⟩
  have angle' := hinted.peek_ne ahead' stops' (show "<" ∈ argumentMarks by decide)
  rw [stringArguments, reads_peek_bind, if_neg (by simp [angle'])]
  exact reads_pure.mpr ⟨rfl, rfl⟩

theorem inStep_arrayArguments (word : String) :
    InStep tail tail' used (arrayArguments ctx inner word) (arrayArguments { ctx with wide } inner' word)
      fun _ rest => rest = used := by
  have skipped : ∀ {ctx : Context} {inner : Level} {c after : Cursor} {value : Unit}, c.peek 0 ≠ some "<" →
      c.peek 0 ≠ some "\x7b" → (Reads (arrayArguments ctx inner word) c value after ↔ after = c) := by
    intro ctx inner c after value angle brace
    rw [arrayArguments, reads_peek_bind]
    split
    next front => exact absurd front angle
    next front => exact absurd front brace
    next => simp
  refine inStep_still fun c value after ahead reads => ?_
  have front : ∀ mark ∈ argumentMarks, c.peek 0 ≠ some mark := fun _ isMark => hinted.peek_ne ahead stops isMark
  refine ⟨(skipped (front "<" (by decide)) (front "\x7b" (by decide))).mp reads, fun c' ahead' => ?_⟩
  have frontNative : ∀ mark ∈ argumentMarks, c'.peek 0 ≠ some mark :=
    fun _ isMark => hinted.peek_ne ahead' stops' isMark
  exact (skipped (frontNative "<" (by decide)) (frontNative "\x7b" (by decide))).mpr rfl

/-- Arguments that have to start with a mark that is in no native type. -/
theorem inStep_ifMark {mark : String} (isMark : mark ∈ argumentMarks) (arguments arguments' : Reading Unit) :
    InStep tail tail' used (do if (← peek 0) = some mark then arguments)
      (do if (← peek 0) = some mark then arguments') fun _ rest => rest = used := by
  refine inStep_still fun c value after ahead reads => ?_
  rw [reads_peek_bind, if_neg (hinted.peek_ne ahead stops isMark)] at reads
  refine ⟨(reads_pure.mp reads).2, fun c' ahead' => ?_⟩
  rw [reads_peek_bind, if_neg (hinted.peek_ne ahead' stops' isMark)]
  exact reads_pure.mpr ⟨rfl, rfl⟩

/-- The signature of a callable type has a `:` in it, so none is read here. -/
theorem inStep_callableArguments (rereads : inner.Rereads ctx.scope)
    (bare : ∀ token ∈ tail, token.text ∉ argumentMarks) :
    InStep tail tail' used (callableArguments inner) (callableArguments inner') fun _ rest => rest = used := by
  refine inStep_still fun c value after ahead reads => ?_
  rw [callableArguments, reads_peek_bind] at reads
  split at reads
  · obtain ⟨_, second, opened, rest⟩ := reads_bind.mp reads
    rw [reads_get_bind] at rest
    obtain ⟨_, third, parameters, rest⟩ := reads_bind.mp rest
    obtain ⟨_, fourth, closed, rest⟩ := reads_bind.mp rest
    obtain ⟨_, fifth, colon, _⟩ := reads_bind.mp rest
    obtain ⟨_, rfl⟩ := reads_expect.mp opened
    obtain ⟨_, rfl⟩ := reads_expect.mp closed
    obtain ⟨taken, spent, _⟩ :=
      rereads_untilToken (by decide) (rereads_callableParameter rereads) _ c.advance _ third parameters
    obtain ⟨⟨found, front, same⟩, _⟩ := reads_expect.mp colon
    obtain rfl := Text.eq_of_sameWord (by simp) same
    obtain ⟨token, isAhead, text⟩ : ∃ token ∈ c.ahead, token.text = ":" := by
      obtain ⟨token, isFirst, text⟩ := Option.map_eq_some_iff.mp front
      have inThird : token ∈ third.ahead := List.mem_of_mem_tail (List.mem_of_getElem? isFirst)
      have inSecond : token ∈ c.advance.ahead := by
        rw [spent.ahead]
        exact List.mem_append_right _ inThird
      exact ⟨token, List.mem_of_mem_tail inSecond, text⟩
    have isMark : token.text ∈ argumentMarks := text ▸ by decide
    rw [ahead] at isAhead
    rcases List.mem_append.mp isAhead with inUsed | inTail
    · exact absurd isMark (hinted.bare token inUsed).1
    · exact absurd isMark (bare token inTail)
  next notOpen =>
    refine ⟨(reads_pure.mp reads).2, fun c' ahead' => ?_⟩
    have notOpen' : ¬ c'.peek 0 = some "(" := by
      rw [peek_mark ahead' (stops'.front "(" (by decide)), ← peek_mark ahead (stops.front "(" (by decide))]
      exact notOpen
    rw [callableArguments, reads_peek_bind, if_neg notOpen']
    exact reads_pure.mpr ⟨rfl, rfl⟩

end Arguments

include stops stops' bare

theorem inStep_basicHead (rereads : inner.Rereads ctx.scope) {token : Token} {more : List Token}
    (hinted : Hinted more) :
    InStep tail tail' (token :: more) (basicHead ctx inner token.text)
      (basicHead { ctx with wide } inner' token.text) fun _ rest => rest = more := by
  have alone : ∀ right (type : DocType), InStep tail tail' (token :: more) (do keyword right; return type)
      (do keyword right; return type) fun _ rest => rest = more :=
    fun right _ => (inStep_keyword right).bind fun _ _ _ same => inStep_pure same
  have argued : ∀ right {arguments arguments' : Reading Unit} (type : DocType),
      InStep tail tail' more arguments arguments' (fun _ rest => rest = more) →
      InStep tail tail' (token :: more) (do keyword right; arguments; return type)
        (do keyword right; arguments'; return type) fun _ rest => rest = more := by
    intro right arguments arguments' type ofArguments
    refine (inStep_keyword right).bind ?_
    rintro _ _ _ rfl
    exact ofArguments.bind fun _ _ _ same => inStep_pure same
  have literal : ∀ type : DocType, InStep tail tail' (token :: more) (do discard take; return type)
      (do discard take; return type) fun _ rest => rest = more :=
    fun _ => inStep_skip.bind fun _ _ _ same => inStep_pure same
  have callable :
      InStep tail tail' more (callableArguments inner) (callableArguments inner') fun _ rest => rest = more :=
    inStep_callableArguments stops stops' hinted rereads bare
  unfold basicHead
  cases Head.ofToken ctx.scope token.text with
  | bool right => exact alone right _
  | int right => exact argued right _ (inStep_intArguments stops stops' hinted right)
  | float => exact alone "float" _
  | floatLiteral => exact literal _
  | string right => exact argued right _ (inStep_stringArguments stops stops' hinted right)
  | stringLiteral => exact literal _
  | callableString => exact alone "callable-string" _
  | array right => exact argued right _ (inStep_arrayArguments stops stops' hinted right)
  | object => exact argued "object" _ (inStep_ifMark stops stops' hinted (by decide) _ _)
  | never => exact alone "never" _
  | plain right => exact alone right _
  | self => exact alone "self" _
  | parent => exact alone "parent" _
  | static => exact alone "static" _
  | callable => exact argued "callable" _ callable
  | closure =>
    refine inStep_skip.bind ?_
    rintro _ _ _ rfl
    exact callable.bind fun _ _ _ same => inStep_pure same
  | iterable => exact argued "iterable" _ (inStep_ifMark stops stops' hinted (by decide) _ _)
  | keyOrValue right =>
    refine (inStep_keyword right).bind ?_
    rintro _ _ _ rfl c c' ahead _ value after reads
    obtain ⟨_, _, arguments, _⟩ := reads_bind.mp reads
    obtain ⟨_, _, opened, _⟩ := reads_bind.mp arguments
    exact absurd opened (not_reads_expect (hinted.peek_ne ahead stops (by decide)) (by simp))
  | className =>
    refine inStep_take.bind ?_
    rintro _ _ _ ⟨rfl, rfl⟩
    by_cases trailing : token.text.toList.getLast? = some '\\'
    · rw [if_pos trailing]
      intro c c' _ _ value after reads
      obtain ⟨_, _, thrown, _⟩ := reads_bind.mp reads
      exact absurd thrown reads_throw
    · rw [if_neg trailing]
      exact inStep_pure rfl
  | unknown => exact inStep_throw

theorem inStep_basicType (rereads : inner.Rereads ctx.scope) (used : List Token) (nonempty : used ≠ [])
    (hinted : Hinted used) :
    InStep tail tail' used (basicType ctx inner) (basicType { ctx with wide } inner')
      fun _ rest => rest.length < used.length := by
  have noSuffix : ∀ {ctx : Context} {inner : Level} {type : DocType} {c after : Cursor} {value : DocType},
      c.peek 0 ≠ some "<" → c.peek 0 ≠ some "::" →
      (Reads (objectSuffix ctx inner type) c value after ↔ value = type ∧ after = c) := by
    intro ctx inner type c after value angle colons
    rw [objectSuffix, reads_peek_bind]
    split
    next front => exact absurd front angle
    next front => exact absurd front colons
    next => exact reads_pure
  obtain ⟨token, more, rfl⟩ := List.exists_cons_of_ne_nil nonempty
  have hintedMore := hinted.of_suffix (List.suffix_cons token more)
  refine inStep_peek ((inStep_basicHead bare stops stops' rereads hintedMore).bind ?_)
  rintro base _ _ rfl c c' ahead ahead' value after reads
  have front : ∀ mark ∈ argumentMarks, c.peek 0 ≠ some mark := fun _ isMark => hintedMore.peek_ne ahead stops isMark
  have frontNative : ∀ mark ∈ argumentMarks, c'.peek 0 ≠ some mark :=
    fun _ isMark => hintedMore.peek_ne ahead' stops' isMark
  obtain ⟨rfl, rfl⟩ := (noSuffix (front "<" (by decide)) (front "::" (by decide))).mp reads
  refine ⟨_, c', List.suffix_rfl, Nat.lt_succ_self _, ahead, ahead', ?_⟩
  exact (noSuffix (frontNative "<" (by decide)) (frontNative "::" (by decide))).mpr ⟨rfl, rfl⟩

end Productions

section Types

variable {tail tail' : List Token} (bare : ∀ token ∈ tail, token.text ∉ argumentMarks) (stops : Stops tail)
  (stops' : Stops tail')
include bare stops stops'

theorem level_inStep (ctx : Context) (wide : Bool) (n : Nat) :
    Level.InStep tail tail' (level ctx n) (level { ctx with wide } n) := by
  induction n with
  | zero => exact ⟨fun _ _ _ _ => inStep_throw, fun _ _ _ => inStep_throw⟩
  | succ n ih =>
    exact ⟨inStep_anyType stops stops' ih, inStep_basicType bare stops stops' (level_rereads ctx n)⟩

/-- A native type that is read in one text is read to the same value in the other, whatever counts for what cannot
be resolved. Whether its field ends there is told by the next token of the type or by the tails. -/
theorem inStep_delimitedType (ctx : Context) (wide : Bool)
    (spaced : ∀ token ∈ tail'.head?, token.spaced) {used : List Token} (nonempty : used ≠ [])
    (hinted : Hinted used) :
    InStep tail tail' used (delimitedType ctx) (delimitedType { ctx with wide }) fun _ _ => True := by
  intro c c' ahead ahead' type after reads
  obtain ⟨readsType, atEnd⟩ := reads_delimitedType.mp reads
  obtain ⟨rest, after', suffix, _, aheadAfter, aheadAfter', reads'⟩ :=
    (level_inStep bare stops stops' ctx wide ctx.limit).anyType false used nonempty hinted c c' ahead ahead' type
      after
      readsType
  refine ⟨rest, after', suffix, trivial, aheadAfter, aheadAfter', reads_delimitedType.mpr ⟨reads', ?_⟩⟩
  cases rest with
  | cons token rest => simpa [Cursor.atFieldEnd, aheadAfter, aheadAfter'] using atEnd
  | nil =>
    rw [Cursor.atFieldEnd, aheadAfter', List.nil_append]
    match tail', spaced with
    | [], _ => rfl
    | token :: _, spaced => simp [spaced token rfl]

end Types

end Grammar

end DocTypes
