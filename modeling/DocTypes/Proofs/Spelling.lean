import DocTypes.Proofs.Reading

namespace DocTypes

/-- The words that come after class names keep their meaning: none is a name for `\Closure`. -/
def Scope.KeepsWords (scope : Scope) : Prop :=
  ∀ word ∈ ["iterable", "key-of", "value-of"], scope.resolveDocName word ≠ "\\Closure"

instance (scope : Scope) : Decidable scope.KeepsWords :=
  inferInstanceAs (Decidable (∀ word ∈ ["iterable", "key-of", "value-of"],
    scope.resolveDocName word ≠ "\\Closure"))

namespace Token

theorem startsWithDigit_lower (text : String) : startsWithDigit (Text.lower text) = startsWithDigit text := by
  unfold startsWithDigit Text.lower
  rw [String.toList_ofList]
  match text.toList with
  | [] => rfl
  | [c] =>
    by_cases minus : c = '-'
    · subst minus
      rfl
    · have lowered : c.toLower ≠ '-' := fun same => minus ((Text.toLower_eq_iff (by decide)).mp same)
      simp [Text.isDigit_toLower]
  | c :: d :: rest =>
    by_cases minus : c = '-'
    · subst minus
      exact Text.isDigit_toLower d
    · have lowered : c.toLower ≠ '-' := fun same => minus ((Text.toLower_eq_iff (by decide)).mp same)
      simp [minus, lowered, Text.isDigit_toLower]

theorem mem_lower {c : Char} (other : ¬ c.isAlpha) (text : String) :
    c ∈ (Text.lower text).toList ↔ c ∈ text.toList := by
  simp [Text.lower, Text.toLower_eq_iff other]

theorem isIntLiteral_lower (text : String) : isIntLiteral (Text.lower text) = isIntLiteral text := by
  have point := mem_lower (c := '.') (by decide) text
  simp [isIntLiteral, startsWithDigit_lower, point]

theorem isFloatLiteral_lower (text : String) : isFloatLiteral (Text.lower text) = isFloatLiteral text := by
  have point := mem_lower (c := '.') (by decide) text
  simp [isFloatLiteral, startsWithDigit_lower, point]

theorem isStringLiteral_lower (text : String) : isStringLiteral (Text.lower text) = isStringLiteral text := by
  unfold isStringLiteral Text.lower
  rw [String.toList_ofList]
  cases text.toList with
  | nil => rfl
  | cons c rest =>
    have double : c.toLower = '"' ↔ c = '"' := Text.toLower_eq_iff (by decide)
    have single : c.toLower = '\'' ↔ c = '\'' := Text.toLower_eq_iff (by decide)
    rw [Bool.eq_iff_iff]
    simp [double, single]

end Token

namespace Grammar

/-- What a word, in small letters, announces, where `closure` tells whether it resolves to
`\Closure` and `named` whether it may name a class. -/
def Head.ofWord (closure named : Bool) (word : String) : Head :=
  if word = "boolean" then .bool "bool"
  else if ["bool", "true", "false"].contains word then .bool word
  else if word = "integer" then .int "int"
  else if ["int", "positive-int", "negative-int", "non-positive-int", "non-negative-int", "int-mask",
      "int-mask-of"].contains word || Token.isIntLiteral word then .int word
  else if word = "float" || word = "double" then .float
  else if Token.isFloatLiteral word then .floatLiteral
  else if ["string", "class-string", "numeric-string", "literal-string", "non-empty-string",
      "non-falsy-string", "truthy-string"].contains word then .string word
  else if Token.isStringLiteral word then .stringLiteral
  else if word = "callable-string" then .callableString
  else if ["array", "non-empty-array", "list", "non-empty-list"].contains word then .array word
  else if word = "object" then .object
  else if ["never", "never-return", "never-returns", "no-return"].contains word then .never
  else if ["resource", "null", "void", "mixed", "array-key", "scalar"].contains word then .plain word
  else if word = "self" then .self
  else if word = "parent" then .parent
  else if word = "static" || word = "$this" then .static
  else if word = "callable" then .callable
  else if closure then .closure
  else if word = "iterable" then .iterable
  else if word = "key-of" || word = "value-of" then .keyOrValue word
  else if named then .className
  else .unknown

theorem Head.ofToken_eq (scope : Scope) (token : String) :
    Head.ofToken scope token =
      Head.ofWord (scope.resolveDocName token = "\\Closure") (isClassName token) (Text.lower token) := by
  simp only [Head.ofToken, Head.ofWord, Token.isIntLiteral_lower, Token.isFloatLiteral_lower,
    Token.isStringLiteral_lower, decide_eq_true_eq]

/-- The keywords in their right spelling. -/
def keywords : List String :=
  ["bool", "true", "false", "int", "positive-int", "negative-int", "non-positive-int", "non-negative-int",
   "int-mask", "int-mask-of", "float", "string", "class-string", "numeric-string", "literal-string",
   "non-empty-string", "non-falsy-string", "truthy-string", "callable-string", "array", "non-empty-array",
   "list", "non-empty-list", "object", "never", "resource", "null", "void", "mixed", "array-key", "scalar",
   "self", "parent", "static", "callable", "iterable", "key-of", "value-of"]

/-- The second names of keywords. -/
def aliases : List String :=
  ["boolean", "integer", "double", "never-return", "never-returns", "no-return", "$this"]

/-- The right spelling of a token that announces this; class names and literals have none. -/
def Head.spelling : Head → Option String
  | .bool word | .int word | .string word | .array word | .plain word | .keyOrValue word => some word
  | .float => some "float"
  | .callableString => some "callable-string"
  | .object => some "object"
  | .never => some "never"
  | .self => some "self"
  | .parent => some "parent"
  | .static => some "static"
  | .callable => some "callable"
  | .iterable => some "iterable"
  | .floatLiteral | .stringLiteral | .closure | .className | .unknown => none

theorem Head.ofWord_of_not_keyword {word : String} (notKeyword : word ∉ keywords) (notAlias : word ∉ aliases)
    (closure named : Bool) : Head.ofWord closure named word =
      if Token.isIntLiteral word then .int word
      else if Token.isFloatLiteral word then .floatLiteral
      else if Token.isStringLiteral word then .stringLiteral
      else if closure then .closure
      else if named then .className
      else .unknown := by
  simp only [keywords, aliases, List.mem_cons, List.not_mem_nil, or_false, not_or] at notKeyword notAlias
  simp [Head.ofWord, notKeyword, notAlias]

/-- Of other words only integers have a right spelling. -/
theorem Head.isIntLiteral_of_spelling {word right : String} (notKeyword : word ∉ keywords)
    (notAlias : word ∉ aliases) {closure named : Bool}
    (spelled : (Head.ofWord closure named word).spelling = some right) :
    Token.isIntLiteral word ∧ right = word := by
  by_cases integer : Token.isIntLiteral word
  · rw [Head.ofWord_of_not_keyword notKeyword notAlias, if_pos integer, Head.spelling] at spelled
    exact ⟨integer, (Option.some.inj spelled).symm⟩
  · rw [Head.ofWord_of_not_keyword notKeyword notAlias, if_neg integer] at spelled
    repeat' split at spelled
    all_goals simp [Head.spelling] at spelled

/-- The right spelling of a keyword announces the same, whether or not it could name a class. -/
theorem Head.ofWord_spelling : ∀ word ∈ keywords ++ aliases, ∀ closure named named' : Bool,
    ∀ right ∈ (Head.ofWord closure named word).spelling,
      right ∈ keywords ∧ (word = right ∨ word ∈ aliases) ∧
        Head.ofWord false named' right = Head.ofWord closure named word ∧
        (right ∉ ["iterable", "key-of", "value-of"] →
          Head.ofWord true named' right = Head.ofWord closure named word) := by
  decide +kernel

/-- The characters of keywords. -/
theorem keyword_chars : ∀ word ∈ keywords, word.toList.head?.any Char.isAlpha ∧
    word.toList.all fun c => c.isAlpha || c == '-' := by
  decide +kernel

theorem lower_keyword : ∀ word ∈ keywords, Text.lower word = word := by decide +kernel

/-- A token with a right spelling is a keyword, in whatever case and under either name, or an
integer. -/
theorem spelling_cases {scope : Scope} {token right : String}
    (spelled : (Head.ofToken scope token).spelling = some right) :
    right ∈ keywords ∧ (Text.lower token = right ∨ Text.lower token ∈ aliases) ∨
      Token.isIntLiteral token ∧ right = Text.lower token := by
  rw [Head.ofToken_eq] at spelled
  by_cases known : Text.lower token ∈ keywords ++ aliases
  · obtain ⟨isKeyword, same, _⟩ := Head.ofWord_spelling _ known _ _ false right spelled
    exact Or.inl ⟨isKeyword, same⟩
  · rw [List.mem_append, not_or] at known
    have integer := Head.isIntLiteral_of_spelling known.1 known.2 spelled
    rw [Token.isIntLiteral_lower] at integer
    exact Or.inr integer

/-- The right spelling announces what the token announces. -/
theorem ofToken_spelling {scope : Scope} (keeps : scope.KeepsWords) {token right : String}
    (spelled : (Head.ofToken scope token).spelling = some right) :
    Head.ofToken scope right = Head.ofToken scope token := by
  rw [Head.ofToken_eq] at spelled
  rw [Head.ofToken_eq scope token, Head.ofToken_eq scope right]
  by_cases known : Text.lower token ∈ keywords ++ aliases
  · obtain ⟨isKeyword, _, plain, late⟩ := Head.ofWord_spelling _ known _ _ (isClassName right) right spelled
    rw [lower_keyword right isKeyword]
    by_cases closure : scope.resolveDocName right = "\\Closure"
    · rw [decide_eq_true closure]
      exact late fun member => keeps right member closure
    · rw [decide_eq_false closure]
      exact plain
  · rw [List.mem_append, not_or] at known
    obtain ⟨integer, same⟩ := Head.isIntLiteral_of_spelling known.1 known.2 spelled
    rw [same, Text.lower_lower, Head.ofWord_of_not_keyword known.1 known.2,
      Head.ofWord_of_not_keyword known.1 known.2, if_pos integer, if_pos integer]

/-- A token as it was or in its right spelling. -/
def Respelled (scope : Scope) (before now : String) : Prop :=
  now = before ∨ (Head.ofToken scope before).spelling = some now

/-- The marks that may follow a type and do not go on an intersection. -/
def closers : List String :=
  ["(", ")", "[", "]", "<", ">", "\x7b", "\x7d", ",", "|", "?", ":", "::", "*", "=", "...", ";", "."]

/-- The marks and words that the grammar asks for as they stand. -/
def marks : List String :=
  "&" :: "is" :: closers

theorem closer_mark {mark : String} (isCloser : mark ∈ closers) : mark ∈ marks := by
  simp [marks, isCloser]

theorem mark_not_keyword : ∀ mark ∈ marks, mark ∉ keywords ∧ Text.lower mark ∉ keywords ∧
    Text.lower mark ∉ aliases ∧ ¬ Token.isIntLiteral mark := by
  decide +kernel

/-- No mark is a keyword. -/
theorem not_mark_of_spelling {scope : Scope} {token right : String}
    (spelled : (Head.ofToken scope token).spelling = some right) : token ∉ marks := by
  intro isMark
  obtain ⟨_, notLower, notAlias, notInteger⟩ := mark_not_keyword token isMark
  rcases spelling_cases spelled with ⟨right, same | second⟩ | ⟨integer, _⟩
  · exact notLower (same ▸ right)
  · exact notAlias second
  · exact notInteger integer

/-- No mark is a right spelling. -/
theorem spelling_not_mark {scope : Scope} {token right : String}
    (spelled : (Head.ofToken scope token).spelling = some right) : right ∉ marks := by
  intro isMark
  obtain ⟨notRight, _, _, notInteger⟩ := mark_not_keyword right isMark
  rcases spelling_cases spelled with ⟨right, _⟩ | ⟨integer, same⟩
  · exact notRight right
  · rw [← Token.isIntLiteral_lower, ← same] at integer
    exact notInteger integer

theorem Respelled.mark {scope : Scope} {before now mark : String} (respelled : Respelled scope before now)
    (isMark : mark ∈ marks) : now = mark ↔ before = mark := by
  rcases respelled with rfl | spelled
  · rfl
  · constructor
    · rintro rfl
      exact absurd isMark (spelling_not_mark spelled)
    · rintro rfl
      exact absurd isMark (not_mark_of_spelling spelled)

/-- The right spelling of a token never looks like a variable. -/
theorem not_isVariable_of_spelling {scope : Scope} {token right : String}
    (spelled : (Head.ofToken scope token).spelling = some right) : ¬ Token.isVariable right := by
  rcases spelling_cases spelled with ⟨isKeyword, _⟩ | ⟨integer, rfl⟩
  · have none : ∀ word ∈ keywords, ¬ Token.isVariable word := by decide +kernel
    exact none right isKeyword
  · rw [← Token.isIntLiteral_lower] at integer
    intro dollar
    simp only [Token.isIntLiteral, Token.startsWithDigit, Token.isVariable, Bool.and_eq_true, beq_iff_eq]
      at integer dollar
    split at integer <;> simp_all

theorem Respelled.marksReference {scope : Scope} {before now : String} (respelled : Respelled scope before now)
    (mark : Grammar.marksReference (some now)) : Grammar.marksReference (some before) := by
  rcases respelled with rfl | spelled
  · exact mark
  simp only [Grammar.marksReference, Bool.or_eq_true, List.contains_iff_mem] at mark ⊢
  rcases mark with isMark | isVariable
  · have listed : ∀ mark ∈ ["...", "=", ",", ")"], mark ∈ marks := by decide
    have same : before = now := (Respelled.mark (Or.inr spelled) (listed now isMark)).mp rfl
    exact Or.inl (same ▸ isMark)
  · exact absurd isVariable (not_isVariable_of_spelling spelled)

/-- What may be the key of an item in an array shape. -/
def isItemKey (token : String) : Bool :=
  Token.isShapeWord token || Token.isStringLiteral token || Token.isIntLiteral token

theorem isItemKey_lower (token : String) : isItemKey (Text.lower token) = isItemKey token := by
  have underscore : ∀ c : Char, (c.toLower == '_') = (c == '_') := by
    intro c
    rw [Bool.eq_iff_iff]
    simp [Text.toLower_eq_iff (c := c) (d := '_') (by decide)]
  have shapeWord : Token.isShapeWord (Text.lower token) = Token.isShapeWord token := by
    simp only [Token.isShapeWord, Token.startsName, Text.lower, String.toList_ofList, List.head?_map, List.all_map,
      Function.comp_def, Char.isAlphanum, Text.isAlpha_toLower, Text.isDigit_toLower, underscore]
    cases token.toList.head? with
    | none => rfl
    | some c => simp only [Option.map_some, Option.any_some, Text.isAlpha_toLower, underscore]
  simp only [isItemKey, shapeWord, Token.isStringLiteral_lower, Token.isIntLiteral_lower]

/-- A right spelling may be a key where the token was none only for `static` and `never`. -/
theorem isItemKey_of_spelling {scope : Scope} {token right : String}
    (spelled : (Head.ofToken scope token).spelling = some right) (key : isItemKey right) :
    isItemKey token ∨ Head.ofToken scope token ∈ [Head.static, Head.never] := by
  rcases spelling_cases spelled with ⟨_, same | second⟩ | ⟨_, same⟩
  · rw [← same, isItemKey_lower] at key
    exact Or.inl key
  · have each : ∀ word ∈ aliases, ∀ closure named : Bool,
        isItemKey word ∨ Head.ofWord closure named word ∈ [Head.static, Head.never] := by decide +kernel
    rw [Head.ofToken_eq, ← isItemKey_lower]
    exact each _ second _ _
  · rw [same, isItemKey_lower] at key
    exact Or.inl key

end Grammar

end DocTypes
