import DocTypes.Proofs.Spelling

namespace DocTypes.Grammar

/-- The ways in which the tokens of a type may go on. -/
inductive Suffix where
  | arguments
  | shape
  | signature
  | constant
  | family
  | brackets
deriving DecidableEq, Repr

/-- The tokens that a suffix starts with. -/
def Suffix.opening : Suffix → List String
  | arguments => ["<"]
  | shape => ["\x7b"]
  | signature => ["("]
  | constant => ["::"]
  | family => ["*"]
  | brackets => ["[", "]"]

/-- None of the suffixes starts here. -/
def Ends (grip : List Suffix) (rest : List String) : Prop :=
  ∀ suffix ∈ grip, ¬ suffix.opening <+: rest

instance (grip : List Suffix) (rest : List String) : Decidable (Ends grip rest) :=
  inferInstanceAs (Decidable (∀ suffix ∈ grip, ¬ suffix.opening <+: rest))

/-- The separator stands here, and what follows it lets the series go on. -/
def GoesOn (mark : String) (joins : List String → Prop) (rest : List String) : Prop :=
  ∃ more, rest = mark :: more ∧ joins more

/-- Whether an `&` before these tokens goes on an intersection. -/
def Conjoins (more : List String) : Prop :=
  ¬ marksReference more.head?

def Anything (_ : List String) : Prop :=
  True

/-- How the tokens of a whole type may go on. -/
structure Grip where
  suffixes : List Suffix
  /-- Whether further members may follow behind `|` or `&`. -/
  joins : Bool
deriving DecidableEq, Repr

def Grip.Ends (grip : Grip) (rest : List String) : Prop :=
  Grammar.Ends grip.suffixes rest ∧
    (grip.joins → ¬ GoesOn "&" Conjoins rest ∧ ¬ GoesOn "|" Anything rest)

/-- Items with separators between them, and how the last one may go on. -/
inductive Series {α γ : Type} (mark : String) (joins : List String → Prop)
    (item : List String → α → γ → Prop) : List String → List α → γ → Prop
  | one {p : List String} {value : α} {grip : γ} (first : item p value grip) : Series mark joins item p [value] grip
  | more {p q : List String} {value : α} {values : List α} {gripFirst grip : γ} (first : item p value gripFirst)
      (joined : joins q) (others : Series mark joins item q values grip) :
      Series mark joins item (p ++ mark :: q) (value :: values) grip

theorem Series.imp {α γ δ : Type} {mark : String} {joins : List String → Prop} {item : List String → α → γ → Prop}
    {other : List String → α → δ → Prop} (related : γ → δ → Prop)
    (implies : ∀ p value grip, item p value grip → ∃ grip', related grip grip' ∧ other p value grip')
    {p : List String}
    {values : List α} {grip : γ} (series : Series mark joins item p values grip) :
    ∃ grip', related grip grip' ∧ Series mark joins other p values grip' := by
  induction series with
  | one first =>
    obtain ⟨grip', isRelated, first⟩ := implies _ _ _ first
    exact ⟨grip', isRelated, .one first⟩
  | more first joined _ ih =>
    obtain ⟨_, _, first⟩ := implies _ _ _ first
    obtain ⟨grip', isRelated, others⟩ := ih
    exact ⟨grip', isRelated, .more first joined others⟩

theorem Series.mono {α γ : Type} {mark : String} {joins : List String → Prop}
    {item other : List String → α → γ → Prop} (implies : ∀ p value grip, item p value grip → other p value grip)
    {p : List String} {values : List α} {grip : γ} (series : Series mark joins item p values grip) :
    Series mark joins other p values grip := by
  obtain ⟨_, rfl, series⟩ := series.imp (· = ·) fun p value grip holds => ⟨grip, rfl, implies p value grip holds⟩
  exact series

/-- At most one token, of which something holds. -/
inductive Optional (test : String → Prop) : List String → Prop
  | none : Optional test []
  | some {token : String} (holds : test token) : Optional test [token]

/-- The productions that nest, one level further in. -/
structure Nonterminals where
  /-- A type; the flag tells whether it stands directly inside brackets. -/
  anyType : Bool → List String → DocType → Grip → Prop
  basicType : List String → DocType → List Suffix → Prop

section

variable (ctx : Context) (settled : Bool) (inner : Nonterminals)

/-- Behind what may go on as `grip` says, other tokens follow. In a settled derivation it does not take
them itself. -/
def MayFollow (grip : List Suffix) (following : List String) : Prop :=
  settled → Ends grip following

/-- The first token is not this mark, at least in a settled derivation. -/
def NotFirst (mark : String) (p : List String) : Prop :=
  settled → p.head? ≠ some mark

inductive Base : List String → DocType → List Suffix → Prop
  | grouped {p : List String} {type : DocType} {grip : Grip} (inside : inner.anyType true p type grip) :
      Base ("(" :: (p ++ [")"])) type []
  | basic {p : List String} {type : DocType} {grip : List Suffix} (first : NotFirst settled "(" p)
      (basic : inner.basicType p type grip) : Base p type grip

/-- `[]`, so many times. -/
def bracketPairs : Nat → List String
  | 0 => []
  | n + 1 => "[" :: "]" :: bracketPairs n

inductive Single : List String → DocType → List Suffix → Prop
  | plain {p : List String} {type : DocType} {grip : List Suffix} (base : Base settled inner p type grip) :
      Single p type (.brackets :: grip)
  | array {p : List String} {type : DocType} {grip : List Suffix} (n : Nat) (base : Base settled inner p type grip)
      (mayFollow : MayFollow settled grip (bracketPairs (n + 1))) :
      Single (p ++ bracketPairs (n + 1)) ⟨["array"]⟩ [.brackets]

/-- What single types amount to as an intersection: a union stands alone, and else all are objects. -/
inductive Meets : List DocType → List String → Prop
  | union {type : DocType} (isUnion : type.isUnion) : Meets [type] type.members
  | atoms {singles : List DocType} {atoms : List String} (plain : ∀ single ∈ singles, ¬ single.isUnion)
      (meet : ctx.classes.normalIntersection (singles.flatMap fun single => DocType.atoms single.text) =
        .ok atoms) :
      Meets singles [Text.join '&' atoms]

inductive Intersection : List String → List String → List Suffix → Prop
  | mk {p members : List String} {singles : List DocType} {grip : List Suffix}
      (series : Series "&" Conjoins (Single settled inner) p singles grip) (meets : Meets ctx singles members) :
      Intersection p members grip

inductive AnyType : Bool → List String → DocType → Grip → Prop
  | conditional {name : String} {p q r : List String} {type yes no : DocType} {gripType gripYes grip : Grip}
      (named : Token.isVariable name) (asked : inner.anyType false p type gripType)
      (isYes : inner.anyType false q yes gripYes) (isNo : inner.anyType false r no grip) :
      AnyType true (name :: "is" :: (p ++ "?" :: (q ++ ":" :: r)))
        ⟨ctx.classes.normalUnion (yes.members ++ no.members)⟩ grip
  | nullable {bracketed : Bool} {p : List String} {type : DocType} {grip : List Suffix}
      (single : Single settled inner p type grip) :
      AnyType bracketed ("?" :: p) ⟨ctx.classes.normalUnion (type.members ++ ["null"])⟩ ⟨grip, false⟩
  | union {bracketed : Bool} {p : List String} {members : List (List String)} {grip : List Suffix}
      (first : NotFirst settled "?" p)
      (series : Series "|" Anything (Intersection ctx settled inner) p members grip) :
      AnyType bracketed p ⟨ctx.classes.normalUnion members.flatten⟩ ⟨grip, true⟩

/-- An end of an integer range. -/
def IsBound (bound token : String) : Prop :=
  Text.sameWord token bound ∨ Token.isIntLiteral token

inductive MaskMember : List String → Unit → List Suffix → Prop
  | mk {p : List String} {mask : DocType} {grip : List Suffix} (basic : inner.basicType p mask grip)
      (integer : ctx.classes.accepts ⟨["int"]⟩ mask) : MaskMember p () grip

/-- What follows a word for integers. -/
inductive IntArguments (word : String) : List String → List Suffix → Prop
  | none (other : word ∉ ["int", "int-mask", "int-mask-of"]) : IntArguments word [] []
  | bare (isWord : word = "int") : IntArguments word [] [.arguments]
  | range {low high : String} (isWord : word = "int") (isLow : IsBound "min" low) (isHigh : IsBound "max" high) :
      IntArguments word ["<", low, ",", high, ">"] []
  | mask {p : List String} {values : List Unit} {grip : List Suffix} (isWord : word = "int-mask")
      (members : Series "," Anything (MaskMember ctx inner) p values grip) :
      IntArguments word ("<" :: (p ++ [">"])) []
  | maskOf {p : List String} {grip : List Suffix} (isWord : word = "int-mask-of")
      (member : MaskMember ctx inner p () grip) : IntArguments word ("<" :: (p ++ [">"])) []

/-- What follows a word for strings. -/
inductive StringArguments (word : String) : List String → List Suffix → Prop
  | none (other : word ≠ "class-string") : StringArguments word [] []
  | bare (isWord : word = "class-string") : StringArguments word [] [.arguments]
  | classOf {p : List String} {type : DocType} {grip : List Suffix} (isWord : word = "class-string")
      (basic : inner.basicType p type grip) (object : ctx.classes.accepts ⟨["object"]⟩ type) :
      StringArguments word ("<" :: (p ++ [">"])) []

inductive ShapeItem : List String → Unit → Grip → Prop
  | plain {p : List String} {type : DocType} {grip : Grip} (value : inner.anyType false p type grip) :
      ShapeItem p () grip
  | keyed {key : String} {p option : List String} {type : DocType} {grip : Grip} (isKey : isItemKey key)
      (isOption : Optional (· = "?") option) (value : inner.anyType false p type grip) :
      ShapeItem (key :: (option ++ ":" :: p)) () grip

/-- What follows a word for arrays. -/
inductive ArrayArguments (word : String) : List String → List Suffix → Prop
  | bare : ArrayArguments word [] [.arguments, .shape]
  | values {p : List String} {type : DocType} {grip : Grip} (value : inner.anyType false p type grip) :
      ArrayArguments word ("<" :: (p ++ [">"])) []
  | entries {p q : List String} {key type : DocType} {gripKey grip : Grip}
      (keyed : word ∉ ["list", "non-empty-list"]) (isKey : inner.anyType false p key gripKey)
      (arrayKey : ctx.classes.accepts ⟨["array-key"]⟩ key) (value : inner.anyType false q type grip) :
      ArrayArguments word ("<" :: (p ++ "," :: (q ++ [">"]))) []
  | items {p : List String} {values : List Unit} {grip : Grip}
      (mayBeEmpty : word ∉ ["non-empty-array", "non-empty-list"])
      (items : Series "," Anything (ShapeItem inner) p values grip) :
      ArrayArguments word ("\x7b" :: (p ++ ["\x7d"])) []

inductive ObjectProperty : List String → Unit → Grip → Prop
  | mk {key : String} {p option : List String} {type : DocType} {grip : Grip}
      (isKey : Token.isShapeWord key ∨ Token.isStringLiteral key) (isOption : Optional (· = "?") option)
      (value : inner.anyType false p type grip) : ObjectProperty (key :: (option ++ ":" :: p)) () grip

/-- What follows `object`. -/
inductive ObjectArguments : List String → List Suffix → Prop
  | bare : ObjectArguments [] [.shape]
  | properties {p : List String} {values : List Unit} {grip : Grip}
      (properties : Series "," Anything (ObjectProperty inner) p values grip) :
      ObjectArguments ("\x7b" :: (p ++ ["\x7d"])) []

/-- A parameter of a callable: its type and the marks and name that may follow. -/
inductive Parameter : List String → Prop
  | mk {p reference splat default name : List String} {type : DocType} {grip : Grip}
    (first : NotFirst settled ")" p)
      (isType : inner.anyType false p type grip) (isReference : Optional (· = "&") reference)
      (isSplat : Optional (· = "...") splat) (isDefault : Optional (· = "=") default)
      (isName : Optional (Token.isVariable ·) name) : Parameter (p ++ (reference ++ (splat ++ (default ++ name))))

/-- The parameters of a callable. A comma may stand behind the last one. -/
inductive Parameters : List String → Prop
  | none : Parameters []
  | last {p : List String} (parameter : Parameter settled inner p) : Parameters p
  | more {p q : List String} (parameter : Parameter settled inner p) (others : Parameters q) :
      Parameters (p ++ "," :: q)

/-- What a callable returns: a single type, or one with `?` in front. -/
inductive Returned : List String → List Suffix → Prop
  | single {p : List String} {type : DocType} {grip : List Suffix} (first : NotFirst settled "?" p)
      (single : Single settled inner p type grip) : Returned p grip
  | nullable {p : List String} {type : DocType} {grip : List Suffix}
      (nullable : inner.anyType false ("?" :: p) type ⟨grip, false⟩) : Returned ("?" :: p) grip

/-- What follows a word for callables. A signature goes on as its return type does. -/
inductive CallableArguments : List String → List Suffix → Prop
  | bare : CallableArguments [] [.signature]
  | signature {p q : List String} {grip : List Suffix} (parameters : Parameters settled inner p)
      (returned : Returned settled inner q grip) : CallableArguments ("(" :: (p ++ ")" :: ":" :: q)) grip

/-- What follows `iterable`. -/
inductive IterableArguments : List String → List Suffix → Prop
  | bare : IterableArguments [] [.arguments]
  | values {p : List String} {type : DocType} {grip : Grip} (value : inner.anyType false p type grip) :
      IterableArguments ("<" :: (p ++ [">"])) []
  | entries {p q : List String} {key type : DocType} {gripKey grip : Grip}
    (isKey : inner.anyType false p key gripKey)
      (value : inner.anyType false q type grip) : IterableArguments ("<" :: (p ++ "," :: (q ++ [">"]))) []

/-- What follows `key-of` or `value-of`. -/
inductive KeyOrValueArguments : List String → List Suffix → Prop
  | mk {p : List String} {type : DocType} {grip : Grip} (value : inner.anyType false p type grip)
      (iterable : ctx.classes.accepts ⟨["iterable"]⟩ type ∨ ctx.classes.accepts ⟨["object"]⟩ type) :
      KeyOrValueArguments ("<" :: (p ++ [">"])) []

/-- What a basic type that starts with a token of some kind is: the tokens behind the first, the type, and
how it may go on. -/
def Form (token : String) (p : List String) (type : DocType) (grip : List Suffix) : Head → Prop
  | .bool _ => p = [] ∧ type = ⟨["bool"]⟩ ∧ grip = []
  | .int word => IntArguments ctx inner word p grip ∧ type = ⟨["int"]⟩
  | .float | .floatLiteral => p = [] ∧ type = ⟨["float"]⟩ ∧ grip = []
  | .string word => StringArguments ctx inner word p grip ∧ type = ⟨["string"]⟩
  | .stringLiteral => p = [] ∧ type = ⟨["string"]⟩ ∧ grip = []
  | .callableString => p = [] ∧ type = ⟨["callable-string"]⟩ ∧ grip = []
  | .array word => ArrayArguments ctx inner word p grip ∧ type = ⟨["array"]⟩
  | .object => ObjectArguments inner p grip ∧ type = ⟨["object"]⟩
  | .never => p = [] ∧ type = .never ∧ grip = []
  | .plain word => p = [] ∧ type = ⟨[word]⟩ ∧ grip = []
  | .self => p = [] ∧ type = .ofText ctx.scope.resolveSelf ∧ grip = []
  | .parent => p = [] ∧ type = .ofText ctx.scope.resolveParent ∧ grip = []
  | .static => p = [] ∧ type = .ofText ctx.scope.resolveStatic ∧ grip = []
  | .callable => CallableArguments settled inner p grip ∧ type = ⟨["callable"]⟩
  | .closure => CallableArguments settled inner p grip ∧ type = ⟨["\\Closure"]⟩
  | .iterable => IterableArguments inner p grip ∧ type = ⟨["iterable"]⟩
  | .keyOrValue _ => KeyOrValueArguments ctx inner p grip ∧ type = unresolved ctx
  | .className => token.toList.getLast? ≠ some '\\' ∧ p = [] ∧
      type = .ofText (ctx.scope.resolveDocName token) ∧ grip = []
  | .unknown => False

end

/-- The keywords that have no meaning where a class takes their name. -/
def lateWords : List String :=
  ["iterable", "key-of", "value-of"]

def isLiteral (word : String) : Bool :=
  Token.isIntLiteral word || Token.isFloatLiteral word || Token.isStringLiteral word

/-- Which words, in small letters, are of a kind, where `closure` tells whether the token resolves to `\Closure`
and `named` whether it may name a class. -/
def Head.Announced (closure named : Bool) (word : String) : Head → Prop
  | .bool right => word ∈ ["bool", "true", "false"] ∧ right = word ∨ word ∈ ["boolean"] ∧ right = "bool"
  | .int right => word ∈ ["int", "positive-int", "negative-int", "non-positive-int", "non-negative-int", "int-mask",
      "int-mask-of"] ∧ right = word ∨ word ∈ ["integer"] ∧ right = "int" ∨ Token.isIntLiteral word ∧ right = word
  | .float => word ∈ ["float", "double"]
  | .floatLiteral => Token.isFloatLiteral word
  | .string right => word ∈ ["string", "class-string", "numeric-string", "literal-string", "non-empty-string",
      "non-falsy-string", "truthy-string"] ∧ right = word
  | .stringLiteral => Token.isStringLiteral word
  | .callableString => word ∈ ["callable-string"]
  | .array right => word ∈ ["array", "non-empty-array", "list", "non-empty-list"] ∧ right = word
  | .object => word ∈ ["object"]
  | .never => word ∈ ["never", "never-return", "never-returns", "no-return"]
  | .plain right => word ∈ ["resource", "null", "void", "mixed", "array-key", "scalar"] ∧ right = word
  | .self => word ∈ ["self"]
  | .parent => word ∈ ["parent"]
  | .static => word ∈ ["static", "$this"]
  | .callable => word ∈ ["callable"]
  | .closure => closure ∧ (word ∈ keywords ++ aliases → word ∈ lateWords) ∧ ¬ isLiteral word
  | .iterable => word ∈ ["iterable"] ∧ ¬ closure
  | .keyOrValue right => word ∈ ["key-of", "value-of"] ∧ right = word ∧ ¬ closure
  | .className => word ∉ keywords ++ aliases ∧ ¬ isLiteral word ∧ ¬ closure ∧ named
  | .unknown => word ∉ keywords ++ aliases ∧ ¬ isLiteral word ∧ ¬ closure ∧ ¬ named

instance (closure named : Bool) (word : String) (head : Head) : Decidable (head.Announced closure named word) := by
  cases head <;> dsimp only [Head.Announced] <;> infer_instance

section Heads

variable {closure named : Bool} {word : String}

theorem announced_keyword : ∀ word ∈ keywords ++ aliases, ∀ closure named : Bool,
    (Head.ofWord closure named word).Announced closure named word := by
  decide +kernel

theorem announced_ofWord : (Head.ofWord closure named word).Announced closure named word := by
  by_cases known : word ∈ keywords ++ aliases
  · exact announced_keyword word known closure named
  · have both := known
    rw [List.mem_append, not_or] at both
    rw [Head.ofWord_of_not_keyword both.1 both.2]
    repeat' split
    all_goals simp_all [Head.Announced, isLiteral]

/-- The kinds that a word may be of. -/
def candidates (word : String) : List Head :=
  [.bool word, .bool "bool", .int word, .int "int", .float, .floatLiteral, .string word, .stringLiteral,
   .callableString, .array word, .object, .never, .plain word, .self, .parent, .static, .callable, .closure,
   .iterable, .keyOrValue word, .className, .unknown]

theorem candidates_of_announced {head : Head} (announced : head.Announced closure named word) :
    head ∈ candidates word := by
  cases head with
  | bool right => rcases announced with ⟨_, rfl⟩ | ⟨_, rfl⟩ <;> simp [candidates]
  | int right => rcases announced with ⟨_, rfl⟩ | ⟨_, rfl⟩ | ⟨_, rfl⟩ <;> simp [candidates]
  | string right | array right | plain right =>
    obtain rfl := announced.2
    simp [candidates]
  | keyOrValue right =>
    obtain rfl := announced.2.1
    simp [candidates]
  | _ => simp [candidates]

theorem keyword_unique : ∀ word ∈ keywords ++ aliases, ∀ closure named : Bool, ∀ head ∈ candidates word,
    head.Announced closure named word → Head.ofWord closure named word = head := by
  decide +kernel

theorem not_startsWithDigit_of_isStringLiteral (quoted : Token.isStringLiteral word) :
    ¬ Token.startsWithDigit word := by
  unfold Token.isStringLiteral at quoted
  unfold Token.startsWithDigit
  generalize word.toList = chars at quoted
  rcases chars with _ | ⟨c, rest⟩
  · simp
  · have isQuote : c = '"' ∨ c = '\'' := by simpa using quoted
    rcases isQuote with rfl | rfl <;> simp [Char.isDigit]

theorem ofWord_of_announced {head : Head} (announced : head.Announced closure named word) :
    Head.ofWord closure named word = head := by
  by_cases known : word ∈ keywords ++ aliases
  · exact keyword_unique word known closure named head (candidates_of_announced announced) announced
  · have listed : ∀ words : List String, (∀ word ∈ words, word ∈ keywords ++ aliases) → word ∉ words :=
      fun words all member => known (all word member)
    have pair := known
    rw [List.mem_append, not_or] at pair
    rw [Head.ofWord_of_not_keyword pair.1 pair.2]
    cases head with
    | bool right =>
      rcases announced with ⟨member, _⟩ | ⟨member, _⟩ <;> exact absurd member (listed _ (by decide))
    | int right =>
      rcases announced with ⟨member, _⟩ | ⟨member, _⟩ | ⟨integer, rfl⟩
      · exact absurd member (listed _ (by decide))
      · exact absurd member (listed _ (by decide))
      · rw [if_pos integer]
    | floatLiteral =>
      have float : Token.isFloatLiteral word := announced
      have notInteger : ¬ Token.isIntLiteral word := by
        rw [Token.isFloatLiteral, Bool.and_eq_true] at float
        simp [Token.isIntLiteral, -List.contains_eq_mem, float.2]
      rw [if_neg notInteger, if_pos float]
    | stringLiteral =>
      have quoted : Token.isStringLiteral word := announced
      have noDigit := not_startsWithDigit_of_isStringLiteral quoted
      simp [Token.isIntLiteral, Token.isFloatLiteral, noDigit, quoted]
    | closure =>
      obtain ⟨isClosure, _, notLiteral⟩ := announced
      simp only [isLiteral, Bool.or_eq_true, not_or] at notLiteral
      simp [notLiteral, isClosure]
    | className =>
      obtain ⟨_, notLiteral, notClosure, isNamed⟩ := announced
      simp only [isLiteral, Bool.or_eq_true, not_or] at notLiteral
      simp [notLiteral, notClosure, isNamed]
    | unknown =>
      obtain ⟨_, notLiteral, notClosure, unnamed⟩ := announced
      simp only [isLiteral, Bool.or_eq_true, not_or] at notLiteral
      simp [notLiteral, notClosure, unnamed]
    | string right | array right | plain right | keyOrValue right | iterable =>
      exact absurd announced.1 (listed _ (by decide))
    | float | callableString | object | never | self | parent | static | callable =>
      exact absurd announced (listed _ (by decide))

end Heads

section

variable (ctx : Context) (settled : Bool) (inner : Nonterminals)

/-- A basic type without what may follow an object type. -/
inductive HeadType : List String → DocType → List Suffix → Prop
  | mk {token : String} {head : Head} {p : List String} {type : DocType} {grip : List Suffix}
      (announced : head.Announced (ctx.scope.resolveDocName token = "\\Closure") (isClassName token)
        (Text.lower token))
      (form : Form ctx settled inner token p type grip head) :
      HeadType (token :: p) type grip

/-- How an object type may go on. -/
def objectGrip (type : DocType) : List Suffix :=
  if ctx.classes.isObject type.text then [.arguments, .constant] else []

/-- A constant of a class, or a family of them. -/
inductive Constants : List String → List Suffix → Prop
  | named {name : String} (named : Token.startsName name) : Constants ["::", name] [.family]
  | family {name : List String} (named : Optional (Token.startsName ·) name) :
    Constants ("::" :: (name ++ ["*"])) []

/-- What may follow an object type, and what type it then is. -/
inductive ObjectSuffix (type : DocType) : List String → DocType → List Suffix → Prop
  | arguments {p : List String} {types : List DocType} {grip : Grip}
      (types : Series "," Anything (inner.anyType false) p types grip) :
      ObjectSuffix type ("<" :: (p ++ [">"])) type []
  | constants {p : List String} {grip : List Suffix} (constants : Constants p grip) :
      ObjectSuffix type p (unresolved ctx) grip

inductive BasicType : List String → DocType → List Suffix → Prop
  | plain {p : List String} {type : DocType} {grip : List Suffix} (head : HeadType ctx settled inner p type grip) :
      BasicType p type (grip ++ objectGrip ctx type)
  | suffixed {p q : List String} {type found : DocType} {grip gripSuffix : List Suffix}
      (head : HeadType ctx settled inner p type grip) (object : ctx.classes.isObject type.text)
      (suffix : ObjectSuffix ctx inner type q found gripSuffix) (mayFollow : MayFollow settled grip q) :
      BasicType (p ++ q) found gripSuffix

end

/-- The derivations in which at most `n` types and basic types are open at once. -/
def derivations (ctx : Context) (settled : Bool) : Nat → Nonterminals
  | 0 => ⟨fun _ _ _ _ => False, fun _ _ _ => False⟩
  | n + 1 => ⟨AnyType ctx settled (derivations ctx settled n), BasicType ctx settled (derivations ctx settled n)⟩

/-- All derivations of the one are derivations of the other. -/
structure Nonterminals.Within (inner outer : Nonterminals) : Prop where
  anyType : ∀ bracketed p type grip, inner.anyType bracketed p type grip → outer.anyType bracketed p type grip
  basicType : ∀ p type grip, inner.basicType p type grip → outer.basicType p type grip

section Within

variable {ctx : Context} {inner outer : Nonterminals} (within : inner.Within outer)
include within

theorem Base.loosen {p : List String} {type : DocType} {grip : List Suffix} (base : Base true inner p type grip) :
    Base false outer p type grip := by
  cases base with
  | grouped inside => exact .grouped (within.anyType _ _ _ _ inside)
  | basic _ basic => exact .basic nofun (within.basicType _ _ _ basic)

theorem Single.loosen {p : List String} {type : DocType} {grip : List Suffix}
    (single : Single true inner p type grip) :
    Single false outer p type grip := by
  cases single with
  | plain base => exact .plain (base.loosen within)
  | array n base _ => exact .array n (base.loosen within) nofun

theorem AnyType.loosen {bracketed : Bool} {p : List String} {type : DocType} {grip : Grip}
    (derives : AnyType ctx true inner bracketed p type grip) : AnyType ctx false outer bracketed p type grip := by
  cases derives with
  | conditional named asked isYes isNo =>
    exact .conditional named (within.anyType _ _ _ _ asked) (within.anyType _ _ _ _ isYes)
      (within.anyType _ _ _ _ isNo)
  | nullable single => exact .nullable (single.loosen within)
  | union _ series =>
    refine .union nofun (series.mono fun p members grip intersection => ?_)
    obtain ⟨singles, meets⟩ := intersection
    exact .mk (singles.mono fun p type grip single => single.loosen within) meets

theorem MaskMember.mono {p : List String} {value : Unit} {grip : List Suffix}
    (member : MaskMember ctx inner p value grip) : MaskMember ctx outer p value grip := by
  obtain ⟨basic, integer⟩ := member
  exact .mk (within.basicType _ _ _ basic) integer

theorem IntArguments.mono {word : String} {p : List String} {grip : List Suffix}
    (arguments : IntArguments ctx inner word p grip) : IntArguments ctx outer word p grip := by
  cases arguments with
  | none other => exact .none other
  | bare isWord => exact .bare isWord
  | range isWord isLow isHigh => exact .range isWord isLow isHigh
  | mask isWord members => exact .mask isWord (members.mono fun p value grip member => member.mono within)
  | maskOf isWord member => exact .maskOf isWord (member.mono within)

theorem StringArguments.mono {word : String} {p : List String} {grip : List Suffix}
    (arguments : StringArguments ctx inner word p grip) : StringArguments ctx outer word p grip := by
  cases arguments with
  | none other => exact .none other
  | bare isWord => exact .bare isWord
  | classOf isWord basic object => exact .classOf isWord (within.basicType _ _ _ basic) object

theorem ArrayArguments.mono {word : String} {p : List String} {grip : List Suffix}
    (arguments : ArrayArguments ctx inner word p grip) : ArrayArguments ctx outer word p grip := by
  cases arguments with
  | bare => exact .bare
  | values value => exact .values (within.anyType _ _ _ _ value)
  | entries keyed isKey arrayKey value =>
    exact .entries keyed (within.anyType _ _ _ _ isKey) arrayKey (within.anyType _ _ _ _ value)
  | items mayBeEmpty items =>
    refine .items mayBeEmpty (items.mono fun p value grip item => ?_)
    cases item with
    | plain value => exact .plain (within.anyType _ _ _ _ value)
    | keyed isKey isOption value => exact .keyed isKey isOption (within.anyType _ _ _ _ value)

theorem ObjectArguments.mono {p : List String} {grip : List Suffix} (arguments : ObjectArguments inner p grip) :
    ObjectArguments outer p grip := by
  cases arguments with
  | bare => exact .bare
  | properties properties =>
    refine .properties (properties.mono fun p value grip property => ?_)
    obtain ⟨isKey, isOption, value⟩ := property
    exact .mk isKey isOption (within.anyType _ _ _ _ value)

theorem Parameter.loosen {p : List String} (parameter : Parameter true inner p) : Parameter false outer p := by
  obtain ⟨_, isType, isReference, isSplat, isDefault, isName⟩ := parameter
  exact .mk nofun (within.anyType _ _ _ _ isType) isReference isSplat isDefault isName

theorem Parameters.loosen {p : List String} (parameters : Parameters true inner p) : Parameters false outer p := by
  induction parameters with
  | none => exact .none
  | last parameter => exact .last (parameter.loosen within)
  | more parameter _ ih => exact .more (parameter.loosen within) ih

theorem CallableArguments.loosen {p : List String} {grip : List Suffix}
    (arguments : CallableArguments true inner p grip) : CallableArguments false outer p grip := by
  cases arguments with
  | bare => exact .bare
  | signature parameters returned =>
    refine .signature (parameters.loosen within) ?_
    cases returned with
    | single _ single => exact .single nofun (single.loosen within)
    | nullable nullable => exact .nullable (within.anyType _ _ _ _ nullable)

theorem IterableArguments.mono {p : List String} {grip : List Suffix} (arguments : IterableArguments inner p grip) :
    IterableArguments outer p grip := by
  cases arguments with
  | bare => exact .bare
  | values value => exact .values (within.anyType _ _ _ _ value)
  | entries isKey value => exact .entries (within.anyType _ _ _ _ isKey) (within.anyType _ _ _ _ value)

theorem HeadType.loosen {p : List String} {type : DocType} {grip : List Suffix}
    (head : HeadType ctx true inner p type grip) : HeadType ctx false outer p type grip := by
  obtain @⟨token, head, p, _, _, announced, form⟩ := head
  refine .mk announced ?_
  cases head with
  | int word => exact ⟨form.1.mono within, form.2⟩
  | string word => exact ⟨form.1.mono within, form.2⟩
  | array word => exact ⟨form.1.mono within, form.2⟩
  | object => exact ⟨form.1.mono within, form.2⟩
  | callable | closure => exact ⟨form.1.loosen within, form.2⟩
  | iterable => exact ⟨form.1.mono within, form.2⟩
  | keyOrValue word =>
    obtain ⟨⟨value, iterable⟩, isType⟩ := form
    exact ⟨.mk (within.anyType _ _ _ _ value) iterable, isType⟩
  | _ => exact form

theorem BasicType.loosen {p : List String} {type : DocType} {grip : List Suffix}
    (basic : BasicType ctx true inner p type grip) : BasicType ctx false outer p type grip := by
  cases basic with
  | plain head => exact .plain (head.loosen within)
  | suffixed head object suffix _ =>
    refine .suffixed (head.loosen within) object ?_ nofun
    cases suffix with
    | arguments types => exact .arguments (types.mono (within.anyType false))
    | constants constants => exact .constants constants

end Within

/-- Every settled derivation is a derivation. -/
theorem settled_within (ctx : Context) (n : Nat) : (derivations ctx true n).Within (derivations ctx false n) := by
  induction n with
  | zero => exact ⟨nofun, nofun⟩
  | succ n ih =>
    exact ⟨fun _ _ _ _ derives => derives.loosen ih, fun _ _ _ derives => derives.loosen ih⟩

end DocTypes.Grammar
