import DocTypes.Proofs.RereadTypes
import DocTypes.Proofs.TokenPhrases

namespace DocTypes.Grammar

/-- The marks that may stand second in a type. -/
def joints : List String :=
  ["<", "\x7b", "(", "::", "[", "|", "&"]

/-- There is a first token, and behind it a joint unless it is a bracket or `?`. -/
def Jointed (p : List String) : Prop :=
  ∃ first more, p = first :: more ∧ (first ∉ ["(", "?"] → ∀ second ∈ more.head?, second ∈ joints)

theorem Jointed.ne_nil {p : List String} (jointed : Jointed p) : p ≠ [] := by
  obtain ⟨first, more, rfl, _⟩ := jointed
  simp

theorem Jointed.append {p q : List String} (jointed : Jointed p) (joint : ∀ second ∈ q.head?, second ∈ joints) :
    Jointed (p ++ q) := by
  obtain ⟨first, more, rfl, behind⟩ := jointed
  refine ⟨first, more ++ q, rfl, fun other second isSecond => ?_⟩
  cases more with
  | nil => exact joint second isSecond
  | cons next more => exact behind other second isSecond

theorem Jointed.second {first second : String} {more : List String} (jointed : Jointed (first :: second :: more))
    (other : first ∉ ["(", "?"]) : second ∈ joints := by
  obtain ⟨_, _, same, behind⟩ := jointed
  obtain ⟨rfl, rfl⟩ := List.cons.inj same
  exact behind other second rfl

/-- What all settled derivations of nested types have in common. -/
structure Nonterminals.Formed (inner : Nonterminals) : Prop where
  anyType : ∀ p type grip, inner.anyType false p type grip → Jointed p
  basicType : ∀ p type grip, inner.basicType p type grip → Jointed p
  nullable : ∀ p type grip, inner.anyType false ("?" :: p) type grip → grip.joins = false

/-- The readings find just what is derived. -/
structure Exact (level : Level) (inner : Nonterminals) : Prop extends inner.Formed where
  readsType : Denotes (level.anyType false) (Phrase Grip.Ends (inner.anyType false))
  readsBracketed : Denotes (level.anyType true >>= fun type => expect ")" >>= fun _ => pure type)
    fun before type rest => ∃ p grip, before = p ++ ")" :: rest ∧ inner.anyType true p type grip
  readsBasic : Denotes level.basicType (Phrase Ends inner.basicType)

theorem denotes_intBound (bound : String) :
    Denotes (intBound bound) fun before _ rest => ∃ token, before = token :: rest ∧ IsBound bound token := by
  let meaning (seen : Option String) : Meaning Unit := fun before _ rest =>
    ∃ token, seen = some token ∧ IsBound bound token ∧ ∃ first, before = first :: rest
  refine DenotesOn.congr (@denotes_peek _ _ 0 _ meaning fun seen => ?_) fun before _ rest => ?_
  · cases seen with
    | none => exact (denotes_throw (.intRangeBound bound "")).congr (by simp [meaning])
    | some token =>
      exact (denotes_ite (fun _ => denotes_take.discard) fun _ => denotes_throw _).congr
        (by simp [meaning, IsBound])
  · cases before <;> simp [meaning, and_comm]

section Tokens

variable (ctx : Context) {level : Level} {inner : Nonterminals}

theorem MaskMember.ne_nil (formed : inner.Formed) (p : List String) (value : Unit) (grip : List Suffix)
    (member : MaskMember ctx inner p value grip) : p ≠ [] := by
  obtain ⟨basic, _⟩ := member
  exact (formed.basicType _ _ _ basic).ne_nil

/-- The tokens start with a key and a colon. -/
def Keyed (before : List String) : Prop :=
  startsKey before[0]? before[1]? before[2]?

theorem keyed_iff {before : List String} : Keyed before ↔
    ∃ key option more, before = key :: (option ++ ":" :: more) ∧ isItemKey key ∧ Optional (· = "?") option := by
  constructor
  · intro keyed
    rcases before with _ | ⟨key, _ | ⟨second, more⟩⟩
    · simp [Keyed, startsKey] at keyed
    · simp [Keyed, startsKey] at keyed
    · simp only [Keyed, startsKey, List.getElem?_cons_zero, List.getElem?_cons_succ, Option.any_some,
        Bool.and_eq_true, Bool.or_eq_true, decide_eq_true_eq, Option.some.injEq] at keyed
      obtain ⟨isKey, rfl | ⟨rfl, third⟩⟩ := keyed
      · exact ⟨key, [], more, rfl, isKey, .none⟩
      · refine ⟨key, ["?"], more.tail, ?_, isKey, .some rfl⟩
        rw [← List.head?_eq_getElem?] at third
        simp [List.cons_head?_tail third]
  · rintro ⟨key, option, more, rfl, isKey, _ | rfl⟩ <;> simp [Keyed, startsKey, isKey]

/-- Whether there is a key shows before the mark behind an item. -/
theorem keyed_append {p rest : List String} {mark : String} (other : mark ≠ ":" ∧ mark ≠ "?" ∧ ¬ isItemKey mark)
    (keyed : Keyed (p ++ mark :: rest)) : Keyed p := by
  rcases p with _ | ⟨first, _ | ⟨second, _ | ⟨third, more⟩⟩⟩
  all_goals simp_all [Keyed, startsKey]

/-- An item of a shape with its own tokens; no colon behind it makes it a key. -/
def ShapeItemAt (inner : Nonterminals) (p : List String) (value : Unit) (held : List String × Grip) : Prop :=
  held.1 = p ∧ ShapeItem inner p value held.2

def ShapeItemEnds (held : List String × Grip) (rest : List String) : Prop :=
  held.2.Ends rest ∧ (Keyed (held.1 ++ rest) → Keyed held.1)

theorem not_keyed (formed : inner.Formed) {p : List String} {type : DocType} {grip : Grip}
    (derives : inner.anyType false p type grip) : ¬ Keyed p := by
  intro keyed
  obtain ⟨key, option, more, rfl, isKey, isOption⟩ := keyed_iff.mp keyed
  have other : key ∉ ["(", "?"] := by
    intro member
    have no : ∀ mark ∈ ["(", "?"], ¬ isItemKey mark := by decide
    exact no key member isKey
  -- the colon or `?` behind the key would be a joint
  have second := formed.anyType _ _ _ derives
  rcases isOption with _ | rfl
  · exact absurd (second.second other) (by decide)
  · exact absurd (second.second other) (by decide)

theorem arrayArguments_eq (word : String) : arrayArguments ctx level word = peek 0 >>= fun first =>
    if first = some "<" then do
      expect "<"
      let first ← level.anyType false
      if (← peek 0) = some "," then
        if word = "list" || word = "non-empty-list" then throw .listWithKey
        unless ctx.classes.accepts ⟨["array-key"]⟩ first do throw (.invalidArrayKey first.text)
        expect ","
        discard (level.anyType false)
      expect ">"
    else if first = some "\x7b" then do
      if word = "non-empty-array" || word = "non-empty-list" then throw .nonEmptyShape
      expect "\x7b"
      discard (sepBy (shapeItem level) (eat ","))
      expect "\x7d"
    else pure () := by
  unfold arrayArguments
  congr 1
  funext first
  split <;> simp_all

theorem Base.jointed (formed : inner.Formed) {p : List String} {type : DocType} {grip : List Suffix}
    (base : Base true inner p type grip) : Jointed p := by
  cases base with
  | grouped inside => exact ⟨"(", _, rfl, fun other => absurd (by simp) other⟩
  | basic _ basic => exact formed.basicType _ _ _ basic

theorem Single.jointed (formed : inner.Formed) {p : List String} {type : DocType} {grip : List Suffix}
    (single : Single true inner p type grip) : Jointed p := by
  cases single with
  | plain base => exact base.jointed formed
  | array pairs base => exact (base.jointed formed).append (by simp [bracketPairs, joints])

theorem singleType_eq : singleType level = (peek 0 >>= fun first => if first = some "(" then
      expect "(" >>= fun _ => level.anyType true >>= fun type => expect ")" >>= fun _ => pure type
    else level.basicType) >>= fun base => get >>= fun c => arraySuffix c.ahead.length >>= fun found =>
      if found = true then pure ⟨["array"]⟩ else pure base := by
  unfold singleType
  rw [bind_assoc]
  congr 1
  funext first
  by_cases grouped : first = some "(" <;> simp [grouped]

theorem two_le_bracketPairs (pairs : Nat) : 2 ≤ (bracketPairs (pairs + 1)).length := by
  simp [bracketPairs]

/-- Behind the type of a parameter stands what may follow an `&` for a reference. -/
theorem marksReference_marks {splat default name more : List String} {close : String}
    (isSplat : Optional (· = "...") splat) (isDefault : Optional (· = "=") default)
    (isName : Optional (Token.isVariable ·) name) (isClose : close ∈ [",", ")"]) :
    marksReference (splat ++ (default ++ (name ++ close :: more))).head? := by
  rcases isSplat with _ | rfl
  · rcases isDefault with _ | rfl
    · rcases isName with _ | isVariable
      · have closes : ∀ close ∈ [",", ")"], marksReference (some close) := by decide
        exact closes close isClose
      · simp [marksReference, isVariable]
    · simp [marksReference]
  · simp [marksReference]

theorem head_name_ne {name : List String} {close : String} (isName : Optional (Token.isVariable ·) name)
    (isClose : close ∈ [",", ")"]) (more : List String) :
    (name ++ close :: more).head? ≠ some "..." ∧ (name ++ close :: more).head? ≠ some "=" := by
  rcases isName with _ | isVariable
  · have others : ∀ close ∈ [",", ")"], close ≠ "..." ∧ close ≠ "=" := by decide
    simpa using others close isClose
  · have others : ∀ mark ∈ ["...", "="], ¬ Token.isVariable mark := by decide
    grind

theorem Parameter.exists_cons (formed : inner.Formed) {p : List String} (parameter : Parameter true inner p) :
    ∃ first more, p = first :: more ∧ first ≠ ")" := by
  obtain ⟨first, isType, _, _, _, _⟩ := parameter
  obtain ⟨token, more, rfl, _⟩ := formed.anyType _ _ _ isType
  exact ⟨token, _, rfl, fun same => first rfl (by simp [same])⟩

theorem Parameters.eq_nil (formed : inner.Formed) {p rest : List String} (parameters : Parameters true inner p)
    (closed : (p ++ rest).head? = some ")") : p = [] := by
  cases parameters with
  | none => rfl
  | last parameter =>
    obtain ⟨first, more, rfl, other⟩ := parameter.exists_cons formed
    exact absurd (by simpa using closed) other
  | more parameter _ =>
    obtain ⟨first, more, rfl, other⟩ := parameter.exists_cons formed
    exact absurd (by simpa using closed) other

end Tokens

section Arguments

variable (ctx : Context) {level : Level} {inner : Nonterminals} (isExact : Exact level inner)
include isExact

theorem denotes_intMaskMember : Denotes (intMaskMember ctx level) (Phrase Ends (MaskMember ctx inner)) := by
  refine (isExact.readsBasic.bind fun mask => denotes_check (denotes_pure ())).congr fun before _ rest => ⟨?_, ?_⟩
  · rintro ⟨mask, _, ⟨p, grip, rfl, basic, ends⟩, integer, _, rfl⟩
    exact ⟨p, grip, rfl, .mk basic integer, ends⟩
  · rintro ⟨p, grip, rfl, ⟨basic, integer⟩, ends⟩
    exact ⟨_, rest, ⟨p, grip, rfl, basic, ends⟩, integer, rfl, rfl⟩

theorem denotes_intArguments (word : String) :
    Denotes (intArguments ctx level word) (Phrase Ends fun p (_ : Unit) => IntArguments ctx inner word p) := by
  have opening := denotes_mark "<" (by simp)
  have comma := denotes_mark "," (by simp)
  have closing := denotes_mark ">" (by simp)
  have member := denotes_intMaskMember ctx isExact
  have members := denotes_list ">" member (MaskMember.ne_nil ctx isExact.toFormed) (by simp) (by decide)
    (ends_mark (by decide)) (ends_mark (by decide))
  refine (denotes_peek 0 fun first => denotes_ite (fun _ => opening.bind fun _ => (denotes_intBound "min").bind
    fun _ => comma.bind fun _ => (denotes_intBound "max").bind fun _ => closing) fun _ =>
    denotes_ite (fun _ => opening.bind fun _ => members) fun _ =>
    denotes_ite (fun _ => opening.bind fun _ => member.bind fun _ => closing) fun _ =>
    denotes_pure ()).congr fun before _ rest => ⟨?_, ?_⟩
  · rintro (⟨isRange, _, _, rfl, _, _, ⟨low, rfl, isLow⟩, _, _, rfl, _, _, ⟨high, rfl, isHigh⟩, rfl⟩ | ⟨noRange,
      ⟨isMask, _, _, rfl, p, values, grip, rfl, series⟩ | ⟨noMask,
        ⟨isMaskOf, _, _, rfl, _, _, ⟨p, grip, rfl, member, _⟩, rfl⟩ | ⟨noMaskOf, _, rfl⟩⟩⟩)
    · have isInt : word = "int" := by simpa using isRange
      exact ⟨["<", low, ",", high, ">"], [], rfl, .range isInt isLow isHigh, ends_nil⟩
    · exact ⟨"<" :: (p ++ [">"]), [], by simp, .mask isMask series, ends_nil⟩
    · exact ⟨"<" :: (p ++ [">"]), [], by simp, .maskOf isMaskOf member, ends_nil⟩
    · by_cases isInt : word = "int"
      · have other : rest[0]? ≠ some "<" := by simpa [isInt] using noRange
        exact ⟨[], [.arguments], rfl, .bare isInt, (ends_singleton rfl).mpr other⟩
      · exact ⟨[], [], rfl, .none (by simp [isInt, noMask, noMaskOf]), ends_nil⟩
  · rintro ⟨p, grip, rfl, derives, ends⟩
    cases derives with
    | none other =>
      simp only [List.mem_cons, List.not_mem_nil, or_false, not_or] at other
      exact .inr ⟨by simp [other], .inr ⟨other.2.1, .inr ⟨other.2.2, rfl, rfl⟩⟩⟩
    | bare isInt =>
      have other : rest[0]? ≠ some "<" := (ends_singleton rfl).mp ends
      exact .inr ⟨by simp [other], .inr ⟨by simp [isInt], .inr ⟨by simp [isInt], rfl, rfl⟩⟩⟩
    | range isInt isLow isHigh =>
      exact .inl ⟨by simp [isInt], (), _, rfl, (), _, ⟨_, rfl, isLow⟩, (), _, rfl, (), _, ⟨_, rfl, isHigh⟩, rfl⟩
    | @mask p values gripLast isMask members =>
      exact .inr ⟨by simp [isMask], .inl ⟨isMask, (), _, rfl, p, values, gripLast, by simp, members⟩⟩
    | @maskOf p gripMember isMaskOf member =>
      exact .inr ⟨by simp [isMaskOf], .inr ⟨by simp [isMaskOf],
        .inl ⟨isMaskOf, (), _, rfl, (), _, ⟨p, gripMember, by simp, member, ends_mark (by decide) _ _⟩, rfl⟩⟩⟩

theorem denotes_stringArguments (word : String) :
    Denotes (stringArguments ctx level word)
      (Phrase Ends fun p (_ : Unit) => StringArguments ctx inner word p) := by
  have opening := denotes_mark "<" (by simp)
  have closing := denotes_mark ">" (by simp)
  refine (denotes_peek 0 fun first => denotes_ite (fun _ => opening.bind fun _ => isExact.readsBasic.bind
    fun type => denotes_check closing) fun _ => denotes_pure ()).congr fun before _ rest => ⟨?_, ?_⟩
  · rintro (⟨isNamed, _, _, rfl, type, _, ⟨p, grip, rfl, basic, _⟩, object, rfl⟩ | ⟨unnamed, _, rfl⟩)
    · have isWord : word = "class-string" := by simpa using isNamed
      exact ⟨"<" :: (p ++ [">"]), [], by simp, .classOf isWord basic object, ends_nil⟩
    · by_cases isWord : word = "class-string"
      · have other : rest[0]? ≠ some "<" := by simpa [isWord] using unnamed
        exact ⟨[], [.arguments], rfl, .bare isWord, (ends_singleton rfl).mpr other⟩
      · exact ⟨[], [], rfl, .none isWord, ends_nil⟩
  · rintro ⟨p, grip, rfl, derives, ends⟩
    cases derives with
    | none other => exact .inr ⟨by simp [other], rfl, rfl⟩
    | bare isWord =>
      have other : rest[0]? ≠ some "<" := (ends_singleton rfl).mp ends
      exact .inr ⟨by simp [other], rfl, rfl⟩
    | @classOf p type gripClass isWord basic object =>
      have ends : Ends gripClass (">" :: rest) := ends_mark (by decide) _ _
      exact .inl ⟨by simp [isWord], (), _, rfl, type, _, ⟨p, gripClass, by simp, basic, ends⟩, object, rfl⟩

theorem denotes_iterableArguments :
    Denotes (iterableArguments level) (Phrase Ends fun p (_ : Unit) => IterableArguments inner p) := by
  have opening := denotes_mark "<" (by simp)
  have closing := denotes_mark ">" (by simp)
  refine (denotes_peek 0 fun first => denotes_ite (fun _ => opening.bind fun _ => isExact.readsType.discard.bind
    fun _ => (denotes_separator ",").bind fun keyed => denotes_ite (fun _ => isExact.readsType.discard.bind
    fun _ => closing) fun _ => closing) fun _ => denotes_pure ()).congr fun before _ rest => ⟨?_, ?_⟩
  · rintro (⟨_, _, _, rfl, _, _, ⟨first, p, grip, rfl, isFirst, _⟩, keyed, _, separates, values⟩ | ⟨other, _, rfl⟩)
    · rcases separates with ⟨rfl, rfl, _⟩ | ⟨rfl, rfl, _⟩
      · obtain ⟨_, _, _, ⟨type, q, gripValue, rfl, value, _⟩, rfl⟩ | ⟨no, _⟩ := values
        · exact ⟨"<" :: (p ++ "," :: (q ++ [">"])), [], by simp, .entries isFirst value, ends_nil⟩
        · exact absurd rfl no
      · obtain ⟨yes, _⟩ | ⟨_, rfl⟩ := values
        · exact absurd yes Bool.false_ne_true
        · exact ⟨"<" :: (p ++ [">"]), [], by simp, .values isFirst, ends_nil⟩
    · exact ⟨[], [.arguments], rfl, .bare, (ends_singleton rfl).mpr other⟩
  · rintro ⟨p, grip, rfl, derives, ends⟩
    cases derives with
    | bare => exact .inr ⟨(ends_singleton rfl).mp ends, rfl, rfl⟩
    | @values p type gripValue value =>
      have ends : gripValue.Ends (">" :: rest) := Grip.ends_mark (by decide) _ _
      exact .inl ⟨rfl, (), _, rfl, (), _, ⟨type, p, gripValue, by simp, value, ends⟩, false, _,
        .inr ⟨rfl, rfl, not_goesOn (by decide)⟩, .inr ⟨Bool.false_ne_true, rfl⟩⟩
    | @entries p q key type gripKey gripValue isKey value =>
      exact .inl ⟨rfl, (), _, rfl, (), "," :: (q ++ ">" :: rest),
        ⟨key, p, gripKey, by simp, isKey, Grip.ends_mark (by decide) _ _⟩, true, _, .inl ⟨rfl, rfl, trivial⟩,
        .inl ⟨rfl, (), _, ⟨type, q, gripValue, rfl, value, Grip.ends_mark (by decide) _ _⟩, rfl⟩⟩

theorem denotes_keyOrValueArguments :
    Denotes (keyOrValueArguments ctx level) (Phrase Ends fun p (_ : Unit) => KeyOrValueArguments ctx inner p) := by
  have opening := denotes_mark "<" (by simp)
  have closing := denotes_mark ">" (by simp)
  refine (opening.bind fun _ => isExact.readsType.bind fun type => denotes_check closing).congr
    fun before _ rest => ⟨?_, ?_⟩
  · rintro ⟨_, _, rfl, type, _, ⟨p, grip, rfl, value, _⟩, iterable, rfl⟩
    exact ⟨"<" :: (p ++ [">"]), [], by simp, .mk value (by simpa using iterable), ends_nil⟩
  · rintro ⟨_, _, rfl, @⟨p, type, grip, value, iterable⟩, _⟩
    exact ⟨(), _, rfl, type, _, ⟨p, grip, by simp, value, Grip.ends_mark (by decide) _ _⟩, by simpa using iterable,
      rfl⟩

theorem denotes_shapeItem : Denotes (shapeItem level) (Phrase ShapeItemEnds (ShapeItemAt inner)) := by
  have colon := denotes_mark ":" (by simp)
  refine DenotesOn.congr (denotes_peek 0 fun first => denotes_peek 1 fun second => denotes_peek 2 fun third =>
    denotes_ite (fun _ : startsKey first second third => denotes_take.discard.bind fun _ =>
      (denotes_option "?").bind fun _ => colon.bind fun _ => isExact.readsType.discard)
      fun _ => isExact.readsType.discard)
    fun before _ rest => ⟨?_, ?_⟩
  · rintro (⟨keyed, _, _, ⟨key, rfl⟩, _, _, ⟨option, rfl, isOption, _⟩, _, _, rfl, type, p, grip, rfl, value,
      ends⟩ |
      ⟨unkeyed, type, p, grip, rfl, value, ends⟩)
    · have isKey : isItemKey key := by
        obtain ⟨_, _, _, same, isKey, _⟩ := keyed_iff.mp keyed
        exact (List.cons.inj same).1 ▸ isKey
      have again : Keyed (key :: (option ++ ":" :: p)) := keyed_iff.mpr ⟨key, option, p, rfl, isKey, isOption⟩
      exact ⟨_, (_, grip), by simp, ⟨rfl, .keyed isKey isOption value⟩, ends, fun _ => again⟩
    · exact ⟨p, (p, grip), rfl, ⟨rfl, .plain value⟩, ends, fun keyed => absurd keyed unkeyed⟩
  · rintro ⟨p, ⟨_, grip⟩, rfl, ⟨rfl, item⟩, ends, keys⟩
    cases item with
    | plain value =>
      exact .inr ⟨fun keyed => not_keyed isExact.toFormed value (keys keyed), _, _, grip, rfl, value, ends⟩
    | @keyed key p option type _ isKey isOption value =>
      have keyed : Keyed (key :: (option ++ ":" :: p) ++ rest) :=
        keyed_iff.mpr ⟨key, option, p ++ rest, by simp, isKey, isOption⟩
      exact .inl ⟨keyed, (), _, ⟨key, rfl⟩, (), ":" :: (p ++ rest),
        ⟨option, by simp, isOption, fun _ => by simp⟩, (), _, rfl, type, p, grip, rfl, value, ends⟩

/-- The items of an array shape. -/
theorem denotes_shapeItems :
    Denotes (discard (sepBy (shapeItem level) (eat ",")) >>= fun _ => expect "\x7d") fun before _ rest =>
      ∃ p values grip, before = p ++ "\x7d" :: rest ∧ Series "," Anything (ShapeItem inner) p values grip := by
  have nonempty : ∀ p value held, ShapeItemAt inner p value held → p ≠ [] := by
    rintro p value held ⟨_, item⟩
    cases item with
    | plain value => exact (isExact.anyType _ _ _ value).ne_nil
    | keyed => simp
  refine (denotes_list "\x7d" (denotes_shapeItem isExact) nonempty (by simp) (by decide)
    (fun _ _ => ⟨Grip.ends_mark (by decide) _ _, keyed_append (by decide)⟩)
    fun _ _ => ⟨Grip.ends_mark (by decide) _ _, keyed_append (by decide)⟩).congr fun before _ rest => ⟨?_, ?_⟩
  · rintro ⟨p, values, held, rfl, series⟩
    obtain ⟨grip, _, series⟩ := series.imp (fun _ _ => True) fun p value held item => ⟨held.2, trivial, item.2⟩
    exact ⟨p, values, grip, rfl, series⟩
  · rintro ⟨p, values, grip, rfl, series⟩
    have item : ∀ p value grip, ShapeItem inner p value grip → ∃ held, True ∧ ShapeItemAt inner p value held :=
      fun p value grip item => ⟨(p, grip), trivial, rfl, item⟩
    obtain ⟨held, _, series⟩ := series.imp (fun _ _ => True) item
    exact ⟨p, values, held, rfl, series⟩

theorem denotes_arrayArguments (word : String) :
    Denotes (arrayArguments ctx level word) (Phrase Ends fun p (_ : Unit) => ArrayArguments ctx inner word p) := by
  have opening := denotes_mark "<" (by simp)
  have brace := denotes_mark "\x7b" (by simp)
  have comma := denotes_mark "," (by simp)
  have closing := denotes_mark ">" (by simp)
  rw [arrayArguments_eq]
  refine (denotes_peek 0 fun first => denotes_ite (fun _ => opening.bind fun _ =>
    isExact.readsType.bind fun first =>
    denotes_peek 0 fun second => denotes_ite (fun _ => denotes_refuse (denotes_check (comma.bind fun _ =>
    isExact.readsType.discard.bind fun _ => closing))) fun _ => closing) fun _ => denotes_ite (fun _ =>
    denotes_refuse (brace.bind fun _ => denotes_shapeItems isExact)) fun _ => denotes_pure ()).congr
    fun before _ rest => ⟨?_, ?_⟩
  · rintro (⟨_, _, _, rfl, first, _, ⟨p, grip, rfl, isFirst, _⟩,
      ⟨_, keyed, arrayKey, _, _, rfl, _, _, ⟨type, q, gripValue, rfl, value, _⟩, rfl⟩ | ⟨_, rfl⟩⟩ |
      ⟨noAngle, ⟨_, mayBeEmpty, _, _, rfl, p, values, grip, rfl, items⟩ | ⟨noBrace, _, rfl⟩⟩)
    · have isKeyed : word ∉ ["list", "non-empty-list"] := by simpa using keyed
      exact ⟨"<" :: (p ++ "," :: (q ++ [">"])), [], by simp, .entries isKeyed isFirst arrayKey value, ends_nil⟩
    · exact ⟨"<" :: (p ++ [">"]), [], by simp, .values isFirst, ends_nil⟩
    · exact ⟨"\x7b" :: (p ++ ["\x7d"]), [], by simp, .items (by simpa using mayBeEmpty) items, ends_nil⟩
    · refine ⟨[], [.arguments, .shape], rfl, .bare, ?_⟩
      exact ends_cons.mpr ⟨opens_iff.not.mpr noAngle, (ends_singleton rfl).mpr noBrace⟩
  · rintro ⟨p, grip, rfl, derives, ends⟩
    cases derives with
    | bare =>
      obtain ⟨noAngle, noBrace⟩ := ends_cons.mp ends
      exact .inr ⟨opens_iff.not.mp noAngle, .inr ⟨(ends_singleton rfl).mp noBrace, rfl, rfl⟩⟩
    | @values p type gripValue value =>
      have ends : gripValue.Ends (">" :: rest) := Grip.ends_mark (by decide) _ _
      exact .inl ⟨rfl, (), _, rfl, type, _, ⟨p, gripValue, by simp, value, ends⟩, .inr ⟨by simp, rfl⟩⟩
    | @entries p q key type gripKey gripValue keyed isKey arrayKey value =>
      exact .inl ⟨rfl, (), _, rfl, key, "," :: (q ++ ">" :: rest),
        ⟨p, gripKey, by simp, isKey, Grip.ends_mark (by decide) _ _⟩,
        .inl ⟨rfl, by simpa using keyed, arrayKey, (), _, rfl, (), _,
          ⟨type, q, gripValue, rfl, value, Grip.ends_mark (by decide) _ _⟩, rfl⟩⟩
    | @items p values gripLast mayBeEmpty items =>
      exact .inr ⟨by simp, .inl ⟨rfl, by simpa using mayBeEmpty, (), _, rfl, p, values, gripLast, by simp, items⟩⟩

theorem denotes_objectProperty : Denotes (objectProperty level) (Phrase Grip.Ends (ObjectProperty inner)) := by
  have colon := denotes_mark ":" (by simp)
  refine (denotes_peek 0 fun first => denotes_ite (fun _ => denotes_take.discard.bind fun _ =>
    (denotes_option "?").bind fun _ => colon.bind fun _ => isExact.readsType.discard) fun _ =>
    denotes_throw_bind .invalidObjectKey _).congr fun before _ rest => ⟨?_, ?_⟩
  · rintro (⟨isKey, _, _, ⟨key, rfl⟩, _, _, ⟨option, rfl, isOption, _⟩, _, _, rfl, type, p, grip, rfl, value,
      ends⟩ |
      ⟨_, no⟩)
    · exact ⟨key :: (option ++ ":" :: p), grip, by simp, .mk (by simpa using isKey) isOption value, ends⟩
    · exact no.elim
  · rintro ⟨_, grip, rfl, @⟨key, p, option, type, _, isKey, isOption, value⟩, ends⟩
    exact .inl ⟨by simpa using isKey, (), _, ⟨key, rfl⟩, (), ":" :: (p ++ rest),
      ⟨option, by simp, isOption, fun _ => by simp⟩, (), _, rfl, type, p, grip, rfl, value, ends⟩

theorem denotes_objectArguments :
    Denotes (objectArguments level) (Phrase Ends fun p (_ : Unit) => ObjectArguments inner p) := by
  have brace := denotes_mark "\x7b" (by simp)
  have nonempty : ∀ p value grip, ObjectProperty inner p value grip → p ≠ [] := by
    rintro _ _ _ ⟨_, _, _⟩
    simp
  have properties := denotes_list "\x7d" (denotes_objectProperty isExact) nonempty (by simp) (by decide)
    (Grip.ends_mark (by decide)) (Grip.ends_mark (by decide))
  refine (denotes_peek 0 fun first => denotes_ite (fun _ => brace.bind fun _ => properties) fun _ =>
    denotes_pure ()).congr fun before _ rest => ⟨?_, ?_⟩
  · rintro (⟨_, _, _, rfl, p, values, grip, rfl, series⟩ | ⟨other, _, rfl⟩)
    · exact ⟨"\x7b" :: (p ++ ["\x7d"]), [], by simp, .properties series, ends_nil⟩
    · exact ⟨[], [.shape], rfl, .bare, (ends_singleton rfl).mpr other⟩
  · rintro ⟨p, grip, rfl, derives, ends⟩
    cases derives with
    | bare => exact .inr ⟨(ends_singleton rfl).mp ends, rfl, rfl⟩
    | @properties p values gripLast series => exact .inl ⟨rfl, (), _, rfl, p, values, gripLast, by simp, series⟩

theorem denotes_base : Denotes (peek 0 >>= fun first => if first = some "(" then
      expect "(" >>= fun _ => level.anyType true >>= fun type => expect ")" >>= fun _ => pure type
    else level.basicType) (Phrase Ends (Base true inner)) := by
  have opening := denotes_mark "(" (by simp)
  refine (denotes_peek 0 fun first => denotes_ite (fun _ => opening.bind fun _ => isExact.readsBracketed) fun _ =>
    isExact.readsBasic).congr fun before type rest => ⟨?_, ?_⟩
  · rintro (⟨_, _, _, rfl, p, grip, rfl, inside⟩ | ⟨other, p, grip, rfl, basic, ends⟩)
    · exact ⟨"(" :: (p ++ [")"]), [], by simp, .grouped inside, ends_nil⟩
    · refine ⟨p, grip, rfl, .basic (fun _ => ?_) basic, ends⟩
      rw [← List.head?_eq_getElem?, List.head?_append_of_ne_nil _ (isExact.basicType _ _ _ basic).ne_nil] at other
      exact other
  · rintro ⟨p, grip, rfl, base, ends⟩
    cases base with
    | @grouped p _ gripInside inside => exact .inl ⟨rfl, (), _, rfl, p, gripInside, by simp, inside⟩
    | basic first basic =>
      refine .inr ⟨?_, p, grip, rfl, basic, ends⟩
      rw [← List.head?_eq_getElem?, List.head?_append_of_ne_nil _ (isExact.basicType _ _ _ basic).ne_nil]
      exact first rfl

theorem denotes_singleType : Denotes (singleType level) (Phrase Ends (Single true inner)) := by
  have suffixed : ∀ (base : DocType) n, DenotesOn (·.length ≤ n)
      (arraySuffix n >>= fun found => if found = true then pure ⟨["array"]⟩ else pure base) _ := fun base n =>
    (denotes_arraySuffix n).bind fun _ => denotes_ite (fun _ => denotes_pure _) fun _ => denotes_pure base
  rw [singleType_eq]
  refine ((denotes_base isExact).bind fun base => denotes_ahead (suffixed base)).congr fun before type rest =>
    ⟨?_, ?_⟩
  · rintro ⟨base, _, ⟨p, grip, rfl, isBase, ends⟩, _, _, ⟨pairs, rfl, rfl, closed⟩, result⟩
    cases pairs with
    | zero =>
      obtain ⟨yes, _⟩ | ⟨_, rfl, rfl⟩ := result
      · exact absurd yes (by decide)
      · exact ⟨p, .brackets :: grip, rfl, .plain isBase, ends_cons.mpr ⟨(ends_cons.mp closed).1, ends⟩⟩
    | succ pairs =>
      obtain ⟨_, rfl, rfl⟩ | ⟨no, _⟩ := result
      · have mayFollow := (ends_append_right (two_le_bracketPairs pairs)).mp ends
        exact ⟨p ++ bracketPairs (pairs + 1), [.brackets], by simp, .array pairs isBase fun _ => mayFollow, closed⟩
      · exact absurd (by simp) no
  · rintro ⟨p, grip, rfl, single, ends⟩
    cases single with
    | @plain _ _ gripBase isBase =>
      obtain ⟨closed, ends⟩ := ends_cons.mp ends
      exact ⟨type, rest, ⟨p, gripBase, rfl, isBase, ends⟩, false, rest,
        ⟨0, rfl, rfl, ends_cons.mpr ⟨closed, ends_nil⟩⟩, .inr ⟨Bool.false_ne_true, rfl, rfl⟩⟩
    | @array p base gripBase pairs isBase mayFollow =>
      have stops : Ends gripBase (bracketPairs (pairs + 1) ++ rest) :=
        (ends_append_right (two_le_bracketPairs pairs)).mpr (mayFollow rfl)
      exact ⟨base, bracketPairs (pairs + 1) ++ rest, ⟨p, gripBase, by simp, isBase, stops⟩, true, rest,
        ⟨pairs + 1, rfl, by simp, ends⟩, .inl ⟨rfl, rfl, rfl⟩⟩

theorem denotes_callableParameter :
    DenotesOn (·.head? ≠ some ")") (callableParameter level) fun before _ rest =>
      ∃ p, Parameter true inner p ∧ (before = p ++ rest ∧ rest.head? = some ")" ∨ before = p ++ "," :: rest) := by
  have comma := denotes_mark "," (by simp)
  refine (isExact.readsType.discard.on.bind fun _ => (denotes_option "&").bind fun _ =>
    (denotes_option "...").bind fun _ => (denotes_option "=").bind fun _ => denotes_optionalName (denotes_peek 0
    fun first => denotes_ite (fun _ => denotes_pure ()) fun _ => comma)).congrOn ?_
  intro before notClosed _ rest
  constructor
  · rintro ⟨_, _, ⟨type, p, grip, rfl, isType, _⟩, _, _, ⟨reference, rfl, isReference, _⟩, _, _,
      ⟨splat, rfl, isSplat, _⟩, _, _, ⟨default, rfl, isDefault, _⟩, name, middle, rfl, isName, _, closes⟩
    have first : p.head? ≠ some ")" := by
      rwa [List.head?_append_of_ne_nil _ (isExact.anyType _ _ _ isType).ne_nil] at notClosed
    refine ⟨_, .mk (fun _ => first) isType isReference isSplat isDefault isName, ?_⟩
    rcases closes with ⟨isClosed, _, rfl⟩ | ⟨_, rfl⟩
    · exact .inl ⟨by simp, by rw [List.head?_eq_getElem?, isClosed]⟩
    · exact .inr (by simp)
  · rintro ⟨_, @⟨p, reference, splat, default, name, type, grip, _, isType, isReference, isSplat, isDefault,
      isName⟩, closes⟩
    obtain ⟨close, more, isClose, rfl, closed⟩ : ∃ close more, close ∈ [",", ")"] ∧
        before = p ++ (reference ++ (splat ++ (default ++ name))) ++ close :: more ∧
        (close = ")" ∧ rest = close :: more ∨ close = "," ∧ close :: more = "," :: rest) := by
      rcases closes with ⟨rfl, isClosed⟩ | rfl
      · have isRest := List.cons_head?_tail isClosed
        exact ⟨")", rest.tail, by simp, by rw [isRest], .inl ⟨rfl, isRest.symm⟩⟩
      · exact ⟨",", rest, by simp, rfl, .inr ⟨rfl, rfl⟩⟩
    have marks : marksReference (splat ++ (default ++ (name ++ close :: more))).head? :=
      marksReference_marks isSplat isDefault isName isClose
    have ends : grip.Ends (reference ++ (splat ++ (default ++ (name ++ close :: more)))) := by
      rcases isReference with _ | rfl
      · exact grip.ends_of_marksReference marks
      · exact grip.ends_reference marks
    obtain ⟨noSplat, noDefault⟩ := head_name_ne isName isClose more
    refine ⟨(), _, ⟨type, p, grip, by simp, isType, ends⟩, (), _, ⟨reference, rfl, isReference, fun _ same => ?_⟩,
      (), _, ⟨splat, rfl, isSplat, fun _ => ?_⟩, (), _, ⟨default, rfl, isDefault, fun _ => ?_⟩, name, close :: more,
      rfl, isName, fun _ => ?_, ?_⟩
    · rw [same] at marks
      exact absurd marks (by decide)
    · rcases isDefault with _ | rfl
      · exact noSplat
      · simp
    · exact noDefault
    · have others : ∀ close ∈ [",", ")"], ¬ Token.isVariable close := by decide
      simpa using others close isClose
    · rcases closed with ⟨rfl, rfl⟩ | ⟨rfl, isRest⟩
      · exact .inl ⟨rfl, rfl, rfl⟩
      · exact .inr ⟨by simp, isRest⟩

/-- The parameters up to the bracket behind them. Each takes a token, so the loop goes round often enough. -/
theorem denotes_parameters (n : Nat) :
    DenotesOn (·.length < n) (untilToken ")" (callableParameter level) n) fun before _ rest =>
      ∃ p, before = p ++ rest ∧ Parameters true inner p ∧ rest.head? = some ")" := by
  induction n with
  | zero =>
    intro c short
    exact absurd short (Nat.not_lt_zero _)
  | succ n ih =>
    have fits : ∀ before (_ : Unit) rest, before.length < n + 1 →
        (∃ p, Parameter true inner p ∧ (before = p ++ rest ∧ rest.head? = some ")" ∨ before = p ++ "," :: rest)) →
        rest.length < n := by
      rintro before _ rest short ⟨p, parameter, ends⟩
      obtain ⟨first, more, rfl, _⟩ := parameter.exists_cons isExact.toFormed
      rcases ends with ⟨rfl, _⟩ | rfl <;> simp at short <;> omega
    refine DenotesOn.congrOn (denotes_peekOn 0 fun first => denotes_ite (fun _ => denotes_pure ()) fun other =>
      ((denotes_callableParameter isExact).mono ?_).bindOn (fun _ => ih)
        fun before _ rest holds => fits before () rest holds.1) ?_
    · rintro before ⟨_, rfl⟩
      rwa [List.head?_eq_getElem?]
    · intro before _ _ rest
      constructor
      · rintro (⟨closed, _, rfl⟩ | ⟨_, _, _, ⟨p, parameter, ends⟩, q, rfl, parameters, closed⟩)
        · exact ⟨[], rfl, .none, by rw [List.head?_eq_getElem?, closed]⟩
        · rcases ends with ⟨rfl, close⟩ | rfl
          · obtain rfl := parameters.eq_nil isExact.toFormed close
            exact ⟨p, rfl, .last parameter, closed⟩
          · exact ⟨p ++ "," :: q, by simp, .more parameter parameters, closed⟩
      · rintro ⟨p, rfl, parameters, closed⟩
        cases parameters with
        | none => exact .inl ⟨by rw [← closed, List.head?_eq_getElem?]; rfl, rfl, rfl⟩
        | last parameter =>
          obtain ⟨first, more, rfl, other⟩ := parameter.exists_cons isExact.toFormed
          exact .inr ⟨by simpa using other, (), rest, ⟨_, parameter, .inl ⟨rfl, closed⟩⟩, [], rfl, .none, closed⟩
        | @more p q parameter others =>
          obtain ⟨first, more, rfl, other⟩ := parameter.exists_cons isExact.toFormed
          exact .inr ⟨by simpa using other, (), q ++ rest, ⟨_, parameter, .inr (by simp)⟩, q, rfl, others, closed⟩

theorem denotes_returned :
    Denotes (peek 0 >>= fun first => if first = some "?" then discard (level.anyType false) else
      discard (singleType level)) (Phrase Ends fun p (_ : Unit) => Returned true inner p) := by
  refine (denotes_peek 0 fun first => denotes_ite (fun _ => isExact.readsType.discard) fun _ =>
    (denotes_singleType isExact).discard).congr fun before _ rest => ⟨?_, ?_⟩
  · rintro (⟨question, type, p, ⟨grip, joins⟩, rfl, isType, ends⟩ | ⟨other, type, p, grip, rfl, single, ends⟩)
    · obtain ⟨first, more, rfl, _⟩ := isExact.anyType _ _ _ isType
      obtain rfl : first = "?" := by simpa using question
      obtain rfl : joins = false := isExact.nullable _ _ _ isType
      exact ⟨"?" :: more, grip, rfl, .nullable isType, ends.1⟩
    · obtain ⟨first, more, rfl, _⟩ := single.jointed isExact.toFormed
      exact ⟨first :: more, grip, rfl, .single (fun _ => by simpa using other) single, ends⟩
  · rintro ⟨p, grip, rfl, returned, ends⟩
    cases returned with
    | @single _ type _ first single =>
      refine .inr ⟨?_, type, p, grip, rfl, single, ends⟩
      obtain ⟨token, more, rfl, _⟩ := single.jointed isExact.toFormed
      exact first rfl
    | @nullable p type _ isType => exact .inl ⟨rfl, type, _, ⟨grip, false⟩, rfl, isType, ends, nofun⟩

theorem denotes_callableArguments :
    Denotes (callableArguments level) (Phrase Ends fun p (_ : Unit) => CallableArguments true inner p) := by
  have opening := denotes_mark "(" (by simp)
  have closing := denotes_mark ")" (by simp)
  have colon := denotes_mark ":" (by simp)
  have signature : ∀ n, DenotesOn (·.length ≤ n) (untilToken ")" (callableParameter level) (n + 1) >>= fun _ =>
      expect ")" >>= fun _ => expect ":" >>= fun _ => peek 0 >>= fun first =>
        if first = some "?" then discard (level.anyType false) else discard (singleType level)) _ := fun n =>
    ((denotes_parameters isExact (n + 1)).mono fun _ => Nat.lt_succ_of_le).bind fun _ => closing.bind fun _ =>
      colon.bind fun _ => denotes_returned isExact
  refine (denotes_peek 0 fun first => denotes_ite (fun _ => opening.bind fun _ => denotes_ahead signature) fun _ =>
    denotes_pure ()).congr fun before _ rest => ⟨?_, ?_⟩
  · rintro (⟨_, _, _, rfl, _, _, ⟨p, rfl, parameters, _⟩, _, _, rfl, _, _, rfl, q, grip, rfl, returned, ends⟩ |
      ⟨other, _, rfl⟩)
    · exact ⟨"(" :: (p ++ ")" :: ":" :: q), grip, by simp, .signature parameters returned, ends⟩
    · exact ⟨[], [.signature], rfl, .bare, (ends_singleton rfl).mpr other⟩
  · rintro ⟨p, grip, rfl, derives, ends⟩
    cases derives with
    | bare => exact .inr ⟨(ends_singleton rfl).mp ends, rfl, rfl⟩
    | @signature p q _ parameters returned =>
      exact .inl ⟨rfl, (), _, rfl, (), ")" :: ":" :: (q ++ rest), ⟨p, by simp, parameters, rfl⟩, (), _, rfl, (), _,
        rfl, q, grip, rfl, returned, ends⟩

end Arguments

end DocTypes.Grammar
