import DocTypes.Proofs.GrammarArguments
import DocTypes.Proofs.SuperTypes

namespace DocTypes.Grammar

variable {ctx : Context} {level : Level} {inner : Nonterminals}

/-- What a token announces says which form its basic type has. -/
theorem headType_iff {token : String} {p : List String} {type : DocType} {grip : List Suffix} :
    HeadType ctx true inner (token :: p) type grip ↔
      Form ctx true inner token p type grip (Head.ofToken ctx.scope token) := by
  rw [Head.ofToken_eq]
  constructor
  · rintro ⟨announced, form⟩
    rwa [ofWord_of_announced announced]
  · exact HeadType.mk announced_ofWord

section

variable {token : String} {taking : Reading Unit}
  (takes : Denotes taking fun before _ rest => ∃ token, before = token :: rest)
include takes

theorem denotes_alone (type : DocType) :
    DenotesOn (·.head? = some token) (taking >>= fun _ => pure type) fun before value rest => ∃ p grip,
      before = token :: (p ++ rest) ∧ (p = [] ∧ value = type ∧ grip = []) ∧ Ends grip rest := by
  refine (takes.on.bind fun _ => denotes_pure type).congrOn fun before first value rest => ⟨?_, ?_⟩
  · rintro ⟨_, _, ⟨found, rfl⟩, rfl, rfl⟩
    obtain rfl : found = token := by simpa using first
    exact ⟨[], [], rfl, ⟨rfl, rfl, rfl⟩, ends_nil⟩
  · rintro ⟨_, _, rfl, ⟨rfl, rfl, rfl⟩, _⟩
    exact ⟨(), rest, ⟨token, rfl⟩, rfl, rfl⟩

theorem denotes_argued {arguments : Reading Unit} {derives : List String → List Suffix → Prop}
    (denotes : Denotes arguments (Phrase Ends fun p (_ : Unit) => derives p)) (type : DocType) :
    DenotesOn (·.head? = some token) (taking >>= fun _ => arguments >>= fun _ => pure type) fun before value rest =>
      ∃ p grip, before = token :: (p ++ rest) ∧ (derives p grip ∧ value = type) ∧ Ends grip rest := by
  refine (takes.on.bind fun _ => denotes.bind fun _ => denotes_pure type).congrOn
    fun before first value rest => ⟨?_, ?_⟩
  · rintro ⟨_, _, ⟨found, rfl⟩, _, _, ⟨p, grip, rfl, derived, ends⟩, rfl, rfl⟩
    obtain rfl : found = token := by simpa using first
    exact ⟨p, grip, rfl, ⟨derived, rfl⟩, ends⟩
  · rintro ⟨p, grip, rfl, ⟨derived, rfl⟩, ends⟩
    exact ⟨(), p ++ rest, ⟨token, rfl⟩, (), rest, ⟨p, grip, rfl, derived, ends⟩, rfl, rfl⟩

end

theorem objectSuffix_eq (type : DocType) : objectSuffix ctx level type = peek 0 >>= fun first =>
    if first = some "<" then
      if ctx.classes.isObject type.text = true then
        expect "<" >>= fun _ =>
          (discard (sepBy (level.anyType false) (eat ",")) >>= fun _ => expect ">") >>= fun _ => pure type
      else pure type
    else if first = some "::" then
      if ctx.classes.isObject type.text = true then constantReference >>= fun _ => pure (unresolved ctx)
      else pure type
    else pure type := by
  unfold objectSuffix
  congr 1
  funext first
  split <;> simp_all

theorem denotes_constantReference : Denotes constantReference (Phrase Ends fun p (_ : Unit) => Constants p) := by
  have star := denotes_mark "*" (by simp)
  have final : ∀ named : Bool, Denotes _ _ := fun named => denotes_peek 0 fun first =>
    denotes_ite (fun _ : (!named || decide (first = some "*")) = true => star) fun _ => denotes_pure ()
  refine DenotesOn.congr ((denotes_mark "::" (by simp)).bind fun _ => denotes_peek 0 fun first =>
    denotes_ite (fun _ => denotes_take.discard.bind fun _ => final _) fun _ => final _) fun before _ rest =>
      ⟨?_, ?_⟩
  · rintro ⟨_, _, rfl, ⟨named, _, _, ⟨name, rfl⟩, ends⟩ | ⟨unnamed, ends⟩⟩
    · have isName : Token.startsName name := by simpa using named
      obtain ⟨_, rfl⟩ | ⟨noStar, _, rfl⟩ := ends
      · exact ⟨["::", name, "*"], [], rfl, .family (.some isName), ends_nil⟩
      · have other : rest[0]? ≠ some "*" := by simpa [isName] using noStar
        exact ⟨["::", name], [.family], rfl, .named isName, (ends_singleton rfl).mpr other⟩
    · obtain ⟨_, rfl⟩ | ⟨noStar, _⟩ := ends
      · exact ⟨["::", "*"], [], rfl, .family .none, ends_nil⟩
      · exact absurd (by simp [unnamed]) noStar
  · rintro ⟨p, grip, rfl, constants, ends⟩
    cases constants with
    | @named name isName =>
      have other : rest[0]? ≠ some "*" := (ends_singleton rfl).mp ends
      exact ⟨(), _, rfl,
        .inl ⟨by simpa using isName, (), rest, ⟨name, rfl⟩, .inr ⟨by simp [isName, other], rfl, rfl⟩⟩⟩
    | @family name isName =>
      rcases isName with _ | isName
      · have noName : ¬ Token.startsName "*" := by decide
        exact ⟨(), _, rfl, .inr ⟨by simpa using noName, .inl ⟨by simp, rfl⟩⟩⟩
      · exact ⟨(), _, rfl, .inl ⟨by simpa using isName, (), _, ⟨_, rfl⟩, .inl ⟨by simp, rfl⟩⟩⟩

/-- Constants start with a mark and go on behind it. -/
theorem Constants.exists_cons {p : List String} {grip : List Suffix} (constants : Constants p grip) :
    ∃ second more, p = "::" :: second :: more := by
  cases constants with
  | named => exact ⟨_, _, rfl⟩
  | @family name isName => rcases isName with _ | _ <;> exact ⟨_, _, rfl⟩

theorem ObjectSuffix.two_le_length {type found : DocType} {p : List String} {grip : List Suffix}
    (suffix : ObjectSuffix ctx inner type p found grip) : 2 ≤ p.length := by
  cases suffix with
  | arguments => simp
  | constants constants =>
    obtain ⟨second, more, rfl⟩ := constants.exists_cons
    simp

theorem head_form {token : String} {p : List String} {type : DocType} {grip : List Suffix} {head : Head}
    (form : Form ctx true inner token p type grip head) : ∀ second ∈ p.head?, second ∈ joints := by
  cases head with
  | bool _ | float | floatLiteral | stringLiteral | callableString | never | plain _ | self | parent | static =>
    obtain ⟨rfl, _⟩ := form
    simp
  | int _ => obtain ⟨arguments, _⟩ := form; cases arguments <;> simp [joints]
  | string _ => obtain ⟨arguments, _⟩ := form; cases arguments <;> simp [joints]
  | array _ => obtain ⟨arguments, _⟩ := form; cases arguments <;> simp [joints]
  | object => obtain ⟨arguments, _⟩ := form; cases arguments <;> simp [joints]
  | callable | closure => obtain ⟨arguments, _⟩ := form; cases arguments <;> simp [joints]
  | iterable => obtain ⟨arguments, _⟩ := form; cases arguments <;> simp [joints]
  | keyOrValue _ => obtain ⟨⟨_, _⟩, _⟩ := form; simp [joints]
  | className =>
    obtain ⟨_, rfl, _⟩ := form
    simp
  | unknown => exact form.elim

theorem HeadType.jointed {p : List String} {type : DocType} {grip : List Suffix}
    (head : HeadType ctx true inner p type grip) : Jointed p := by
  obtain ⟨_, form⟩ := head
  exact ⟨_, _, rfl, fun _ => head_form form⟩

theorem BasicType.jointed {p : List String} {type : DocType} {grip : List Suffix}
    (basic : BasicType ctx true inner p type grip) : Jointed p := by
  cases basic with
  | plain head => exact head.jointed
  | suffixed head _ suffix =>
    refine head.jointed.append ?_
    cases suffix with
    | arguments => simp [joints]
    | constants constants =>
      obtain ⟨second, more, rfl⟩ := constants.exists_cons
      simp [joints]

theorem intersectionMembers_iff {singles : List DocType} {members : List String} :
    intersectionMembers ctx singles = .ok members ↔ Meets ctx singles members := by
  unfold intersectionMembers
  by_cases anyUnion : singles.any DocType.isUnion
  · rw [if_pos anyUnion]
    constructor
    · intro found
      rcases singles with _ | ⟨single, _ | ⟨second, others⟩⟩
      · cases found
      · cases found
        exact .union (by simpa using anyUnion)
      · cases found
    · intro meets
      cases meets with
      | union => rfl
      | atoms plain _ =>
        obtain ⟨single, member, isUnion⟩ := List.any_eq_true.mp anyUnion
        exact absurd isUnion (plain single member)
  · rw [if_neg anyUnion]
    have plain : ∀ single ∈ singles, ¬ single.isUnion := fun single member isUnion =>
      anyUnion (List.any_eq_true.mpr ⟨single, member, isUnion⟩)
    constructor
    · intro found
      cases meet : ctx.classes.normalIntersection (singles.flatMap fun single => DocType.atoms single.text) with
      | error error => simp [meet, bind, Except.bind] at found
      | ok atoms =>
        simp only [meet, bind, Except.bind, pure, Except.pure, Except.ok.injEq] at found
        exact found ▸ .atoms plain meet
    · intro meets
      cases meets with
      | union isUnion => exact absurd isUnion (plain _ (by simp))
      | atoms _ meet => simp [meet, bind, Except.bind, pure, Except.pure]

theorem Series.jointed {α γ : Type} {mark : String} {joins : List String → Prop} {item : List String → α → γ → Prop}
    (isJoint : mark ∈ joints) (each : ∀ p value grip, item p value grip → Jointed p) {p : List String}
    {values : List α} {grip : γ} (series : Series mark joins item p values grip) : Jointed p := by
  cases series with
  | one first => exact each _ _ _ first
  | more first => exact (each _ _ _ first).append (by simp [isJoint])

theorem Intersection.jointed (formed : inner.Formed) {p members : List String} {grip : List Suffix}
    (intersection : Intersection ctx true inner p members grip) : Jointed p := by
  obtain ⟨series, _⟩ := intersection
  exact series.jointed (by decide) fun p type grip single => single.jointed formed

theorem jointed_union (formed : inner.Formed) {p : List String} {members : List (List String)} {grip : List Suffix}
    (series : Series "|" Anything (Intersection ctx true inner) p members grip) : Jointed p :=
  series.jointed (by decide) fun _ _ _ intersection => intersection.jointed formed

/-- The tokens start a conditional. -/
def Asks (bracketed : Bool) (before : List String) : Prop :=
  startsConditional bracketed before[0]? before[1]?

theorem not_asks {bracketed : Bool} {p : List String} (jointed : Jointed p) : ¬ Asks bracketed p := by
  intro asks
  obtain ⟨first, more, rfl, behind⟩ := jointed
  simp only [Asks, startsConditional, List.getElem?_cons_zero, List.getElem?_cons_succ, Option.any_some,
    Bool.and_eq_true, decide_eq_true_eq] at asks
  have other : first ∉ ["(", "?"] := by
    intro member
    have none : ∀ mark ∈ ["(", "?"], ¬ Token.isVariable mark := by decide
    exact none first member asks.1.2
  have isJoint := behind other "is" (by rw [List.head?_eq_getElem?, asks.2]; rfl)
  exact absurd isJoint (by decide)

/-- Whether a conditional starts shows before the bracket behind a type. -/
theorem asks_append {bracketed : Bool} {p rest : List String} (asks : Asks bracketed (p ++ ")" :: rest)) :
    Asks bracketed p := by
  have other : ¬ Token.isVariable ")" := by decide
  rcases p with _ | ⟨first, _ | ⟨second, more⟩⟩
  all_goals simp_all [Asks, startsConditional]

theorem AnyType.jointed (formed : inner.Formed) {p : List String} {type : DocType} {grip : Grip}
    (derives : AnyType ctx true inner false p type grip) : Jointed p := by
  cases derives with
  | nullable single => exact ⟨"?", _, rfl, fun other => absurd (by simp) other⟩
  | union _ series => exact jointed_union formed series

section Exactness

variable (isExact : Exact level inner)
include isExact

theorem denotes_basicHead (token : String) :
    DenotesOn (·.head? = some token) (basicHead ctx level token) (Phrase Ends (HeadType ctx true inner)) := by
  have form : DenotesOn (·.head? = some token) (basicHead ctx level token) fun before type rest => ∃ p grip,
      before = token :: (p ++ rest) ∧ Form ctx true inner token p type grip (Head.ofToken ctx.scope token) ∧
        Ends grip rest := by
    unfold basicHead
    -- whatever a token announces, it is taken first and then its arguments are, if it has any
    cases Head.ofToken ctx.scope token with
    | bool word => exact denotes_alone (denotes_keyword word) _
    | int word => exact denotes_argued (denotes_keyword word) (denotes_intArguments ctx isExact word) _
    | float => exact denotes_alone (denotes_keyword _) _
    | floatLiteral => exact denotes_alone denotes_take.discard _
    | string word => exact denotes_argued (denotes_keyword word) (denotes_stringArguments ctx isExact word) _
    | stringLiteral => exact denotes_alone denotes_take.discard _
    | callableString => exact denotes_alone (denotes_keyword _) _
    | array word => exact denotes_argued (denotes_keyword word) (denotes_arrayArguments ctx isExact word) _
    | object => exact denotes_argued (denotes_keyword _) (denotes_objectArguments isExact) _
    | never => exact denotes_alone (denotes_keyword _) _
    | plain word => exact denotes_alone (denotes_keyword word) _
    | self => exact denotes_alone (denotes_keyword _) _
    | parent => exact denotes_alone (denotes_keyword _) _
    | static => exact denotes_alone (denotes_keyword _) _
    | callable => exact denotes_argued (denotes_keyword _) (denotes_callableArguments isExact) _
    | closure => exact denotes_argued denotes_take.discard (denotes_callableArguments isExact) _
    | iterable => exact denotes_argued (denotes_keyword _) (denotes_iterableArguments isExact) _
    | keyOrValue word => exact denotes_argued (denotes_keyword word) (denotes_keyOrValueArguments ctx isExact) _
    | className =>
      refine (denotes_take.on.bind fun name => denotes_refuse (denotes_pure _)).congrOn
        fun before first type rest => ⟨?_, ?_⟩
      · rintro ⟨name, _, rfl, complete, rfl, rfl⟩
        obtain rfl : name = token := by simpa using first
        exact ⟨[], [], rfl, ⟨complete, rfl, rfl, rfl⟩, ends_nil⟩
      · rintro ⟨_, _, rfl, ⟨complete, rfl, rfl, rfl⟩, _⟩
        exact ⟨token, rest, rfl, complete, rfl, rfl⟩
    | unknown => exact (denotes_throw _).congrOn fun _ _ _ _ => by simp [Form]
  refine form.congrOn fun before first type rest => ⟨?_, ?_⟩
  · rintro ⟨p, grip, rfl, form, ends⟩
    exact ⟨token :: p, grip, rfl, headType_iff.mpr form, ends⟩
  · rintro ⟨p, grip, rfl, head, ends⟩
    obtain ⟨found, more, rfl⟩ : ∃ found more, p = found :: more := by
      obtain ⟨_, _⟩ := head
      exact ⟨_, _, rfl⟩
    obtain rfl : found = token := by simpa using first
    exact ⟨more, grip, rfl, headType_iff.mp head, ends⟩

theorem denotes_objectSuffix (type : DocType) :
    Denotes (objectSuffix ctx level type) fun before found rest =>
      (found = type ∧ rest = before) ∧ Ends (objectGrip ctx type) rest ∨
        ctx.classes.isObject type.text ∧ Phrase Ends (ObjectSuffix ctx inner type) before found rest := by
  have nonempty : ∀ p type grip, inner.anyType false p type grip → p ≠ [] :=
    fun p type grip derives => (isExact.anyType p type grip derives).ne_nil
  have arguments := denotes_list ">" isExact.readsType nonempty (by simp) (by decide)
    (Grip.ends_mark (by decide)) (Grip.ends_mark (by decide))
  rw [objectSuffix_eq]
  have opening := denotes_mark "<" (by simp)
  refine (denotes_peek 0 fun first => denotes_ite (fun _ => denotes_ite (fun _ => opening.bind fun _ =>
    arguments.bind fun _ => denotes_pure type) fun _ => denotes_pure type) fun _ => denotes_ite (fun _ =>
    denotes_ite (fun _ => denotes_constantReference.bind fun _ => denotes_pure (unresolved ctx)) fun _ =>
    denotes_pure type) fun _ => denotes_pure type).congr fun before found rest => ?_
  by_cases object : ctx.classes.isObject type.text
  · have grip : Ends (objectGrip ctx type) rest ↔ rest[0]? ≠ some "<" ∧ rest[0]? ≠ some "::" := by
      rw [objectGrip, if_pos object, ends_cons, ends_singleton rfl]
      exact and_congr_left fun _ => not_congr opens_iff
    rw [grip]
    constructor
    · rintro (⟨_, ⟨_, _, _, rfl, _, _, ⟨p, types, grip, rfl, series⟩, rfl, rfl⟩ | ⟨noObject, _⟩⟩ |
        ⟨noAngle, ⟨_, ⟨_, _, _, ⟨p, grip, rfl, constants, ends⟩, rfl, rfl⟩ | ⟨noObject, _⟩⟩ | ⟨noColons, rfl, rfl⟩⟩)
      · exact .inr ⟨object, "<" :: (p ++ [">"]), [], by simp, .arguments series, ends_nil⟩
      · exact absurd object noObject
      · exact .inr ⟨object, p, grip, rfl, .constants constants, ends⟩
      · exact absurd object noObject
      · exact .inl ⟨⟨rfl, rfl⟩, noAngle, noColons⟩
    · rintro (⟨⟨rfl, rfl⟩, noAngle, noColons⟩ | ⟨_, p, grip, rfl, suffix, ends⟩)
      · exact .inr ⟨noAngle, .inr ⟨noColons, rfl, rfl⟩⟩
      · cases suffix with
        | @arguments p types gripLast series =>
          exact .inl ⟨rfl, .inl ⟨object, (), _, rfl, (), rest, ⟨p, types, gripLast, by simp, series⟩, rfl, rfl⟩⟩
        | constants constants =>
          obtain ⟨second, more, rfl⟩ := constants.exists_cons
          exact .inr ⟨by simp, .inl ⟨rfl, .inl ⟨object, (), rest, ⟨_, grip, rfl, constants, ends⟩, rfl, rfl⟩⟩⟩
  · have ends : Ends (objectGrip ctx type) rest := by
      rw [objectGrip, if_neg object]
      exact ends_nil
    simp only [object, ends]
    grind

theorem denotes_basicType : Denotes (basicType ctx level) (Phrase Ends (BasicType ctx true inner)) := by
  have first : ∀ seen : Option String, DenotesOn (fun before => True ∧ before[0]? = seen)
      (basicTypeAt ctx level seen) (Phrase Ends (BasicType ctx true inner)) := by
    intro seen
    cases seen with
    | none =>
      refine (denotes_throw _).congrOn fun before empty type rest => ⟨False.elim, ?_⟩
      rintro ⟨p, grip, rfl, basic, _⟩
      obtain ⟨first, more, rfl, _⟩ := basic.jointed
      simp at empty
    | some token =>
      refine (((denotes_basicHead isExact token).mono ?_).bind (denotes_objectSuffix isExact)).congrOn
        fun before _ type rest => ⟨?_, ?_⟩
      · rintro before ⟨_, isFirst⟩
        rw [List.head?_eq_getElem?, isFirst]
      · rintro ⟨type, _, ⟨p, grip, rfl, head, ends⟩, ⟨⟨rfl, rfl⟩, endsObject⟩ |
          ⟨object, q, gripSuffix, rfl, suffix, ended⟩⟩
        · exact ⟨p, grip ++ objectGrip ctx type, rfl, .plain head, ends_append.mpr ⟨ends, endsObject⟩⟩
        · have mayFollow := (ends_append_right suffix.two_le_length).mp ends
          exact ⟨p ++ q, gripSuffix, by simp, .suffixed head object suffix fun _ => mayFollow, ended⟩
      · rintro ⟨p, grip, rfl, basic, ends⟩
        cases basic with
        | plain head =>
          obtain ⟨ends, endsObject⟩ := ends_append.mp ends
          exact ⟨type, rest, ⟨p, _, rfl, head, ends⟩, .inl ⟨⟨rfl, rfl⟩, endsObject⟩⟩
        | @suffixed p q object _ gripHead _ head isObject suffix mayFollow =>
          have endsHead : Ends gripHead (q ++ rest) := (ends_append_right suffix.two_le_length).mpr (mayFollow rfl)
          exact ⟨object, q ++ rest, ⟨p, gripHead, by simp, head, endsHead⟩,
            .inr ⟨isObject, q, grip, rfl, suffix, ends⟩⟩
  exact denotes_peekOn 0 first

theorem denotes_intersection :
    Denotes (intersection ctx level) (Phrase (fun grip rest => Ends grip rest ∧ ¬ GoesOn "&" Conjoins rest)
      (Intersection ctx true inner)) := by
  have nonempty : ∀ p type grip, Single true inner p type grip → p ≠ [] :=
    fun p type grip single => (single.jointed isExact.toFormed).ne_nil
  have near : ∀ p rest : List String, p ≠ [] → (Conjoins (p ++ rest) ↔ Conjoins p) := by
    intro p rest nonempty
    rw [Conjoins, Conjoins, List.head?_append_of_ne_nil _ nonempty]
  have singles := denotes_sepBy (denotes_singleType isExact) denotes_continuesIntersection nonempty
    (fun grip q _ => ends_mark (by decide) grip q) near
  refine (singles.bind fun singles => denotes_lift _).congr fun before members rest => ⟨?_, ?_⟩
  · rintro ⟨singles, _, ⟨p, grip, rfl, series, ends⟩, meets, rfl⟩
    exact ⟨p, grip, rfl, .mk series (intersectionMembers_iff.mp meets), ends⟩
  · rintro ⟨p, grip, rfl, ⟨series, meets⟩, ends⟩
    exact ⟨_, rest, ⟨p, grip, rfl, series, ends⟩, intersectionMembers_iff.mpr meets, rfl⟩

/-- A union goes on as its last member does, and with further members. -/
theorem denotes_union :
    Denotes (union ctx level) (Phrase Grip.Ends fun p members grip => grip.joins = true ∧ ∃ each,
      Series "|" Anything (Intersection ctx true inner) p each grip.suffixes ∧ members = each.flatten) := by
  have nonempty : ∀ p members grip, Intersection ctx true inner p members grip → p ≠ [] :=
    fun p members grip intersection => (intersection.jointed isExact.toFormed).ne_nil
  have closed : ∀ (grip : List Suffix) (q : List String), Anything q →
      Ends grip ("|" :: q) ∧ ¬ GoesOn "&" Conjoins ("|" :: q) :=
    fun grip q _ => ⟨ends_mark (by decide) grip q, not_goesOn (by decide)⟩
  have each := denotes_sepBy (denotes_intersection isExact) (denotes_separator "|") nonempty closed fun _ _ _ =>
    Iff.rfl
  refine (each.bind fun each => denotes_pure each.flatten).congr fun before members rest => ⟨?_, ?_⟩
  · rintro ⟨each, _, ⟨p, grip, rfl, series, ⟨ends, noMore⟩, noOther⟩, rfl, rfl⟩
    exact ⟨p, ⟨grip, true⟩, rfl, ⟨rfl, each, series, rfl⟩, ends, fun _ => ⟨noMore, noOther⟩⟩
  · rintro ⟨p, grip, rfl, ⟨joins, each, series, rfl⟩, ends, ended⟩
    obtain ⟨noMore, noOther⟩ := ended joins
    exact ⟨each, rest, ⟨p, grip.suffixes, rfl, series, ⟨ends, noMore⟩, noOther⟩, rfl, rfl⟩

theorem denotes_nullable :
    Denotes (nullable level) (Phrase Ends fun p members grip => ∃ q type, p = "?" :: q ∧
      Single true inner q type grip ∧ members = type.members ++ ["null"]) := by
  have question := denotes_mark "?" (by simp)
  refine (question.bind fun _ => (denotes_singleType isExact).bind fun single => denotes_pure _).congr
    fun before members rest => ⟨?_, ?_⟩
  · rintro ⟨_, _, rfl, type, _, ⟨p, grip, rfl, single, ends⟩, rfl, rfl⟩
    exact ⟨"?" :: p, grip, rfl, ⟨p, type, rfl, single, rfl⟩, ends⟩
  · rintro ⟨_, grip, rfl, ⟨p, type, rfl, single, rfl⟩, ends⟩
    exact ⟨(), _, rfl, type, rest, ⟨p, grip, rfl, single, ends⟩, rfl, rfl⟩

theorem denotes_conditional :
    Denotes (conditional level) fun before members rest => ∃ name is p q r asked yes no gripAsked gripYes grip,
      before = name :: is :: (p ++ "?" :: (q ++ ":" :: (r ++ rest))) ∧ Text.sameWord is "is" ∧
        inner.anyType false p asked gripAsked ∧ inner.anyType false q yes gripYes ∧ inner.anyType false r no grip ∧
        grip.Ends rest ∧ members = yes.members ++ no.members := by
  have question := denotes_mark "?" (by simp)
  have colon := denotes_mark ":" (by simp)
  refine (denotes_take.discard.bind fun _ => (denotes_expect "is").bind fun _ =>
    isExact.readsType.discard.bind fun _ =>
    question.bind fun _ => isExact.readsType.bind fun yes => colon.bind fun _ => isExact.readsType.bind fun no =>
    denotes_pure _).congr fun before members rest => ⟨?_, ?_⟩
  · rintro ⟨_, _, ⟨name, rfl⟩, _, _, ⟨is, rfl, same⟩, _, _, ⟨asked, p, gripAsked, rfl, isAsked, _⟩, _, _, rfl, yes,
      _, ⟨q, gripYes, rfl, isYes, _⟩, _, _, rfl, no, _, ⟨r, grip, rfl, isNo, ends⟩, rfl, rfl⟩
    exact ⟨name, is, p, q, r, asked, yes, no, gripAsked, gripYes, grip, rfl, same, isAsked, isYes, isNo, ends, rfl⟩
  · rintro ⟨name, is, p, q, r, asked, yes, no, gripAsked, gripYes, grip, rfl, same, isAsked, isYes, isNo, ends, rfl⟩
    exact ⟨(), _, ⟨name, rfl⟩, (), _, ⟨is, rfl, same⟩, (), _,
      ⟨asked, p, gripAsked, rfl, isAsked, Grip.ends_mark (by decide) _ _⟩, (), _, rfl, yes, _,
      ⟨q, gripYes, rfl, isYes, Grip.ends_mark (by decide) _ _⟩, (), _, rfl, no, rest, ⟨r, grip, rfl, isNo, ends⟩,
      rfl, rfl⟩

theorem denotes_anyType (bracketed : Bool) :
    Denotes (anyType ctx level bracketed) fun before type rest => ∃ p grip, before = p ++ rest ∧
      AnyType ctx true inner bracketed p type grip ∧ grip.Ends rest ∧
      (Asks bracketed before → Asks bracketed p) := by
  refine DenotesOn.congr (denotes_peek 0 fun first => denotes_peek 1 fun second =>
    denotes_ite (fun _ : startsConditional bracketed first second => (denotes_conditional isExact).bind fun _ =>
    denotes_pure _) fun _ => denotes_ite (fun _ => (denotes_nullable isExact).bind fun _ => denotes_pure _) fun _ =>
    (denotes_union isExact).bind fun _ => denotes_pure _) fun before type rest => ⟨?_, ?_⟩
  · rintro (⟨asks, members, _, ⟨name, is, p, q, r, asked, yes, no, gripAsked, gripYes, grip, rfl, _, isAsked, isYes,
      isNo, ends, rfl⟩, rfl, rfl⟩ |
      ⟨noAsk, ⟨_, members, _, ⟨_, grip, rfl, ⟨p, single, rfl, isSingle, rfl⟩, ends⟩, rfl, rfl⟩ |
        ⟨noQuestion, members, _, ⟨p, ⟨grip, joins⟩, rfl, ⟨rfl, each, series, rfl⟩, ends⟩, rfl, rfl⟩⟩)
    · have first := asks
      simp only [List.getElem?_cons_zero, List.getElem?_cons_succ, Option.any_some, Bool.and_eq_true,
        decide_eq_true_eq, Option.some.injEq] at first
      obtain ⟨⟨rfl, isVariable⟩, rfl⟩ := first
      exact ⟨_, grip, by simp, .conditional isVariable isAsked isYes isNo, ends, fun _ => asks⟩
    · exact ⟨"?" :: p, ⟨grip, false⟩, rfl, .nullable isSingle, ⟨ends, nofun⟩, fun asks => absurd asks noAsk⟩
    · have jointed := jointed_union isExact.toFormed series
      have notFirst : p.head? ≠ some "?" := by
        rwa [← List.head?_append_of_ne_nil _ jointed.ne_nil, List.head?_eq_getElem?]
      exact ⟨p, ⟨grip, true⟩, rfl, .union (fun _ => notFirst) series, ends, fun asks => absurd asks noAsk⟩
  · rintro ⟨p, grip, rfl, derives, ends, asks⟩
    cases derives with
    | @conditional name p q r asked yes no gripAsked gripYes _ isVariable isAsked isYes isNo =>
      refine .inl ⟨?_, _, rest, ⟨name, "is", p, q, r, asked, yes, no, gripAsked, gripYes, grip, by simp, by decide,
        isAsked, isYes, isNo, ends, rfl⟩, rfl, rfl⟩
      simp [isVariable]
    | @nullable _ p single gripSingle isSingle =>
      refine .inr ⟨?_, .inl ⟨rfl, _, rest, ⟨_, gripSingle, rfl, ⟨p, single, rfl, isSingle, rfl⟩, ends.1⟩, rfl, rfl⟩⟩
      have other : ¬ Token.isVariable "?" := by decide
      simp [other]
    | @union _ _ each gripLast notFirst series =>
      -- behind a variable in a union stands a joint, and `is` is none
      have jointed := jointed_union isExact.toFormed series
      refine .inr ⟨fun starts => not_asks jointed (asks starts), .inr ⟨?_, _, rest,
        ⟨p, ⟨gripLast, true⟩, rfl, ⟨rfl, each, series, rfl⟩, ends⟩, rfl, rfl⟩⟩
      rw [← List.head?_eq_getElem?, List.head?_append_of_ne_nil _ jointed.ne_nil]
      exact notFirst rfl

/-- What is read one level further out is exact as well. -/
theorem Exact.next :
    Exact ⟨anyType ctx level, basicType ctx level⟩ ⟨AnyType ctx true inner, BasicType ctx true inner⟩ where
  anyType p type grip derives := derives.jointed isExact.toFormed
  basicType p type grip derives := derives.jointed
  nullable p type grip derives := by
    cases derives with
    | nullable => rfl
    | union notFirst => exact absurd rfl (notFirst rfl)
  readsType := by
    refine (denotes_anyType isExact false).congr fun before type rest => ⟨?_, ?_⟩
    · rintro ⟨p, grip, rfl, derives, ends, _⟩
      exact ⟨p, grip, rfl, derives, ends⟩
    · rintro ⟨p, grip, rfl, derives, ends⟩
      exact ⟨p, grip, rfl, derives, ends, nofun⟩
  readsBracketed := by
    refine ((denotes_anyType isExact true).bind fun type => (denotes_mark ")" (by simp)).bind fun _ =>
      denotes_pure type).congr fun before type rest => ⟨?_, ?_⟩
    · rintro ⟨type, _, ⟨p, grip, rfl, derives, _⟩, _, _, rfl, rfl, rfl⟩
      exact ⟨p, grip, rfl, derives⟩
    · rintro ⟨p, grip, rfl, derives⟩
      exact ⟨type, _, ⟨p, grip, rfl, derives, Grip.ends_mark (by decide) _ _, asks_append⟩, (), _, rfl, rfl, rfl⟩
  readsBasic := denotes_basicType isExact

end Exactness

theorem exact_level (ctx : Context) (n : Nat) : Exact (Grammar.level ctx n) (derivations ctx true n) := by
  induction n with
  | zero =>
    -- nothing is derived, and every reading fails
    refine ⟨⟨nofun, nofun, nofun⟩, ?_, ?_, ?_⟩
    · exact (denotes_throw _).congr fun _ _ _ => ⟨False.elim, fun ⟨_, _, _, derives, _⟩ => derives⟩
    · exact (denotes_throw_bind _ _).congr fun _ _ _ => ⟨False.elim, fun ⟨_, _, _, derives⟩ => derives⟩
    · exact (denotes_throw _).congr fun _ _ _ => ⟨False.elim, fun ⟨_, _, _, derives, _⟩ => derives⟩
  | succ n ih => exact ih.next

/-- A reading of a type takes up all tokens just if they have a settled derivation, with at most 64 types and basic
types open at once. So it takes up no tokens without a derivation. The supertypes that readings and derivations ask
for are all found. -/
theorem type_reads_iff_derives {classes : ClassTable} (named : classes.WellNamed) (scope : Scope) (wide : Bool)
    (c : Cursor) (type : DocType) :
    ((∃ after, Grammar.type { classes, scope, wide } c = .ok (type, after) ∧ after.ahead = []) ↔
      ∃ grip, (derivations { classes, scope, wide } true 64).anyType false c.texts type grip) ∧
    ((∃ after, Grammar.type { classes, scope, wide } c = .ok (type, after) ∧ after.ahead = []) →
      ∃ grip, (derivations { classes, scope, wide } false 64).anyType false c.texts type grip) ∧
    ∀ atom, classes.Searches (.supers atom) (classes.superTypes atom) := by
  have settled : (∃ after, Grammar.type { classes, scope, wide } c = .ok (type, after) ∧ after.ahead = []) ↔
      ∃ grip, (derivations { classes, scope, wide } true 64).anyType false c.texts type grip := by
    have reads := (exact_level { classes, scope, wide } 64).readsType c trivial type []
    constructor
    · rintro ⟨after, found, ended⟩
      obtain ⟨p, grip, texts, derives, _⟩ := reads.mp ⟨after, found, by rw [Cursor.texts, ended, List.map_nil]⟩
      rw [List.append_nil] at texts
      exact ⟨grip, texts ▸ derives⟩
    · rintro ⟨grip, derives⟩
      obtain ⟨after, found, ended⟩ := reads.mpr ⟨c.texts, grip, by simp, derives, grip.ends_of_marksReference rfl⟩
      exact ⟨after, found, List.map_eq_nil_iff.mp ended⟩
  refine ⟨settled, fun reads => ?_, fun atom => named.searches_iff.mpr rfl⟩
  obtain ⟨grip, derives⟩ := settled.mp reads
  exact ⟨grip, (settled_within _ 64).anyType false _ _ grip derives⟩

theorem exists_after {result : Except ParseError (DocType × Cursor)} {type : DocType}
    (found : result.toOption.map (fun found => (found.1, found.2.ahead)) = some (type, [])) :
    ∃ after, result = .ok (type, after) ∧ after.ahead = [] := by
  cases result with
  | error error => cases found
  | ok pair =>
    obtain ⟨isType, ended⟩ := Prod.mk.inj (Option.some.inj found)
    exact ⟨pair.2, by rw [← isType], ended⟩

/-- The suffix behind a signature belongs to the type that it returns. -/
theorem type_reads_iff_derives_signature :
    ClassTable.WellNamed .empty ∧ (∃ after, Grammar.type { classes := .empty, scope := .root, wide := false }
      (Cursor.ofText "callable(int=, T ...$x): array<string, int>[]|null".toList) =
        .ok (⟨["callable", "null"]⟩, after) ∧ after.ahead = []) ∧
    ∃ grip, (derivations { classes := .empty, scope := .root, wide := false } true 64).anyType false
      (Cursor.ofText "callable(int=, T ...$x): array<string, int>[]|null".toList).texts
      ⟨["callable", "null"]⟩ grip := by
  have reads : ∃ after, Grammar.type { classes := .empty, scope := .root, wide := false }
      (Cursor.ofText "callable(int=, T ...$x): array<string, int>[]|null".toList) =
        .ok (⟨["callable", "null"]⟩, after) ∧ after.ahead = [] := exists_after (by decide +kernel)
  have named : ClassTable.WellNamed .empty := by decide
  exact ⟨named, reads, (type_reads_iff_derives named .root false _ _).1.mp reads⟩

theorem Meets.ofAtom {atom : String} (isAtom : DocType.atoms atom = [atom]) : Meets ctx [⟨[atom]⟩] [atom] := by
  have plain : ∀ single ∈ [(⟨[atom]⟩ : DocType)], ¬ single.isUnion := by simp [DocType.isUnion]
  have meet :
      ctx.classes.normalIntersection ([(⟨[atom]⟩ : DocType)].flatMap fun single => DocType.atoms single.text) =
      .ok [atom] := by
    simp [DocType.text, Text.join_singleton, isAtom, ClassTable.normalIntersection]
  have meets := Meets.atoms plain meet
  rwa [Text.join_singleton] at meets

/-- A basic type as a type. -/
theorem AnyType.ofBasic {p members : List String} {type : DocType} {grip : List Suffix}
    (basic : inner.basicType p type grip) (meets : Meets ctx [type] members) :
    AnyType ctx false inner false p ⟨ctx.classes.normalUnion members⟩ ⟨.brackets :: grip, true⟩ := by
  have union : Series "|" Anything (Intersection ctx false inner) p [members] (.brackets :: grip) :=
    .one (.mk (.one (.plain (.basic nofun basic))) meets)
  have derives : AnyType ctx false inner false p ⟨ctx.classes.normalUnion [members].flatten⟩
      ⟨.brackets :: grip, true⟩ := .union nofun union
  simpa using derives

/-- Without care for suffixes, the arguments behind a signature may belong to the closure. The reading gives them to
the type that it returns, which takes no such arguments. -/
theorem signature_arguments_derived_not_read :
    (∃ grip, (derivations ⟨.empty, .root, false, 64⟩ false 64).anyType false
      (Cursor.ofText "\\Closure(): int<string>".toList).texts ⟨["\\Closure"]⟩ grip) ∧
    ¬ ∃ type after, Grammar.type ⟨.empty, .root, false, 64⟩ (Cursor.ofText "\\Closure(): int<string>".toList) =
      .ok (type, after) := by
  let ctx : Context := ⟨.empty, .root, false, 64⟩
  constructor
  · have texts : (Cursor.ofText "\\Closure(): int<string>".toList).texts =
        ["\\Closure", "(", ")", ":", "int", "<", "string", ">"] := by decide +kernel
    have int : HeadType ctx false (derivations ctx false 61) ["int"] ⟨["int"]⟩ [.arguments] :=
      .mk (show (Head.int "int").Announced _ _ _ by decide +kernel) ⟨.bare rfl, rfl⟩
    have string : HeadType ctx false (derivations ctx false 60) ["string"] ⟨["string"]⟩ [] :=
      .mk (show (Head.string "string").Announced _ _ _ by decide +kernel) ⟨.none (by decide), rfl⟩
    have returned : Returned false (derivations ctx false 62) ["int"] _ :=
      .single nofun (.plain (.basic nofun (.plain int)))
    have closure : HeadType ctx false (derivations ctx false 62) ["\\Closure", "(", ")", ":", "int"]
        ⟨["\\Closure"]⟩ _ :=
      .mk (show Head.closure.Announced _ _ _ by decide +kernel) ⟨.signature .none returned, rfl⟩
    have meetsString : Meets ctx [⟨["string"]⟩] ["string"] := .ofAtom (by decide +kernel)
    have meetsClosure : Meets ctx [⟨["\\Closure"]⟩] ["\\Closure"] := .ofAtom (by decide +kernel)
    have argument : (derivations ctx false 62).anyType false ["string"] _ _ := .ofBasic (.plain string) meetsString
    have suffix : ObjectSuffix ctx (derivations ctx false 62) ⟨["\\Closure"]⟩ ["<", "string", ">"] _ _ :=
      .arguments (.one argument)
    have basic : (derivations ctx false 63).basicType ["\\Closure", "(", ")", ":", "int", "<", "string", ">"] _ _ :=
      .suffixed closure (by decide +kernel) suffix nofun
    have normal : ctx.classes.normalUnion ["\\Closure"] = ["\\Closure"] := by decide +kernel
    rw [texts]
    exact ⟨_, normal ▸ AnyType.ofBasic basic meetsClosure⟩
  · rintro ⟨type, after, reads⟩
    have fails : (Grammar.type ⟨.empty, .root, false, 64⟩
      (Cursor.ofText "\\Closure(): int<string>".toList)).toOption = none := by decide +kernel
    rw [reads] at fails
    cases fails

end DocTypes.Grammar
