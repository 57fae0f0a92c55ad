import DocTypes.Proofs.ScriptRuns
import DocTypes.Proofs.SuperTypes

namespace DocTypes.Grammar

variable {α β : Type} {ctx : Context} {m : Machine} {depth : Nat}

/-- From a machine the script runs to its end, and the reading comes to the same end at the machine's cursor. -/
def AgreesAt (ctx : Context) (m : Machine) (script : Script α) (reading : Reading α) : Prop :=
  ∃ outcome after, Runs ctx script m outcome after ∧ reading m.cursor = (·, after.cursor) <$> outcome

/-- The script and the reading agree wherever so many levels are open. -/
def Agrees (ctx : Context) (depth : Nat) (script : Script α) (reading : Reading α) : Prop :=
  ∀ m : Machine, m.depth = depth → AgreesAt ctx m script reading

theorem bind_of_ok {reading : Reading α} {next : α → Reading β} {c after : Cursor} {value : α}
    (reads : reading c = .ok (value, after)) : (reading >>= next) c = next value after := by
  change (reading c >>= fun step => next step.1 step.2) = _
  rw [reads]
  rfl

theorem bind_of_error {reading : Reading α} {next : α → Reading β} {c : Cursor} {error : ParseError}
    (fails : reading c = .error error) : (reading >>= next) c = .error error := by
  change (reading c >>= fun step => next step.1 step.2) = _
  rw [fails]
  rfl

section Rules

variable {script : Script α} {reading : Reading α}

theorem AgreesAt.bind {rest : α → Script β} {next : α → Reading β} (agrees : AgreesAt ctx m script reading)
    (later : ∀ value after, after.depth = m.depth → AgreesAt ctx after (rest value) (next value)) :
    AgreesAt ctx m (script >>= rest) (reading >>= next) := by
  obtain ⟨outcome, between, runs, reads⟩ := agrees
  cases outcome with
  | error error => exact ⟨.error error, between, .broken runs, bind_of_error reads⟩
  | ok value =>
    obtain ⟨outcome, after, goesOn, readsRest⟩ := later value between runs.depth_eq
    exact ⟨outcome, after, .next runs goesOn, (bind_of_ok reads).trans readsRest⟩

theorem Agrees.bind {rest : α → Script β} {next : α → Reading β} (agrees : Agrees ctx depth script reading)
    (later : ∀ value, Agrees ctx depth (rest value) (next value)) :
    Agrees ctx depth (script >>= rest) (reading >>= next) :=
  fun m atDepth => (agrees m atDepth).bind fun value after same => later value after (same.trans atDepth)

theorem agrees_pure (value : α) : Agrees ctx depth (pure value) (pure value) :=
  fun m _ => ⟨.ok value, m, .done value m, rfl⟩

theorem agrees_throw (error : ParseError) : Agrees ctx depth (.fail error : Script α) (throw error) :=
  fun m _ => ⟨.error error, m, .fail error m, rfl⟩

theorem Agrees.discard (agrees : Agrees ctx depth script reading) :
    Agrees ctx depth (discard script) (discard reading) :=
  agrees.bind fun _ => agrees_pure ()

theorem agrees_ite {found : Prop} [Decidable found] {yes no : Script α} {readingYes readingNo : Reading α}
    (ifYes : Agrees ctx depth yes readingYes) (ifNo : Agrees ctx depth no readingNo) :
    Agrees ctx depth (if found then yes else no) (if found then readingYes else readingNo) := by
  by_cases holds : found
  · rw [if_pos holds, if_pos holds]
    exact ifYes
  · rw [if_neg holds, if_neg holds]
    exact ifNo

/-- A part that is left out unless something was found. -/
theorem Agrees.onlyIf {found : Prop} [Decidable found] {first : Script Unit} {ofFirst : Reading Unit}
    {rest : Unit → Script β} {next : Unit → Reading β} (agrees : Agrees ctx depth first ofFirst)
    (later : ∀ value, Agrees ctx depth (rest value) (next value)) :
    Agrees ctx depth (if found then first >>= rest else rest ()) (if found then ofFirst >>= next else next ()) :=
  agrees_ite (agrees.bind later) (later ())

/-- A demand that ends the script unless it is met. -/
theorem agrees_demand {met : Prop} [Decidable met] (error : ParseError) {rest : Unit → Script β}
    {next : Unit → Reading β} (later : ∀ value, Agrees ctx depth (rest value) (next value)) :
    Agrees ctx depth (if met then rest () else .fail error >>= rest)
      (if met then next () else throw error >>= next) :=
  agrees_ite (later ()) ((agrees_throw error).bind later)

theorem agrees_act (action : Action α) : Agrees ctx depth (.act action) action.reading := by
  intro m _
  cases acts : action.reading m.cursor with
  | error error => exact ⟨.error error, m, .refused acts, acts⟩
  | ok step => exact ⟨.ok step.1, { m with cursor := step.2 }, .acted acts, acts⟩

theorem agrees_peek (n : Nat) : Agrees ctx depth (Script.peek n) (peek n) :=
  agrees_act (.peek n)

theorem agrees_take : Agrees ctx depth Script.take take :=
  agrees_act .take

theorem agrees_expect (wanted : String) : Agrees ctx depth (Script.expect wanted) (expect wanted) :=
  agrees_act (.expect wanted)

theorem agrees_eat (text : String) : Agrees ctx depth (Script.eat text) (eat text) :=
  agrees_act (.eat text)

theorem agrees_keyword (canonical : String) : Agrees ctx depth (Script.keyword canonical) (keyword canonical) :=
  agrees_act (.keyword canonical)

theorem agrees_result (result : Except ParseError α) :
    Agrees ctx depth (Script.ofResult result) (liftM result) := by
  intro m _
  cases result with
  | error error => exact ⟨.error error, m, .fail error m, rfl⟩
  | ok value => exact ⟨.ok value, m, .done value m, rfl⟩

theorem Agrees.plain {production : Production α} (agrees : Agrees ctx depth (production.script ctx) reading)
    (flat : production.nests = false) : Agrees ctx depth (.call production) reading := by
  intro m atDepth
  obtain ⟨outcome, after, runs, reads⟩ := agrees m atDepth
  exact ⟨outcome, after, .plain flat runs, reads⟩

/-- A loop of a reading, which is given the number of tokens ahead as its bound. -/
theorem agrees_ahead (bounded : Nat → Reading α) {rest : α → Script β} {next : α → Reading β}
    (agrees : ∀ m : Machine, m.depth = depth → AgreesAt ctx m script (bounded m.cursor.ahead.length))
    (later : ∀ value, Agrees ctx depth (rest value) (next value)) :
    Agrees ctx depth (script >>= rest) (get >>= fun c => bounded c.ahead.length >>= next) :=
  fun m atDepth => (agrees m atDepth).bind fun value after same => later value after (same.trans atDepth)

end Rules

section Loops

/-- A loop agrees with a reading of its body once, and behind it of all the other rounds. -/
theorem agreesAt_loop {σ : Type} {body : σ → Script (σ ⊕ α)} {start : σ} {once : Reading (σ ⊕ α)}
    {next : σ → Reading α} (agrees : AgreesAt ctx m (body start) once)
    (later : ∀ value between, Runs ctx (body start) m (.ok (.inl value)) between →
      AgreesAt ctx between (.loop body value) (next value)) :
    AgreesAt ctx m (.loop body start) (once >>= fun round => round.elim next pure) := by
  obtain ⟨outcome, between, runs, reads⟩ := agrees
  cases outcome with
  | error error => exact ⟨.error error, between, .stuck runs, bind_of_error reads⟩
  | ok round =>
    cases round with
    | inr value => exact ⟨.ok value, between, .left runs, bind_of_ok reads⟩
    | inl value =>
      obtain ⟨outcome, after, loops, readsLoop⟩ := later value between runs
      exact ⟨outcome, after, .again runs loops, (bind_of_ok reads).trans readsLoop⟩

/-- A series has one item at least, which fails with no token ahead, so the bound is never the end of the series. -/
theorem agreesAt_separated {item : Script α} {more : Script Bool} {ofItem : Reading α} {ofMore : Reading Bool}
    (agreesItem : Agrees ctx depth item ofItem) (takes : Takes ctx item) (agreesMore : Agrees ctx depth more ofMore)
    {n : Nat} (atDepth : m.depth = depth) (bound : m.cursor.ahead.length ≤ n) (found : List α) :
    AgreesAt ctx m (.loop (Script.sepByStep item more) found)
      (separated ofItem ofMore n >>= fun others => pure (found ++ others)) := by
  induction n generalizing m found with
  | zero =>
    obtain ⟨outcome, between, runs, reads⟩ := agreesItem m atDepth
    cases outcome with
    | error error => exact ⟨.error error, between, .stuck (.broken runs), bind_of_error (bind_of_error reads)⟩
    | ok one =>
      have taken := takes m between one runs
      omega
  | succ n ih =>
    let once : Reading (List α ⊕ List α) := do
      let one ← ofItem
      if ← ofMore then return .inl (found ++ [one]) else return .inr (found ++ [one])
    have round : Agrees ctx depth (Script.sepByStep item more found) once :=
      agreesItem.bind fun one => agreesMore.bind fun goesOn => agrees_ite (agrees_pure _) (agrees_pure _)
    have rounds : (separated ofItem ofMore (n + 1) >>= fun others => pure (found ++ others)) =
        once >>= fun round =>
        round.elim (fun found => separated ofItem ofMore n >>= fun others => pure (found ++ others))
          pure := by
      simp only [once, separated, bind_assoc]
      congr
      funext one
      congr
      funext goesOn
      cases goesOn with
      | false => simp
      | true =>
        simp only [↓reduceIte, bind_assoc, pure_bind, Sum.elim_inl, List.append_assoc, List.singleton_append]
    rw [rounds]
    refine agreesAt_loop (round m atDepth) fun value between runs => ih (runs.depth_eq.trans atDepth) ?_ value
    have taken := takes.bind_first _ m between _ runs
    omega

/-- A round of the loop that is not the last takes what an item takes. -/
theorem Takes.untilTokenStep {close : String} {item : Script Unit} (takes : Takes ctx item) {after : Machine}
    {value : Unit} (runs : Runs ctx (Script.untilTokenStep close item ()) m (.ok (.inl value)) after) :
    after.cursor.ahead.length < m.cursor.ahead.length := by
  cases runs with
  | next peeks rest =>
    have before := peeks.further.ahead.length_le
    dsimp only at rest
    split at rest
    · cases rest
    · have taken := takes.bind_first _ _ _ _ rest
      omega

theorem agreesAt_untilToken {close : String} {item : Script Unit} {ofItem : Reading Unit}
    (agreesItem : Agrees ctx depth item ofItem) (takes : Takes ctx item) {n : Nat} (atDepth : m.depth = depth)
    (bound : m.cursor.ahead.length < n) :
    AgreesAt ctx m (Script.untilToken close item) (untilToken close ofItem n) := by
  induction n generalizing m with
  | zero => omega
  | succ n ih =>
    let once : Reading (Unit ⊕ Unit) := do
      if (← peek 0) = some close then return .inr ()
      else
        ofItem
        return .inl ()
    have round : Agrees ctx depth (Script.untilTokenStep close item ()) once :=
      (agrees_peek 0).bind fun front => agrees_ite (agrees_pure _) (agreesItem.bind fun _ => agrees_pure _)
    have rounds : untilToken close ofItem (n + 1) =
        once >>= fun round => round.elim (fun _ => untilToken close ofItem n) pure := by
      simp only [once, untilToken, bind_assoc]
      congr
      funext front
      split <;> simp
    rw [rounds]
    refine agreesAt_loop (round m atDepth) fun value between runs => ih (runs.depth_eq.trans atDepth) ?_
    have taken := takes.untilTokenStep runs
    omega

theorem takes_arraySuffixStep {found : Bool} {after : Machine} {value : Bool}
    (runs : Runs ctx (Script.arraySuffixStep found) m (.ok (.inl value)) after) :
    after.cursor.ahead.length < m.cursor.ahead.length := by
  cases runs with
  | next peeks rest =>
    cases rest with
    | next peeksNext rest =>
      have before := peeks.further.ahead.length_le
      have beforeNext := peeksNext.further.ahead.length_le
      dsimp only at rest
      split at rest
      · have taken := (Takes.expect "[").bind_first _ _ _ _ rest
        omega
      · cases rest

theorem agreesAt_arraySuffix {n : Nat} (bound : m.cursor.ahead.length ≤ n) (found : Bool) :
    AgreesAt ctx m (.loop Script.arraySuffixStep found) (arraySuffix n >>= fun more => pure (found || more)) := by
  induction n generalizing m found with
  | zero =>
    have nothing : m.cursor.peek 0 = none := by
      simp [Cursor.peek, List.length_eq_zero_iff.mp (Nat.le_zero.mp bound)]
    refine ⟨.ok found, m, .left (.next (.acted rfl) (.next (.acted rfl) ?_)), ?_⟩
    · rw [nothing]
      exact .done _ m
    · simp [arraySuffix]
      rfl
  | succ n ih =>
    let once : Reading (Bool ⊕ Bool) := do
      if (← peek 0) = some "[" && (← peek 1) = some "]" then
        expect "["
        expect "]"
        return .inl true
      else return .inr found
    have round : Agrees ctx m.depth (Script.arraySuffixStep found) once :=
      (agrees_peek 0).bind fun front => (agrees_peek 1).bind fun second => agrees_ite
        ((agrees_expect "[").bind fun _ => (agrees_expect "]").bind fun _ => agrees_pure _) (agrees_pure _)
    have rounds : (arraySuffix (n + 1) >>= fun more => pure (found || more)) =
        once >>= fun round =>
          round.elim (fun found => arraySuffix n >>= fun more => pure (found || more)) pure := by
      have dropped : (discard (arraySuffix n) : Reading Unit) = arraySuffix n >>= fun _ => pure () := rfl
      simp only [once, arraySuffix, bind_assoc]
      congr
      funext front
      congr
      funext second
      split
      · simp only [dropped, bind_assoc, pure_bind, Sum.elim_inl, Bool.or_true, Bool.true_or]
      · simp
    rw [rounds]
    refine agreesAt_loop (round m rfl) fun value between runs => ih ?_ value
    have taken := takes_arraySuffixStep runs
    omega

theorem agrees_arraySuffix (m : Machine) :
    AgreesAt ctx m Script.arraySuffix (arraySuffix m.cursor.ahead.length) := by
  have agrees : AgreesAt ctx m Script.arraySuffix _ := agreesAt_arraySuffix le_rfl false
  simp only [Bool.false_or, bind_pure] at agrees
  exact agrees

theorem agrees_sepBy {item : Script α} {more : Script Bool} {ofItem : Reading α} {ofMore : Reading Bool}
    (agreesItem : Agrees ctx depth item ofItem) (takes : Takes ctx item)
    (agreesMore : Agrees ctx depth more ofMore) :
    Agrees ctx depth (Script.sepBy item more) (sepBy ofItem ofMore) := by
  intro m atDepth
  have agrees := agreesAt_separated agreesItem takes agreesMore atDepth le_rfl []
  simp only [List.nil_append, bind_pure] at agrees
  exact agrees

end Loops

/-- The productions of a level are those that are called with so many levels open. -/
structure Answers (ctx : Context) (depth : Nat) (inner : Level) : Prop where
  anyType (bracketed : Bool) : Agrees ctx depth (.call (.anyType bracketed)) (inner.anyType bracketed)
  basicType : Agrees ctx depth (.call .basicType) inner.basicType

section Productions

variable {inner : Level} (answers : Answers ctx depth inner)

include answers

theorem agrees_singleType : Agrees ctx depth Script.singleType (singleType inner) := by
  have suffixed (base : DocType) : Agrees ctx depth
      (Script.arraySuffix >>= fun found => if found then pure ⟨["array"]⟩ else pure base)
      (get >>= fun c => arraySuffix c.ahead.length >>= fun found =>
        if found then pure ⟨["array"]⟩ else pure base) :=
    agrees_ahead arraySuffix (fun m _ => agrees_arraySuffix m) fun found =>
      agrees_ite (agrees_pure _) (agrees_pure _)
  refine (agrees_peek 0).bind fun front => agrees_ite ?_ ?_
  · exact (agrees_expect "(").bind fun _ => (answers.anyType true).bind fun type =>
      (agrees_expect ")").bind fun _ =>
      (agrees_pure type).bind suffixed
  · exact answers.basicType.bind suffixed

theorem agrees_callSingleType : Agrees ctx depth (.call .singleType) (singleType inner) :=
  (agrees_singleType answers).plain rfl

theorem agrees_intersection : Agrees ctx depth (Script.intersection ctx) (intersection ctx inner) := by
  have continues : Agrees ctx depth Script.continuesIntersection continuesIntersection :=
    (agrees_peek 0).bind fun _ => (agrees_peek 1).bind fun _ => agrees_ite (agrees_eat "&") (agrees_pure false)
  exact (agrees_sepBy (agrees_callSingleType answers) (takes_singleType ctx) continues).bind fun singles =>
    agrees_result _

theorem agrees_union : Agrees ctx depth (Script.union ctx) (union ctx inner) :=
  (agrees_sepBy (agrees_intersection answers) (takes_intersection ctx) (agrees_eat "|")).bind fun _ => agrees_pure _

theorem agrees_conditional : Agrees ctx depth Script.conditional (conditional inner) :=
  agrees_take.discard.bind fun _ => (agrees_expect "is").bind fun _ => (answers.anyType false).discard.bind fun _ =>
    (agrees_expect "?").bind fun _ => (answers.anyType false).bind fun _ => (agrees_expect ":").bind fun _ =>
      (answers.anyType false).bind fun _ => agrees_pure _

theorem agrees_nullable : Agrees ctx depth Script.nullable (nullable inner) :=
  (agrees_expect "?").bind fun _ => (agrees_callSingleType answers).bind fun _ => agrees_pure _

theorem agrees_anyType (bracketed : Bool) :
    Agrees ctx depth (Script.anyType ctx bracketed) (anyType ctx inner bracketed) := by
  refine (agrees_peek 0).bind fun first => (agrees_peek 1).bind fun second => agrees_ite ?_ (agrees_ite ?_ ?_)
  · exact (agrees_conditional answers).bind fun members => agrees_pure _
  · exact (agrees_nullable answers).bind fun members => agrees_pure _
  · exact (agrees_union answers).bind fun members => agrees_pure _

omit answers in
theorem agrees_intBound (bound : String) : Agrees ctx depth (Script.intBound bound) (intBound bound) := by
  refine (agrees_peek 0).bind fun front => ?_
  cases front with
  | none => exact agrees_throw _
  | some token => exact agrees_ite agrees_take.discard (agrees_throw _)

theorem agrees_intMaskMember : Agrees ctx depth (Script.intMaskMember ctx) (intMaskMember ctx inner) :=
  answers.basicType.bind fun _ => agrees_ite (agrees_pure ()) (agrees_throw _)

theorem agrees_intArguments (word : String) :
    Agrees ctx depth (Script.intArguments ctx word) (intArguments ctx inner word) := by
  refine (agrees_peek 0).bind fun front => agrees_ite ?_ (agrees_ite ?_ (agrees_ite ?_ (agrees_pure ())))
  · exact (agrees_expect "<").bind fun _ => (agrees_intBound "min").bind fun _ => (agrees_expect ",").bind fun _ =>
      (agrees_intBound "max").bind fun _ => agrees_expect ">"
  · have masks := agrees_sepBy (agrees_intMaskMember answers) ((takes_basicType ctx).bind_first _) (agrees_eat ",")
    exact (agrees_expect "<").bind fun _ => masks.discard.bind fun _ => agrees_expect ">"
  · exact (agrees_expect "<").bind fun _ => (agrees_intMaskMember answers).bind fun _ => agrees_expect ">"

theorem agrees_stringArguments (word : String) :
    Agrees ctx depth (Script.stringArguments ctx word) (stringArguments ctx inner word) := by
  refine (agrees_peek 0).bind fun front => agrees_ite ?_ (agrees_pure ())
  exact (agrees_expect "<").bind fun _ => answers.basicType.bind fun type =>
    agrees_demand _ fun _ => agrees_expect ">"

theorem agrees_shapeItem : Agrees ctx depth Script.shapeItem (shapeItem inner) := by
  have value := (answers.anyType false).discard
  refine (agrees_peek 0).bind fun front => (agrees_peek 1).bind fun second => (agrees_peek 2).bind fun third =>
    agrees_ite ?_ value
  exact agrees_take.discard.bind fun _ => (agrees_eat "?").discard.bind fun _ => (agrees_expect ":").bind fun _ =>
    value

theorem agrees_arrayArguments (word : String) :
    Agrees ctx depth (Script.arrayArguments ctx word) (arrayArguments ctx inner word) := by
  have takes : Takes ctx Script.shapeItem := by
    have value : Takes ctx (discard (.call (.anyType false))) := (takes_anyType ctx false).bind_first _
    refine Takes.bind_rest _ fun _ => Takes.bind_rest _ fun _ => Takes.bind_rest _ fun _ => Takes.ite ?_ value
    exact (Takes.take.bind_first _).bind_first _
  have items := agrees_sepBy (agrees_shapeItem answers) takes (agrees_eat ",")
  refine (agrees_peek 0).bind fun front => ?_
  by_cases angle : front = some "<"
  · rw [if_pos angle, angle]
    refine (agrees_expect "<").bind fun _ => (answers.anyType false).bind fun first =>
      (agrees_peek 0).bind fun second =>
      agrees_ite ?_ (agrees_expect ">")
    exact (agrees_throw _).onlyIf fun _ => agrees_demand _ fun _ => (agrees_expect ",").bind fun _ =>
      (answers.anyType false).discard.bind fun _ => agrees_expect ">"
  rw [if_neg angle]
  by_cases brace : front = some "\x7b"
  · rw [if_pos brace, brace]
    exact (agrees_throw _).onlyIf fun _ => (agrees_expect _).bind fun _ => items.discard.bind fun _ =>
      agrees_expect _
  rw [if_neg brace]
  split
  next => exact absurd rfl angle
  next => exact absurd rfl brace
  next => exact agrees_pure ()

theorem agrees_objectProperty : Agrees ctx depth Script.objectProperty (objectProperty inner) := by
  have value : Agrees ctx depth
      (discard (Script.eat "?") >>= fun _ => Script.expect ":" >>= fun _ => discard (.call (.anyType false)))
      (discard (eat "?") >>= fun _ => expect ":" >>= fun _ => discard (inner.anyType false)) :=
    (agrees_eat "?").discard.bind fun _ => (agrees_expect ":").bind fun _ => (answers.anyType false).discard
  refine (agrees_peek 0).bind fun front => agrees_ite ?_ ?_
  · exact agrees_take.discard.bind fun _ => value
  · exact (agrees_throw _).bind fun _ => value

theorem agrees_objectArguments : Agrees ctx depth Script.objectArguments (objectArguments inner) := by
  have takes : Takes ctx Script.objectProperty :=
    Takes.bind_rest _ fun _ => Takes.ite ((Takes.take.bind_first _).bind_first _) ((Takes.fail _).bind_first _)
  have items := agrees_sepBy (agrees_objectProperty answers) takes (agrees_eat ",")
  refine (agrees_peek 0).bind fun front => agrees_ite ?_ (agrees_pure ())
  exact (agrees_expect _).bind fun _ => items.discard.bind fun _ => agrees_expect _

theorem agrees_callableParameter : Agrees ctx depth Script.callableParameter (callableParameter inner) := by
  refine (answers.anyType false).discard.bind fun _ => (agrees_eat "&").discard.bind fun _ =>
    (agrees_eat "...").discard.bind fun _ => (agrees_eat "=").discard.bind fun _ => (agrees_peek 0).bind fun _ => ?_
  exact agrees_take.discard.onlyIf fun _ => (agrees_peek 0).bind fun _ =>
    agrees_ite (agrees_pure ()) (agrees_expect ",")

theorem agrees_callableArguments : Agrees ctx depth Script.callableArguments (callableArguments inner) := by
  have takes : Takes ctx Script.callableParameter := ((takes_anyType ctx false).bind_first _).bind_first _
  refine (agrees_peek 0).bind fun front => agrees_ite ?_ (agrees_pure ())
  refine (agrees_expect "(").bind fun _ => agrees_ahead (fun n => untilToken ")" _ (n + 1)) (fun m atDepth =>
    agreesAt_untilToken (agrees_callableParameter answers) takes atDepth (Nat.lt_succ_self _)) fun _ => ?_
  refine (agrees_expect ")").bind fun _ => (agrees_expect ":").bind fun _ => (agrees_peek 0).bind fun _ => ?_
  exact agrees_ite (answers.anyType false).discard (agrees_callSingleType answers).discard

theorem agrees_iterableArguments : Agrees ctx depth Script.iterableArguments (iterableArguments inner) := by
  refine (agrees_peek 0).bind fun front => agrees_ite ?_ (agrees_pure ())
  exact (agrees_expect "<").bind fun _ => (answers.anyType false).discard.bind fun _ =>
    (agrees_eat ",").bind fun _ =>
    (answers.anyType false).discard.onlyIf fun _ => agrees_expect ">"

theorem agrees_keyOrValueArguments :
    Agrees ctx depth (Script.keyOrValueArguments ctx) (keyOrValueArguments ctx inner) :=
  (agrees_expect "<").bind fun _ => (answers.anyType false).bind fun _ =>
    agrees_demand _ fun _ => agrees_expect ">"

omit answers in
theorem agrees_className : Agrees ctx depth (Script.className ctx) (className ctx) :=
  agrees_take.bind fun _ => (agrees_throw _).onlyIf fun _ => agrees_pure _

omit answers in
theorem agrees_constantReference : Agrees ctx depth Script.constantReference constantReference := by
  refine (agrees_expect "::").bind fun _ => (agrees_peek 0).bind fun front => ?_
  exact agrees_take.discard.onlyIf fun _ => (agrees_peek 0).bind fun _ =>
    agrees_ite (agrees_expect "*") (agrees_pure ())

theorem agrees_basicHead (token : String) :
    Agrees ctx depth (Script.basicHead ctx token) (basicHead ctx inner token) := by
  unfold Script.basicHead basicHead
  cases Head.ofToken ctx.scope token with
  | bool word | float | callableString | never | plain word | self | parent | static =>
    exact (agrees_keyword _).bind fun _ => agrees_pure _
  | floatLiteral | stringLiteral => exact agrees_take.discard.bind fun _ => agrees_pure _
  | int word =>
    exact (agrees_keyword _).bind fun _ => ((agrees_intArguments answers word).plain rfl).bind fun _ =>
      agrees_pure _
  | string word =>
    exact (agrees_keyword _).bind fun _ => ((agrees_stringArguments answers word).plain rfl).bind fun _ =>
      agrees_pure _
  | array word =>
    exact (agrees_keyword _).bind fun _ => ((agrees_arrayArguments answers word).plain rfl).bind fun _ =>
      agrees_pure _
  | object =>
    exact (agrees_keyword _).bind fun _ => ((agrees_objectArguments answers).plain rfl).bind fun _ => agrees_pure _
  | callable =>
    exact (agrees_keyword _).bind fun _ => ((agrees_callableArguments answers).plain rfl).bind fun _ =>
      agrees_pure _
  | closure =>
    exact agrees_take.discard.bind fun _ => ((agrees_callableArguments answers).plain rfl).bind fun _ =>
      agrees_pure _
  | iterable =>
    exact (agrees_keyword _).bind fun _ => ((agrees_iterableArguments answers).plain rfl).bind fun _ =>
      agrees_pure _
  | keyOrValue word =>
    exact (agrees_keyword _).bind fun _ => ((agrees_keyOrValueArguments answers).plain rfl).bind fun _ =>
      agrees_pure _
  | className => exact agrees_className
  | unknown => exact agrees_throw _

theorem agrees_objectSuffix (type : DocType) :
    Agrees ctx depth (Script.objectSuffix ctx type) (objectSuffix ctx inner type) := by
  have arguments := agrees_sepBy (answers.anyType false) (takes_anyType ctx false) (agrees_eat ",")
  refine (agrees_peek 0).bind fun front => ?_
  by_cases angle : front = some "<"
  · rw [if_pos angle, angle]
    refine agrees_ite ?_ (agrees_pure type)
    exact (agrees_expect "<").bind fun _ => arguments.discard.bind fun _ => (agrees_expect ">").bind fun _ =>
      agrees_pure type
  rw [if_neg angle]
  by_cases colons : front = some "::"
  · rw [if_pos colons, colons]
    exact agrees_ite (agrees_constantReference.bind fun _ => agrees_pure _) (agrees_pure type)
  rw [if_neg colons]
  split
  next => exact absurd rfl angle
  next => exact absurd rfl colons
  next => exact agrees_pure type

theorem agrees_basicType : Agrees ctx depth (Script.basicType ctx) (basicType ctx inner) := by
  refine (agrees_peek 0).bind fun front => ?_
  cases front with
  | none => exact agrees_throw _
  | some token =>
    exact (agrees_basicHead answers token).bind fun type => (agrees_objectSuffix answers type).plain rfl

end Productions

theorem agrees_nested {production : Production α} {reading : Reading α} (nests : production.nests = true)
    (room : depth < ctx.limit) (agrees : Agrees ctx (depth + 1) (production.script ctx) reading) :
    Agrees ctx depth (.call production) reading := by
  intro m atDepth
  obtain ⟨outcome, after, runs, reads⟩ := agrees m.enter (congrArg (· + 1) atDepth)
  exact ⟨outcome, after.leave, .nested nests (atDepth.symm ▸ room) runs, reads⟩

/-- With so many levels open the productions read with those that are left. -/
theorem answers_level (ctx : Context) (left : Nat) :
    ∀ depth, ctx.limit - depth = left → Answers ctx depth (level ctx left) := by
  induction left with
  | zero =>
    intro depth isLeft
    have tooDeep {α : Type} {production : Production α} (nests : production.nests = true) :
        Agrees ctx depth (.call production) (throw (.tooDeep ctx.limit)) :=
      fun m atDepth => ⟨.error (.tooDeep ctx.limit), m, .tooDeep nests (by omega), rfl⟩
    exact ⟨fun _ => tooDeep rfl, tooDeep rfl⟩
  | succ left ih =>
    intro depth isLeft
    have inner : Answers ctx (depth + 1) (level ctx left) := ih (depth + 1) (by omega)
    have room : depth < ctx.limit := by omega
    exact ⟨fun bracketed => agrees_nested rfl room (agrees_anyType inner bracketed),
      agrees_nested rfl room (agrees_basicType inner)⟩

/-- A production as a reading with so many levels left. -/
def Production.reading (ctx : Context) (left : Nat) : Production α → Reading α
  | anyType bracketed => (level ctx left).anyType bracketed
  | singleType => Grammar.singleType (level ctx left)
  | basicType => (level ctx left).basicType
  | intArguments word => Grammar.intArguments ctx (level ctx left) word
  | stringArguments word => Grammar.stringArguments ctx (level ctx left) word
  | arrayArguments word => Grammar.arrayArguments ctx (level ctx left) word
  | objectArguments => Grammar.objectArguments (level ctx left)
  | callableArguments => Grammar.callableArguments (level ctx left)
  | iterableArguments => Grammar.iterableArguments (level ctx left)
  | keyOrValueArguments => Grammar.keyOrValueArguments ctx (level ctx left)
  | objectSuffix type => Grammar.objectSuffix ctx (level ctx left) type

/-- Called with so many levels open, a production runs to the end that its reading comes to. -/
theorem agrees_call (ctx : Context) (depth : Nat) (production : Production α) :
    Agrees ctx depth (.call production) (production.reading ctx (ctx.limit - depth)) := by
  have answers := answers_level ctx _ depth rfl
  cases production with
  | anyType bracketed => exact answers.anyType bracketed
  | basicType => exact answers.basicType
  | singleType => exact agrees_callSingleType answers
  | intArguments word => exact (agrees_intArguments answers word).plain rfl
  | stringArguments word => exact (agrees_stringArguments answers word).plain rfl
  | arrayArguments word => exact (agrees_arrayArguments answers word).plain rfl
  | objectArguments => exact (agrees_objectArguments answers).plain rfl
  | callableArguments => exact (agrees_callableArguments answers).plain rfl
  | iterableArguments => exact (agrees_iterableArguments answers).plain rfl
  | keyOrValueArguments => exact (agrees_keyOrValueArguments answers).plain rfl
  | objectSuffix type => exact (agrees_objectSuffix answers type).plain rfl

/-- A production comes to this end and to no other, step by step and as a reading. -/
structure EndsWith (ctx : Context) (production : Production α) (m : Machine) (outcome : Except ParseError α)
    (after : Machine) : Prop where
  runs_iff : ∀ other last, Runs ctx (.call production) m other last ↔ other = outcome ∧ last = after
  reads : production.reading ctx (ctx.limit - m.depth) m.cursor = (·, after.cursor) <$> outcome

theorem Runs.endsWith {production : Production α} {outcome : Except ParseError α} {after : Machine}
    (runs : Runs ctx (.call production) m outcome after) : EndsWith ctx production m outcome after := by
  obtain ⟨read, last, runsRead, reads⟩ := agrees_call ctx m.depth production m rfl
  obtain ⟨rfl, rfl⟩ := runs.unique runsRead
  refine ⟨fun other last => ⟨runs.unique, ?_⟩, reads⟩
  rintro ⟨rfl, rfl⟩
  exact runs

/-- The productions of a type take a token. -/
theorem takes_call {production : Production α} (isType : production.isType = true) :
    Takes ctx (.call production) := by
  cases production with
  | anyType bracketed => exact takes_anyType ctx bracketed
  | singleType => exact takes_singleType ctx
  | basicType => exact takes_basicType ctx
  | _ => exact absurd isType (by simp [Production.isType])

/-- Every production comes to an end, wherever it starts, and so does every search for the supertypes that it asks
for. It goes on by some of the tokens ahead, by one at least where it reads a type. It leaves open the levels that
it found open, and at no time were more open than the limit allows. Unless it fails for its depth, no larger limit
changes anything. -/
theorem productions_end (ctx : Context) (named : ctx.classes.WellNamed) :
    (∀ atom result, ctx.classes.Searches (.supers atom) result ↔ result = ctx.classes.superTypes atom) ∧
      ∀ {α : Type} (production : Production α) (m : Machine), ∃ outcome after,
        EndsWith ctx production m outcome after ∧
        (∃ taken ≤ m.cursor.ahead.length, after.cursor.ahead = m.cursor.ahead.drop taken ∧
          (production.isType = true → ∀ value, outcome = .ok value → 0 < taken)) ∧
        after.depth = m.depth ∧ after.deepest ≤ max m.deepest ctx.limit ∧
        (outcome ≠ .error (.tooDeep ctx.limit) → ∀ limit ≥ ctx.limit,
          EndsWith { ctx with limit } production m outcome after) := by
  refine ⟨fun atom result => named.searches_iff, fun production m => ?_⟩
  obtain ⟨outcome, after, runs, _⟩ := agrees_call ctx m.depth production m rfl
  have onward := runs.further
  refine ⟨outcome, after, runs.endsWith, ⟨_, Nat.sub_le .., onward.ahead_eq_drop, ?_⟩, runs.depth_eq,
    runs.deepest_le.2, fun notTooDeep limit larger => (runs.of_limit_le notTooDeep larger).endsWith⟩
  rintro isType value rfl
  exact Nat.sub_pos_of_lt (takes_call isType m after value runs)

/-- A class on a cycle with an argument, in a union: all tokens are taken. -/
theorem productions_end_cycle :
    ClassTable.cyclicTable.WellNamed ∧ ∃ after,
      EndsWith ⟨.cyclicTable, .root, true, 64⟩ (.anyType false) ⟨.ofText "\\A<int>|bool".toList, 0, 0⟩
        (.ok ⟨["\\A", "bool"]⟩) after ∧
      after.cursor.ahead = [] ∧ after.depth = 0 ∧ after.deepest ≤ 64 ∧
      ∀ limit ≥ 64, EndsWith ⟨.cyclicTable, .root, true, limit⟩ (.anyType false)
        ⟨.ofText "\\A<int>|bool".toList, 0, 0⟩ (.ok ⟨["\\A", "bool"]⟩) after := by
  have named : ClassTable.cyclicTable.WellNamed := by decide
  obtain ⟨outcome, after, ends, _, depth, deepest, larger⟩ :=
    (productions_end ⟨.cyclicTable, .root, true, 64⟩ named).2 (.anyType false)
      ⟨.ofText "\\A<int>|bool".toList, 0, 0⟩
  have read : (Production.anyType false).reading ⟨.cyclicTable, .root, true, 64⟩ 64
      (.ofText "\\A<int>|bool".toList) =
      .ok (⟨["\\A", "bool"]⟩, { Cursor.ofText "\\A<int>|bool".toList with ahead := [] }) := by
    decide +kernel
  have same := ends.reads.symm.trans read
  cases outcome with
  | error error => cases same
  | ok type =>
    obtain ⟨rfl, cursor⟩ := Prod.mk.inj (Except.ok.inj same)
    exact ⟨named, after, ends, congrArg Cursor.ahead cursor, depth, deepest, larger nofun⟩

end DocTypes.Grammar
