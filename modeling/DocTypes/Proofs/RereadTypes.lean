import DocTypes.Proofs.Rereading

namespace DocTypes

/-- A `:` or a `?` is next, which goes on no type. -/
def Cursor.Quiet (c : Cursor) : Prop :=
  c.peek 0 = some ":" ∨ c.peek 0 = some "?"

theorem Cursor.Quiet.ne {c : Cursor} (quiet : c.Quiet) (mark : String)
    (other : mark ≠ ":" ∧ mark ≠ "?") : c.peek 0 ≠ some mark := by
  intro front
  rcases quiet with same | same
  · exact other.1 (Option.some.inj (front.symm.trans same))
  · exact other.2 (Option.some.inj (front.symm.trans same))

namespace Grammar

section Loops

variable {α : Type} {scope : Scope}

theorem rereads_separated {item : Reading α} {more : Reading Bool} {post : Tails}
    (ofItem : ∀ c, Rereads scope (Alike scope) item c fun _ => post)
    (ofMore : ∀ c, Rereads scope post more c fun found => if found then Alike scope else post) (n : Nat)
    (c : Cursor) : Rereads scope (Alike scope) (separated item more n) c fun _ => post := by
  induction n generalizing c with
  | zero => exact (ofItem c).bind fun _ _ _ => rereads_pure
  | succ n ih =>
    refine (ofItem c).bind fun first afterItem _ => (ofMore afterItem).bind fun found afterMore _ => ?_
    cases found with
    | true => exact (ih afterMore).bind fun _ _ _ => rereads_pure
    | false => exact rereads_pure

theorem rereads_sepBy {item : Reading α} {more : Reading Bool} {post : Tails}
    (ofItem : ∀ c, Rereads scope (Alike scope) item c fun _ => post)
    (ofMore : ∀ c, Rereads scope post more c fun found => if found then Alike scope else post) (c : Cursor) :
    Rereads scope (Alike scope) (sepBy item more) c fun _ => post :=
  rereads_get (rereads_separated ofItem ofMore _ c) fun _ alike => by rw [alike.ahead_length]

theorem rereads_untilToken {close : String} (isMark : close ∈ marks) {item : Reading Unit}
    (ofItem : ∀ c, Rereads scope (Alike scope) item c fun _ => Alike scope) (n : Nat) (c : Cursor) :
    Rereads scope (Alike scope) (untilToken close item n) c fun _ => Alike scope := by
  induction n generalizing c with
  | zero => exact rereads_pure
  | succ n ih =>
    refine rereads_ifMark isMark (fun _ alike => alike) (fun _ => rereads_pure) fun _ => ?_
    exact (ofItem c).bind fun _ after _ => ih after

/-- A separator after a type. -/
theorem rereads_separator {mark : String} (isCloser : mark ∈ closers) (c : Cursor) :
    Rereads scope (Following scope) (eat mark) c fun found => if found then Alike scope else Following scope :=
  rereads_eat (fun _ led => led.following isCloser) (fun _ _ => id)
    fun _ following => following.alike.peek mark 0 (closer_mark isCloser)

/-- A `?` behind a key. -/
theorem rereads_question (c : Cursor) : Rereads scope (Alike scope) (eat "?") c fun _ => Alike scope :=
  rereads_eat (fun _ led => (led.following (by decide)).alike) (fun _ _ => id)
    fun _ alike => alike.peek "?" 0 (by decide)

/-- An `&` that goes on an intersection does so in the right spelling, too: the token behind it is no
variable there either. -/
theorem rereads_continuesIntersection (c : Cursor) :
    Rereads scope (Following scope) continuesIntersection c
      fun found => if found then Alike scope else Following scope := by
  refine rereads_peekTwo (rereads_ite (fun goesOn => ?_) fun _ => rereads_pure) ?_
  · obtain ⟨front, notReference⟩ : c.peek 0 = some "&" ∧ marksReference (c.peek 1) = false := by simpa using goesOn
    refine rereads_eat ?_ (fun _ _ => id) fun _ following => following.alike.peek "&" 0 (by decide)
    rintro now ⟨token, more, nowMore, ahead, text, rfl, alike⟩
    rw [Cursor.peek, ahead] at notReference
    rw [ahead]
    refine ⟨.cons (Or.inl text.symm) alike, ⟨?_, by simp [text]⟩, fun _ => ?_⟩
    · intro first isFirst
      cases Option.some.inj isFirst
      exact Or.inr (by rw [text]; decide)
    · cases alike with
      | nil => simp [marksReference] at notReference
      | cons respelled _ =>
        rw [notReference, Bool.eq_false_iff]
        intro mark
        simp only [List.getElem?_cons_succ, List.getElem?_cons_zero, Option.map_some] at mark notReference
        rw [respelled.marksReference mark] at notReference
        exact absurd notReference (by decide)
  · intro now following
    have front := following.alike.peek "&" 0 (by decide)
    by_cases isAnd : c.peek 0 = some "&"
    · have reference := following.reference (by rw [List.head?_eq_getElem?]; exact front.mpr isAnd)
      simp only [front, reference]
      rfl
    · simp [front, isAnd]

theorem rereads_arraySuffix (n : Nat) (c : Cursor) :
    Rereads scope (Following scope) (arraySuffix n) c fun _ => Following scope := by
  induction n generalizing c with
  | zero => exact rereads_pure
  | succ n ih =>
    refine rereads_peekTwo (rereads_ite (fun _ => ?_) fun _ => rereads_pure) ?_
    · refine (rereads_close (by decide) fun _ _ => id).bind fun _ second _ => ?_
      refine (rereads_open (by decide) fun _ _ => Following.alike).bind fun _ third _ => ?_
      exact (ih third).discard.bind fun _ _ _ => rereads_pure
    · intro now following
      simp only [following.alike.peek "[" 0 (by decide), following.alike.peek "]" 1 (by decide)]

end Loops

/-- A `static` or `never`, under whatever name, right before a `:` or a `?`. -/
def Lone (scope : Scope) (c : Cursor) : Prop :=
  ∃ token, c.peek 0 = some token ∧ Head.ofToken scope token ∈ [Head.static, Head.never] ∧ c.advance.Quiet

/-- What the productions of one level do. The last two fields say that nothing is read behind a lone
`static` or `never`. -/
structure Level.Rereads (scope : Scope) (inner : Level) : Prop where
  anyType : ∀ bracketed c, Grammar.Rereads scope (Alike scope) (inner.anyType bracketed) c fun _ => Following scope
  basicType : ∀ c, Grammar.Rereads scope (Alike scope) inner.basicType c fun _ => Following scope
  anyTypeLone : ∀ c type after, Lone scope c → Reads (inner.anyType false) c type after → after.Quiet
  basicTypeLone : ∀ c type after, Lone scope c → Reads inner.basicType c type after → after.Quiet

/-- Whether these two tokens start a conditional. -/
def startsConditional (bracketed : Bool) (first second : Option String) : Bool :=
  bracketed && first.any Token.isVariable && decide (second = some "is")

/-- A right spelling starts no conditional: it is no variable. -/
theorem Alike.startsConditional {scope : Scope} {c : Cursor} {now : List String} (alike : Alike scope c.ahead now)
    (bracketed : Bool) (starts : Grammar.startsConditional bracketed now[0]? now[1]?) :
    Grammar.startsConditional bracketed (c.peek 0) (c.peek 1) := by
  have second := alike.peek "is" 1 (by decide)
  simp only [Grammar.startsConditional, Bool.and_eq_true, decide_eq_true_eq] at starts ⊢
  refine ⟨⟨starts.1.1, ?_⟩, second.mp starts.2⟩
  rw [Cursor.peek]
  generalize c.ahead = ahead at alike
  cases alike with
  | nil => simp at starts
  | cons respelled _ =>
    have isVariable := starts.1.2
    rcases respelled with same | spelled
    · simpa [same] using isVariable
    · exact absurd (by simpa using isVariable) (not_isVariable_of_spelling spelled)

section Lone

variable {scope : Scope} {c after : Cursor}

theorem quiet_arraySuffix {n : Nat} {found : Bool} (quiet : c.Quiet) (reads : Reads (arraySuffix n) c found after) :
    found = false ∧ after = c := by
  cases n with
  | zero => simpa [arraySuffix] using reads
  | succ n => simpa [arraySuffix, quiet.ne "[" (by decide), and_assoc] using reads

theorem quiet_separated {α : Type} {item : Reading α} {more : Reading Bool} {n : Nat} {values : List α}
    (reads : Reads (separated item more n) c values after)
    (ofItem : ∀ value between, Reads item c value between → between.Quiet)
    (stops : ∀ between found after, Cursor.Quiet between → Reads more between found after →
      found = false ∧ after = between) : after.Quiet := by
  cases n with
  | zero =>
    obtain ⟨value, between, readsItem, rest⟩ := reads_bind.mp reads
    obtain ⟨_, rfl⟩ := reads_pure.mp rest
    exact ofItem value _ readsItem
  | succ n =>
    obtain ⟨value, between, readsItem, afterItem⟩ := reads_bind.mp reads
    obtain ⟨found, later, readsMore, afterMore⟩ := reads_bind.mp afterItem
    obtain ⟨rfl, rfl⟩ := stops between found later (ofItem value between readsItem) readsMore
    obtain ⟨_, rfl⟩ := reads_pure.mp afterMore
    exact ofItem value _ readsItem

theorem quiet_sepBy {α : Type} {item : Reading α} {more : Reading Bool} {values : List α}
    (reads : Reads (sepBy item more) c values after)
    (ofItem : ∀ value between, Reads item c value between → between.Quiet)
    (stops : ∀ between found after, Cursor.Quiet between → Reads more between found after →
      found = false ∧ after = between) : after.Quiet := by
  obtain ⟨_, _, got, readsItems⟩ := reads_bind.mp reads
  obtain ⟨rfl, rfl⟩ := reads_get.mp got
  exact quiet_separated readsItems ofItem stops

/-- The token of a lone `static` or `never` is no mark. -/
theorem Lone.ne (lone : Lone scope c) (mark : String) (isMark : mark ∈ marks) :
    c.peek 0 ≠ some mark := by
  obtain ⟨token, front, isLone, _⟩ := lone
  intro same
  obtain rfl : token = mark := Option.some.inj (front.symm.trans same)
  have spelled : ∀ head ∈ [Head.static, Head.never], ∃ right, head.spelling = some right := by
    simp [Head.spelling]
  obtain ⟨right, isRight⟩ := spelled _ isLone
  exact not_mark_of_spelling isRight isMark

variable {inner : Level} (level : inner.Rereads scope)
include level

theorem lone_singleType {type : DocType} (lone : Lone scope c) (reads : Reads (singleType inner) c type after) :
    after.Quiet := by
  simp only [singleType, reads_peek_bind, lone.ne "(" (by decide), if_false] at reads
  obtain ⟨base, between, readsBase, suffixed⟩ := reads_bind.mp reads
  have quiet := level.basicTypeLone c base between lone readsBase
  rw [reads_get_bind] at suffixed
  obtain ⟨found, later, suffix, finish⟩ := reads_bind.mp suffixed
  obtain ⟨rfl, rfl⟩ := quiet_arraySuffix quiet suffix
  obtain ⟨_, rfl⟩ := reads_pure.mp finish
  exact quiet

theorem lone_anyType {ctx : Context} {type : DocType} (lone : Lone scope c)
    (reads : Reads (anyType ctx inner false) c type after) : after.Quiet := by
  simp only [anyType, reads_peek_bind, lone.ne "?" (by decide), Bool.false_and, Bool.false_eq_true,
    if_false] at reads
  obtain ⟨members, between, readsUnion, finish⟩ := reads_bind.mp reads
  obtain ⟨_, rfl⟩ := reads_pure.mp finish
  obtain ⟨parts, last, readsParts, flattened⟩ := reads_bind.mp readsUnion
  obtain ⟨_, rfl⟩ := reads_pure.mp flattened
  refine quiet_sepBy readsParts ?_ ?_
  · intro part middle readsPart
    obtain ⟨singles, later, readsSingles, lifted⟩ := reads_bind.mp readsPart
    obtain ⟨_, rfl⟩ := reads_lift.mp lifted
    refine quiet_sepBy readsSingles (fun single _ readsSingle => lone_singleType level lone readsSingle) ?_
    intro middle found last quiet readsMore
    simpa [continuesIntersection, quiet.ne "&" (by decide)] using readsMore
  · intro middle found last quiet readsMore
    simpa [quiet.ne "|" (by decide)] using readsMore

end Lone

/-- After the type of a parameter: the next token stays as it is, and an `&` before it marks a
reference. -/
structure Marked (scope : Scope) (ahead : List Token) (now : List String) : Prop where
  alike : Alike scope ahead now
  same : now.head? = ahead.head?.map Token.text
  mark : marksReference (ahead.head?.map Token.text)

section Parameters

variable {scope : Scope}

theorem Led.marked {ahead : List Token} {now : List String} {mark : String}
    (led : Led mark (Alike scope) ahead now) (isMark : mark ∈ ["...", "=", ",", ")"]) : Marked scope ahead now := by
  obtain ⟨token, more, nowMore, rfl, rfl, rfl, alike⟩ := led
  refine ⟨.cons (Or.inl rfl) alike, rfl, ?_⟩
  simp only [List.head?_cons, Option.map_some, marksReference, Bool.or_eq_true, List.contains_iff_mem]
  exact Or.inl isMark

theorem Marked.detached {ahead : List Token} {now : List String} (marked : Marked scope ahead now) :
    ∀ token ∈ ahead.head?, Detached token := by
  intro token isFirst
  have mark := marked.mark
  rw [Option.mem_def.mp isFirst] at mark
  simp only [Option.map_some, marksReference, Bool.or_eq_true, List.contains_iff_mem] at mark
  refine Or.inr ?_
  rcases mark with isMark | isVariable
  · have each : ∀ mark ∈ ["...", "=", ",", ")"], mark.toList.head? ∉ [some '-', some '\\'] := by decide
    exact each _ isMark
  · rw [Token.isVariable, beq_iff_eq] at isVariable
    rw [isVariable]
    decide

theorem rereads_reference (c : Cursor) :
    Rereads scope (Following scope) (eat "&") c fun _ => Marked scope := by
  refine rereads_eat ?_ ?_ fun _ following => following.alike.peek "&" 0 (by decide)
  · rintro now ⟨token, more, nowMore, ahead, text, rfl, marked⟩
    rw [ahead]
    refine ⟨.cons (Or.inl text.symm) marked.alike, ⟨?_, by simp [text]⟩, fun _ => ?_⟩
    · intro first isFirst
      cases Option.some.inj isFirst
      exact Or.inr (by rw [text]; decide)
    · simpa [← List.head?_eq_getElem?] using congrArg marksReference marked.same
  · intro notAnd now marked
    refine ⟨marked.alike, ⟨marked.detached, marked.same⟩, fun isAnd => ?_⟩
    rw [List.head?_eq_getElem?] at isAnd
    exact absurd ((marked.alike.peek "&" 0 (by decide)).mp isAnd) notAnd

theorem rereads_marker {mark : String} (isMark : mark ∈ ["...", "="]) (c : Cursor) :
    Rereads scope (Marked scope) (eat mark) c fun _ => Marked scope := by
  have listed : ∀ mark ∈ ["...", "="], mark ∈ ["...", "=", ",", ")"] ∧ mark ∈ marks := by decide
  refine rereads_eat ?_ (fun _ _ => id) fun _ marked => marked.alike.peek mark 0 (listed mark isMark).2
  rintro now ⟨token, more, nowMore, ahead, text, isNow, marked⟩
  exact Led.marked ⟨token, more, nowMore, ahead, text, isNow, marked.alike⟩ (listed mark isMark).1

theorem rereads_parameterEnd (c : Cursor) :
    Rereads scope (Marked scope) (do unless (← peek 0) = some ")" do expect ",") c fun _ => Alike scope := by
  refine rereads_ifMark (by decide) (fun _ => Marked.alike) (fun front => ?_) fun _ => ?_
  · refine Rereads.weaken (Alike scope) (fun now alike => ?_) rereads_pure
    have nowFront := (alike.peek ")" 0 (by decide)).mpr front
    rw [Cursor.peek_zero, Cursor.texts, List.head?_map] at front
    refine ⟨alike, by rw [List.head?_eq_getElem?, nowFront, front], ?_⟩
    rw [front]
    decide
  · exact (rereads_expectMark (by decide)).weaken _ fun _ led => led.marked (by decide)

end Parameters

/-- Whether these three tokens start an item with a key. -/
def startsKey (first second third : Option String) : Bool :=
  first.any isItemKey &&
    (decide (second = some ":") || (decide (second = some "?") && decide (third = some ":")))

/-- A right spelling looks like a key where the token did not only for a lone `static` or `never`. -/
theorem Alike.lone_of_startsKey {scope : Scope} {c : Cursor} {now : List String} (alike : Alike scope c.ahead now)
    (nowKey : startsKey now[0]? now[1]? now[2]?) (notKey : ¬ startsKey (c.peek 0) (c.peek 1) (c.peek 2)) :
    Lone scope c := by
  have colon := alike.peek ":" 1 (by decide)
  have question := alike.peek "?" 1 (by decide)
  have last := alike.peek ":" 2 (by decide)
  simp only [startsKey, colon, question, last, Bool.and_eq_true] at nowKey notKey
  obtain ⟨nowFirst, marked⟩ := nowKey
  have quiet : c.advance.Quiet := by
    have next : c.advance.peek 0 = c.peek 1 := by simp [Cursor.peek, Cursor.advance]
    rw [Cursor.Quiet, next]
    simp only [Bool.or_eq_true, Bool.and_eq_true, decide_eq_true_eq] at marked
    exact marked.imp id And.left
  generalize ahead : c.ahead = tokens at alike
  cases alike with
  | nil => simp at nowFirst
  | @cons token _ _ _ respelled _ =>
    have front : c.peek 0 = some token.text := by simp [Cursor.peek, ahead]
    have noKey : ¬ isItemKey token.text := by
      rw [front] at notKey
      exact fun key => notKey ⟨by simpa using key, marked⟩
    rcases respelled with same | spelled
    · exact absurd (by simpa [same] using nowFirst) noKey
    · have heads := isItemKey_of_spelling spelled (by simpa using nowFirst)
      exact ⟨token.text, front, heads.resolve_left noKey, quiet⟩

/-- What may follow an item of a shape. -/
structure ItemEnd (scope : Scope) (ahead : List Token) (now : List String) : Prop where
  following : Following scope ahead now
  closed : ahead.head?.map Token.text ≠ some ":" ∧ ahead.head?.map Token.text ≠ some "?"

theorem Led.itemEnd {scope : Scope} {ahead : List Token} {now : List String} {mark : String}
    (led : Led mark (Alike scope) ahead now) (isCloser : mark ∈ closers) (other : mark ≠ ":" ∧ mark ≠ "?") :
    ItemEnd scope ahead now := by
  refine ⟨led.following isCloser, ?_⟩
  obtain ⟨token, more, nowMore, rfl, rfl, _, _⟩ := led
  simpa using other

/-- The first token as it was or in its right spelling, so that it announces the same. -/
structure SameHead (scope : Scope) (token : String) (ahead : List Token) (now : List String) : Prop where
  alike : Alike scope ahead now
  head : scope.KeepsWords → ∃ first, now[0]? = some first ∧ Head.ofToken scope first = Head.ofToken scope token

section Productions

variable {ctx : Context} {inner : Level} (level : inner.Rereads ctx.scope)
include level

theorem rereads_singleType (c : Cursor) :
    Rereads ctx.scope (Alike ctx.scope) (singleType inner) c fun _ => Following ctx.scope := by
  have suffix : ∀ base c, Rereads ctx.scope (Following ctx.scope)
      (do if ← arraySuffix (← get).ahead.length then return (⟨["array"]⟩ : DocType) else return base) c
      fun _ => Following ctx.scope := by
    intro base c
    refine rereads_get ?_ fun _ following => by rw [following.alike.ahead_length]
    exact (rereads_arraySuffix _ c).bind fun found _ _ => rereads_ite (fun _ => rereads_pure) fun _ => rereads_pure
  refine rereads_ifMark (by decide) (fun _ => id) (fun _ => ?_) fun _ => ?_
  · refine (rereads_open (by decide) fun _ _ => id).bind fun _ second _ => ?_
    refine (level.anyType true second).bind fun type third _ => ?_
    refine (rereads_close (by decide) fun _ _ => Following.alike).bind fun _ fourth _ => ?_
    exact rereads_pure.bind fun base after _ => suffix base after
  · exact (level.basicType c).bind fun base after _ => suffix base after

theorem rereads_intersection (c : Cursor) :
    Rereads ctx.scope (Alike ctx.scope) (intersection ctx inner) c fun _ => Following ctx.scope :=
  (rereads_sepBy (rereads_singleType level) rereads_continuesIntersection c).bind fun _ _ _ => rereads_lift

theorem rereads_union (c : Cursor) :
    Rereads ctx.scope (Alike ctx.scope) (union ctx inner) c fun _ => Following ctx.scope :=
  (rereads_sepBy (rereads_intersection level) (rereads_separator (by decide)) c).bind fun _ _ _ => rereads_pure

theorem rereads_nullable (c : Cursor) :
    Rereads ctx.scope (Alike ctx.scope) (nullable inner) c fun _ => Following ctx.scope := by
  refine (rereads_open (by decide) fun _ _ => id).bind fun _ second _ => ?_
  exact (rereads_singleType level second).bind fun _ _ _ => rereads_pure

/-- The variable and the word `is` at the head of a conditional stay as they are. -/
theorem rereads_conditional (c : Cursor) :
    Rereads ctx.scope (Kept (Kept (Alike ctx.scope))) (conditional inner) c fun _ => Following ctx.scope := by
  refine rereads_take.discard.bind fun _ second _ => ?_
  refine (rereads_expect "is").bind fun _ third _ => ?_
  refine (level.anyType false third).discard.bind fun _ fourth _ => ?_
  refine (rereads_close (by decide) fun _ _ => id).bind fun _ fifth _ => ?_
  refine (level.anyType false fifth).bind fun yes sixth _ => ?_
  refine (rereads_close (by decide) fun _ _ => id).bind fun _ seventh _ => ?_
  exact (level.anyType false seventh).bind fun no _ _ => rereads_pure

/-- Whether a conditional starts here is decided alike: its variable and its `is` stay as they are. -/
theorem rereads_anyType (bracketed : Bool) (c : Cursor) :
    Rereads ctx.scope (Alike ctx.scope) (anyType ctx inner bracketed) c fun _ => Following ctx.scope := by
  let agrees : Tails := fun _ now => Alike ctx.scope c.ahead now ∧
    startsConditional bracketed now[0]? now[1]? = startsConditional bracketed (c.peek 0) (c.peek 1)
  have whole : Rereads ctx.scope agrees (anyType ctx inner bracketed) c fun _ => Following ctx.scope := by
    refine rereads_peekTwo (rereads_ite (fun isConditional => ?_) fun notConditional => ?_) ?_
    · refine Rereads.weaken _ ?_ ((rereads_conditional level c).bind fun _ _ _ => rereads_pure)
      rintro now ⟨first, _, _, ahead, rfl, second, _, _, rfl, rfl, alike⟩
      refine ⟨?_, by simp [Cursor.peek, ahead]⟩
      rw [ahead]
      exact .cons (Or.inl rfl) (.cons (Or.inl rfl) alike)
    · refine Rereads.weaken (Alike ctx.scope) ?_ (rereads_ite (fun _ => ?_) fun _ => ?_)
      · intro now alike
        refine ⟨alike, Bool.eq_iff_iff.mpr ⟨alike.startsConditional bracketed, fun found => ?_⟩⟩
        exact absurd found notConditional
      · exact (rereads_nullable level c).bind fun _ _ _ => rereads_pure
      · exact (rereads_union level c).bind fun _ _ _ => rereads_pure
    · rintro now ⟨alike, same⟩
      simp only [startsConditional] at same
      simp only [alike.peek "?" 0 (by decide), same]
  exact whole.mono (fun _ holds => holds.1) fun _ _ _ => id

omit level in
theorem rereads_intBound {scope : Scope} {post : Tails} (bound : String) (c : Cursor) :
    Rereads scope (Kept post) (intBound bound) c fun _ => post := by
  refine rereads_peek ?_ fun now kept => by rw [kept.peek]
  cases c.peek 0 with
  | none => exact rereads_throw
  | some token => exact rereads_ite (fun _ => rereads_take.discard) fun _ => rereads_throw

theorem rereads_intMaskMember (c : Cursor) :
    Rereads ctx.scope (Alike ctx.scope) (intMaskMember ctx inner) c fun _ => Following ctx.scope :=
  (level.basicType c).bind fun _ _ _ => rereads_ite (fun _ => rereads_pure) fun _ => rereads_throw

theorem rereads_intArguments (word : String) (c : Cursor) :
    Rereads ctx.scope (Following ctx.scope) (intArguments ctx inner word) c fun _ => Following ctx.scope := by
  have alikeOfKept : ∀ c : Cursor, ∀ now, Kept (Following ctx.scope) c.ahead now → Alike ctx.scope c.ahead now :=
    fun _ _ kept => kept.alike fun _ _ => Following.alike
  refine rereads_peek (rereads_ite (fun _ => ?_) fun _ => rereads_ite (fun _ => ?_) fun _ =>
    rereads_ite (fun _ => ?_) fun _ => rereads_pure) ?_
  · refine (rereads_close (by decide) fun _ _ => id).bind fun _ second _ => ?_
    refine ((rereads_intBound "min" second).weaken _ (alikeOfKept second)).bind fun _ third _ => ?_
    refine (rereads_close (by decide) fun _ _ => id).bind fun _ fourth _ => ?_
    refine ((rereads_intBound "max" fourth).weaken _ (alikeOfKept fourth)).bind fun _ fifth _ => ?_
    exact rereads_close (by decide) fun _ _ => Following.alike
  · refine (rereads_close (by decide) fun _ _ => id).bind fun _ second _ => ?_
    refine (rereads_sepBy (rereads_intMaskMember level) (rereads_separator (by decide)) second).discard.bind ?_
    exact fun _ _ _ => rereads_close (by decide) fun _ _ => Following.alike
  · refine (rereads_close (by decide) fun _ _ => id).bind fun _ second _ => ?_
    exact (rereads_intMaskMember level second).bind fun _ _ _ => rereads_close (by decide) fun _ _ =>
      Following.alike
  · intro now following
    simp only [following.alike.peek "<" 0 (by decide)]

theorem rereads_stringArguments (word : String) (c : Cursor) :
    Rereads ctx.scope (Following ctx.scope) (stringArguments ctx inner word) c fun _ => Following ctx.scope := by
  refine rereads_peek (rereads_ite (fun _ => ?_) fun _ => rereads_pure) ?_
  · refine (rereads_close (by decide) fun _ _ => id).bind fun _ second _ => ?_
    refine (level.basicType second).bind fun type third _ => ?_
    refine rereads_ite (fun _ => ?_) fun _ => rereads_throw_bind
    exact rereads_close (by decide) fun _ _ => Following.alike
  · intro now following
    simp only [following.alike.peek "<" 0 (by decide)]

theorem rereads_objectProperty (c : Cursor) :
    Rereads ctx.scope (Alike ctx.scope) (objectProperty inner) c fun _ => Following ctx.scope := by
  have value : ∀ c, Rereads ctx.scope (Alike ctx.scope)
      (do discard (eat "?"); expect ":"; discard (inner.anyType false)) c fun _ => Following ctx.scope := by
    intro c
    refine (rereads_question c).discard.bind fun _ second _ => ?_
    refine (rereads_open (by decide) fun _ _ => id).bind fun _ third _ => ?_
    exact (level.anyType false third).discard
  refine Rereads.weaken (Kept (Alike ctx.scope)) (fun _ kept => kept.alike fun _ _ => id) ?_
  refine rereads_peek (rereads_ite (fun _ => ?_) fun _ => rereads_throw_bind) fun now kept => by rw [kept.peek]
  exact rereads_take.discard.bind fun _ second _ => value second

theorem rereads_objectArguments (c : Cursor) :
    Rereads ctx.scope (Following ctx.scope) (objectArguments inner) c fun _ => Following ctx.scope := by
  refine rereads_ifMark (by decide) (fun _ => Following.alike) (fun _ => ?_) fun _ => rereads_pure
  refine (rereads_close (by decide) fun _ _ => id).bind fun _ second _ => ?_
  refine (rereads_sepBy (rereads_objectProperty level) (rereads_separator (by decide)) second).discard.bind ?_
  exact fun _ _ _ => rereads_close (by decide) fun _ _ => Following.alike

theorem rereads_iterableArguments (c : Cursor) :
    Rereads ctx.scope (Following ctx.scope) (iterableArguments inner) c fun _ => Following ctx.scope := by
  refine rereads_ifMark (by decide) (fun _ => Following.alike) (fun _ => ?_) fun _ => rereads_pure
  refine (rereads_close (by decide) fun _ _ => id).bind fun _ second _ => ?_
  refine (level.anyType false second).discard.bind fun _ third _ => ?_
  refine (rereads_separator (by decide) third).bind fun found fourth _ => ?_
  cases found with
  | true =>
    refine (level.anyType false fourth).discard.bind fun _ _ _ => ?_
    exact rereads_close (by decide) fun _ _ => Following.alike
  | false => exact rereads_close (by decide) fun _ _ => Following.alike

theorem rereads_keyOrValueArguments (c : Cursor) :
    Rereads ctx.scope (Following ctx.scope) (keyOrValueArguments ctx inner) c fun _ => Following ctx.scope := by
  refine (rereads_close (by decide) fun _ _ => id).bind fun _ second _ => ?_
  refine (level.anyType false second).bind fun type third _ => ?_
  refine rereads_ite (fun _ => ?_) fun _ => rereads_throw_bind
  exact rereads_close (by decide) fun _ _ => Following.alike

theorem rereads_callableParameter (c : Cursor) :
    Rereads ctx.scope (Alike ctx.scope) (callableParameter inner) c fun _ => Alike ctx.scope := by
  refine (level.anyType false c).discard.bind fun _ second _ => ?_
  refine (rereads_reference second).discard.bind fun _ third _ => ?_
  refine (rereads_marker (by decide) third).discard.bind fun _ fourth _ => ?_
  refine (rereads_marker (by decide) fourth).discard.bind fun _ fifth _ => ?_
  refine rereads_peek (rereads_ite (fun isVariable => ?_) fun _ => rereads_parameterEnd fifth) ?_
  · refine Rereads.weaken (Kept (Marked ctx.scope)) ?_ ?_
    · rintro now ⟨token, more, nowMore, ahead, rfl, marked⟩
      rw [Cursor.peek, ahead] at isVariable
      rw [ahead]
      refine ⟨.cons (Or.inl rfl) marked.alike, rfl, ?_⟩
      simpa [marksReference] using Or.inr isVariable
    · exact rereads_take.discard.bind fun _ sixth _ => rereads_parameterEnd sixth
  · intro now marked
    rw [← List.head?_eq_getElem?, marked.same, ← List.head?_map, ← Cursor.texts, ← Cursor.peek_zero]

theorem rereads_callableArguments (c : Cursor) :
    Rereads ctx.scope (Following ctx.scope) (callableArguments inner) c fun _ => Following ctx.scope := by
  refine rereads_ifMark (by decide) (fun _ => Following.alike) (fun _ => ?_) fun _ => rereads_pure
  refine (rereads_close (by decide) fun _ _ => id).bind fun _ second _ => ?_
  refine rereads_get ?_ fun _ alike => by rw [alike.ahead_length]
  refine (rereads_untilToken (by decide) (rereads_callableParameter level) _ second).bind fun _ third _ => ?_
  refine (rereads_open (by decide) fun _ _ => id).bind fun _ fourth _ => ?_
  refine (rereads_open (by decide) fun _ _ => id).bind fun _ fifth _ => ?_
  refine rereads_ifMark (by decide) (fun _ => id) (fun _ => ?_) fun _ => ?_
  · exact (level.anyType false fifth).discard
  · exact (rereads_singleType level fifth).discard

/-- A right spelling may look like a key where the token did not. Then the token was a lone `static` or
`never`, behind which no item ends. -/
theorem rereads_shapeItem (c : Cursor) :
    Rereads ctx.scope (Alike ctx.scope) (shapeItem inner) c fun _ => ItemEnd ctx.scope := by
  let agrees : Tails := fun _ now => Alike ctx.scope c.ahead now ∧
    startsKey now[0]? now[1]? now[2]? = startsKey (c.peek 0) (c.peek 1) (c.peek 2)
  have behind : ∀ now, Alike ctx.scope c.ahead now → now[0]?.any isItemKey = (c.peek 0).any isItemKey →
      agrees c.ahead now := by
    intro now alike same
    refine ⟨alike, ?_⟩
    simp only [startsKey, same, alike.peek ":" 1 (by decide), alike.peek "?" 1 (by decide),
      alike.peek ":" 2 (by decide)]
  have whole : Rereads ctx.scope agrees (shapeItem inner) c fun _ => ItemEnd ctx.scope := by
    refine rereads_peekThree (rereads_ite (fun isKey => ?_) fun notKey => ?_) ?_
    · refine Rereads.weaken (Kept (Alike ctx.scope)) ?_ ?_
      · exact fun now kept => behind now (kept.alike fun _ _ => id) (by rw [kept.peek])
      · refine rereads_take.discard.bind fun _ second _ => ?_
        refine (rereads_question second).discard.bind fun _ third _ => ?_
        refine (rereads_open (by decide) fun _ _ => id).bind fun _ fourth _ => ?_
        exact (level.anyType false fourth).discard.mono (fun _ => id) fun _ _ _ => ItemEnd.following
    · refine (level.anyType false c).discard.given ?_ fun _ _ _ => ItemEnd.following
      intro _ after reads now ends before alike
      obtain ⟨type, readsType⟩ := reads_discard.mp reads
      refine ⟨alike, Bool.eq_iff_iff.mpr ⟨fun nowKey => ?_, fun key => absurd key notKey⟩⟩
      have quiet := level.anyTypeLone c type after (alike.lone_of_startsKey nowKey notKey) readsType
      rw [Cursor.Quiet, Cursor.peek_zero, Cursor.texts, List.head?_map] at quiet
      exact (quiet.elim ends.closed.1 ends.closed.2).elim
    · rintro now ⟨_, same⟩
      change startsKey _ _ _ = startsKey _ _ _ at same
      change (if startsKey _ _ _ = true then _ else _) = if startsKey _ _ _ = true then _ else _
      rw [same]
  exact whole.weaken _ fun _ holds => holds.1

theorem rereads_shape (c : Cursor) :
    Rereads ctx.scope (Following ctx.scope)
      (do expect "\x7b"; discard (sepBy (shapeItem inner) (eat ",")); expect "\x7d") c
      fun _ => Following ctx.scope := by
  have comma : ∀ c, Rereads ctx.scope (ItemEnd ctx.scope) (eat ",") c
      fun found => if found then Alike ctx.scope else ItemEnd ctx.scope := by
    intro c
    refine rereads_eat (fun _ led => led.itemEnd (by decide) (by decide)) (fun _ _ => id) fun _ ends => ?_
    exact ends.following.alike.peek "," 0 (by decide)
  refine (rereads_close (by decide) fun _ _ => id).bind fun _ second _ => ?_
  refine (rereads_sepBy (rereads_shapeItem level) comma second).discard.bind fun _ third _ => ?_
  refine (rereads_expectMark (by decide)).weaken _ ?_
  rintro now ⟨token, more, nowMore, ahead, text, isNow, following⟩
  exact Led.itemEnd ⟨token, more, nowMore, ahead, text, isNow, following.alike⟩ (by decide) (by decide)

theorem rereads_arrayArguments (word : String) (c : Cursor) :
    Rereads ctx.scope (Following ctx.scope) (arrayArguments ctx inner word) c fun _ => Following ctx.scope := by
  refine rereads_peek ?_ fun now following => ?_
  · split
    · refine (rereads_close (by decide) fun _ _ => id).bind fun _ second _ => ?_
      refine (level.anyType false second).bind fun first third _ => ?_
      refine rereads_ifMark (by decide) (fun _ => Following.alike) (fun _ => ?_) fun _ => ?_
      · refine rereads_ite (fun _ => rereads_throw_bind) fun _ => rereads_ite (fun _ => ?_) fun _ =>
          rereads_throw_bind
        refine (rereads_close (by decide) fun _ _ => id).bind fun _ fourth _ => ?_
        refine (level.anyType false fourth).discard.bind fun _ _ _ => ?_
        exact rereads_close (by decide) fun _ _ => Following.alike
      · exact rereads_close (by decide) fun _ _ => Following.alike
    · exact rereads_ite (fun _ => rereads_throw_bind) fun _ => rereads_shape level c
    · exact rereads_pure
  · have angle := following.alike.peek "<" 0 (by decide)
    have brace := following.alike.peek "\x7b" 0 (by decide)
    grind

omit level in
theorem rereads_className {post : Tails} (c : Cursor) :
    Rereads ctx.scope (Kept post) (className ctx) c fun _ => post :=
  rereads_take.bind fun _ _ _ => rereads_ite (fun _ => rereads_throw_bind) fun _ => rereads_pure

omit level in
theorem rereads_constantReference {scope : Scope} (c : Cursor) :
    Rereads scope (Following scope) constantReference c fun _ => Following scope := by
  refine (rereads_close (by decide) fun _ _ => id).bind fun _ second _ => ?_
  refine Rereads.weaken (Kept (Following scope)) (fun _ kept => kept.alike fun _ _ => Following.alike) ?_
  refine rereads_peek (rereads_ite (fun named => ?_) fun unnamed => ?_) fun now kept => by rw [kept.peek]
  · refine rereads_take.discard.bind fun _ third _ =>
      rereads_peek (rereads_ite (fun _ => ?_) fun _ => rereads_pure) ?_
    · exact rereads_close (by decide) fun _ _ => Following.alike
    · intro now following
      simp only [following.alike.peek "*" 0 (by decide)]
  · refine rereads_peek (rereads_ite (fun _ => rereads_expect "*") fun starred => ?_)
      fun now kept => by rw [kept.peek]
    simp [unnamed] at starred

theorem rereads_objectSuffix (type : DocType) (c : Cursor) :
    Rereads ctx.scope (Following ctx.scope) (objectSuffix ctx inner type) c fun _ => Following ctx.scope := by
  refine rereads_peek ?_ fun now following => ?_
  · split
    · refine rereads_ite (fun _ => ?_) fun _ => rereads_pure
      refine (rereads_close (by decide) fun _ _ => id).bind fun _ second _ => ?_
      refine (rereads_sepBy (level.anyType false) (rereads_separator (by decide)) second).discard.bind fun _ _ _ =>
        ?_
      exact (rereads_close (by decide) fun _ _ => Following.alike).bind fun _ _ _ => rereads_pure
    · refine rereads_ite (fun _ => ?_) fun _ => rereads_pure
      exact (rereads_constantReference c).bind fun _ _ _ => rereads_pure
    · exact rereads_pure
  · have angle := following.alike.peek "<" 0 (by decide)
    have colons := following.alike.peek "::" 0 (by decide)
    grind

theorem rereads_basicHead {token : Token} {more : List Token} (c : Cursor) (ahead : c.ahead = token :: more) :
    Rereads ctx.scope (SameHead ctx.scope token.text) (basicHead ctx inner token.text) c
      fun _ => Following ctx.scope := by
  have word : ∀ {right}, (Head.ofToken ctx.scope token.text).spelling = some right →
      Rereads ctx.scope (SameHead ctx.scope token.text) (keyword right) c fun _ => Following ctx.scope := by
    intro right spelled
    refine (rereads_keyword ahead spelled).weaken _ ?_
    rintro now ⟨nowMore, rfl, alike⟩
    rw [ahead]
    exact ⟨.cons (Or.inr spelled) alike, fun keeps => ⟨right, rfl, ofToken_spelling keeps spelled⟩⟩
  have alone : ∀ {right} (type : DocType), (Head.ofToken ctx.scope token.text).spelling = some right →
      Rereads ctx.scope (SameHead ctx.scope token.text) (do keyword right; return type) c
        fun _ => Following ctx.scope :=
    fun _ spelled => (word spelled).bind fun _ _ _ => rereads_pure
  have argued : ∀ {right} {arguments : Reading Unit} (type : DocType),
      (Head.ofToken ctx.scope token.text).spelling = some right →
      (∀ c, Rereads ctx.scope (Following ctx.scope) arguments c fun _ => Following ctx.scope) →
      Rereads ctx.scope (SameHead ctx.scope token.text) (do keyword right; arguments; return type) c
        fun _ => Following ctx.scope :=
    fun _ spelled ofArguments =>
      (word spelled).bind fun _ second _ => (ofArguments second).bind fun _ _ _ => rereads_pure
  have kept : ∀ now, Kept (Following ctx.scope) c.ahead now → SameHead ctx.scope token.text c.ahead now := by
    intro now kept
    refine ⟨kept.alike fun _ _ => Following.alike, fun _ => ⟨token.text, ?_, rfl⟩⟩
    rw [kept.peek, Cursor.peek, ahead]
    rfl
  have literal : ∀ type : DocType, Rereads ctx.scope (SameHead ctx.scope token.text)
      (do discard take; return type) c fun _ => Following ctx.scope :=
    fun _ => (rereads_take.discard.weaken _ kept).bind fun _ _ _ => rereads_pure
  unfold basicHead
  cases head : Head.ofToken ctx.scope token.text with
  | bool right => exact alone _ (by rw [head, Head.spelling])
  | int right => exact argued _ (by rw [head, Head.spelling]) (rereads_intArguments level right)
  | float => exact alone _ (by rw [head, Head.spelling])
  | floatLiteral => exact literal _
  | string right => exact argued _ (by rw [head, Head.spelling]) (rereads_stringArguments level right)
  | stringLiteral => exact literal _
  | callableString => exact alone _ (by rw [head, Head.spelling])
  | array right => exact argued _ (by rw [head, Head.spelling]) (rereads_arrayArguments level right)
  | object => exact argued _ (by rw [head, Head.spelling]) (rereads_objectArguments level)
  | never => exact alone _ (by rw [head, Head.spelling])
  | plain right => exact alone _ (by rw [head, Head.spelling])
  | self => exact alone _ (by rw [head, Head.spelling])
  | parent => exact alone _ (by rw [head, Head.spelling])
  | static => exact alone _ (by rw [head, Head.spelling])
  | callable => exact argued _ (by rw [head, Head.spelling]) (rereads_callableArguments level)
  | closure =>
    refine (rereads_take.discard.weaken _ kept).bind fun _ second _ => ?_
    exact (rereads_callableArguments level second).bind fun _ _ _ => rereads_pure
  | iterable => exact argued _ (by rw [head, Head.spelling]) (rereads_iterableArguments level)
  | keyOrValue right => exact argued _ (by rw [head, Head.spelling]) (rereads_keyOrValueArguments level)
  | className => exact (rereads_className c).weaken _ kept
  | unknown => exact rereads_throw

omit level in
/-- A token is read by what it announces, unless that is nothing. -/
theorem basicHead_congr {first token : String} (same : Head.ofToken ctx.scope first = Head.ofToken ctx.scope token)
    (known : Head.ofToken ctx.scope token ≠ .unknown) : basicHead ctx inner first = basicHead ctx inner token := by
  unfold basicHead
  rw [same]
  cases head : Head.ofToken ctx.scope token with
  | unknown => exact absurd head known
  | _ => rfl

/-- What a basic type is read by, once its first token is known. -/
def basicTypeAt (ctx : Context) (inner : Level) : Option String → Reading DocType
  | none => throw .expectedType
  | some token => basicHead ctx inner token >>= objectSuffix ctx inner

theorem rereads_basicType (c : Cursor) :
    Rereads ctx.scope (Alike ctx.scope) (basicType ctx inner) c fun _ => Following ctx.scope := by
  cases ahead : c.ahead with
  | nil =>
    have front : c.peek 0 = none := by simp [Cursor.peek, ahead]
    intro value after reads
    rw [basicType, reads_peek_bind, front] at reads
    exact absurd reads reads_throw
  | cons token more =>
    have front : c.peek 0 = some token.text := by simp [Cursor.peek, ahead]
    refine Rereads.weaken (SameHead ctx.scope token.text) (fun _ => SameHead.alike) ?_
    refine rereads_look (fun c => basicTypeAt ctx inner (c.peek 0)) (fun _ => rfl) ?_ ?_
    · rw [front]
      exact (rereads_basicHead level c ahead).bind fun type second _ => rereads_objectSuffix level type second
    · rintro keeps again ⟨_, sameHead⟩ ⟨value, after, reads⟩
      obtain ⟨first, isFirst, announces⟩ := sameHead keeps
      have known : Head.ofToken ctx.scope token.text ≠ .unknown := by
        intro unknown
        simp only [front, basicTypeAt, basicHead, unknown] at reads
        obtain ⟨_, _, thrown, _⟩ := reads_bind.mp reads
        exact reads_throw thrown
      simp only [front, basicTypeAt, Cursor.peek_eq again, isFirst, basicHead_congr announces known]

omit level in
/-- Nothing is read behind a lone `static` or `never`. -/
theorem lone_basicType {c after : Cursor} {type : DocType} (lone : Lone ctx.scope c)
    (reads : Reads (basicType ctx inner) c type after) : after.Quiet := by
  obtain ⟨token, front, isLone, quiet⟩ := lone
  rw [basicType, reads_peek_bind, front] at reads
  obtain ⟨base, between, readsHead, suffix⟩ := reads_bind.mp reads
  have alone : ∀ right (type : DocType), Reads (do keyword right; return type) c base between → between.Quiet := by
    intro right type readsWord
    obtain ⟨_, _, taken, finish⟩ := reads_bind.mp readsWord
    obtain ⟨_, rfl⟩ := reads_pure.mp finish
    obtain ⟨_, rfl⟩ := reads_keyword.mp taken
    have sameAhead : (c.correct right).advance.ahead = c.advance.ahead := by
      rw [Cursor.advance, Cursor.correct_ahead, Cursor.advance]
    simpa [Cursor.Quiet, Cursor.peek, sameAhead] using quiet
  have quietBetween : between.Quiet := by
    simp only [List.mem_cons, List.not_mem_nil, or_false] at isLone
    rcases isLone with head | head
    · rw [basicHead, head] at readsHead
      exact alone _ _ readsHead
    · rw [basicHead, head] at readsHead
      exact alone _ _ readsHead
  rw [objectSuffix, reads_peek_bind] at suffix
  split at suffix
  next angle => exact absurd angle (quietBetween.ne "<" (by decide))
  next colons => exact absurd colons (quietBetween.ne "::" (by decide))
  next =>
    obtain ⟨_, rfl⟩ := reads_pure.mp suffix
    exact quietBetween

end Productions

theorem level_rereads (ctx : Context) (n : Nat) : (Grammar.level ctx n).Rereads ctx.scope := by
  induction n with
  | zero =>
    refine ⟨fun _ _ => rereads_throw, fun _ => rereads_throw, ?_, ?_⟩
    · intro c type after _ reads
      exact absurd reads reads_throw
    · intro c type after _ reads
      exact absurd reads reads_throw
  | succ n ih =>
    refine ⟨rereads_anyType ih, rereads_basicType ih, ?_, ?_⟩
    · intro c type after lone reads
      exact lone_anyType ih lone reads
    · intro c type after lone reads
      exact lone_basicType lone reads

end Grammar

end DocTypes
