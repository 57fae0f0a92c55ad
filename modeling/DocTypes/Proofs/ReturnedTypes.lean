import DocTypes.Proofs.IntersectionNormal
import DocTypes.Proofs.RereadTypes
import DocTypes.Proofs.Scanning

namespace DocTypes

/-- No name that a scope knows a class by holds an `&`. -/
def Scope.NamesAtoms (scope : Scope) : Prop :=
  ∀ name ∈ scope.ns :: (scope.imports.entries.map Prod.snd ++ scope.className.toList ++ scope.parentName.toList),
    '&' ∉ name.toList

instance (scope : Scope) : Decidable scope.NamesAtoms :=
  inferInstanceAs (Decidable (∀ name ∈ scope.ns ::
    (scope.imports.entries.map Prod.snd ++ scope.className.toList ++ scope.parentName.toList), '&' ∉ name.toList))

/-- Where one template is bound, no other is found. -/
theorem Scope.eq_of_find?_bindTemplate {name bound other found : String}
    (isFound : (Scope.bindTemplate .root name bound).templates.find? other = some found) : found = bound := by
  simp only [bindTemplate, root, NameMap.find?, NameMap.insert, NameMap.empty, List.filter_nil,
    List.lookup_cons] at isFound
  split at isFound
  · exact (Option.some.inj isFound).symm
  · exact absurd isFound (by simp)

namespace ClassTable

/-- The types that are read from texts, in scopes whose template bounds are such types. -/
inductive Returned (classes : ClassTable) : DocType → Prop
  | typedName {scope : Scope} {text : String} {extent : Extent} {wide : Bool} {type : DocType}
      (names : scope.NamesAtoms)
      (bounds : ∀ name bound, scope.templates.find? name = some bound → Returned classes (.ofText bound))
      (read : (classes.readTypedName scope text extent wide).type = some type) : Returned classes type
  | template {scope : Scope} {text : String} {type : DocType}
      (names : scope.NamesAtoms)
      (bounds : ∀ name bound, scope.templates.find? name = some bound → Returned classes (.ofText bound))
      (read : (classes.readTemplate scope text).bound = some type) : Returned classes type

/-- A member that is a single atom or an ascending intersection of objects. -/
def Simple (classes : ClassTable) (member : String) : Prop :=
  '|' ∉ member.toList ∧ (DocType.atoms member = [member] ∨
    (DocType.atoms member).Pairwise (· < ·) ∧ ∀ atom ∈ DocType.atoms member, classes.isObjectLike atom)

/-- A type with members, all of them simple. -/
def Formed (classes : ClassTable) (type : DocType) : Prop :=
  type.members ≠ [] ∧ ∀ member ∈ type.members, classes.Simple member

/-- A scope whose names stand for formed types. -/
structure Grounded (classes : ClassTable) (scope : Scope) : Prop where
  names : scope.NamesAtoms
  bounds : ∀ name bound, scope.templates.find? name = some bound → classes.Formed (.ofText bound)

/-- The normal form of a formed type. -/
def Normal (classes : ClassTable) (type : DocType) : Prop :=
  ∃ members, classes.Formed ⟨members⟩ ∧ type = ⟨classes.normalUnion members⟩

variable {classes : ClassTable}

theorem simple_of_free {member : String} (free : '|' ∉ member.toList ∧ '&' ∉ member.toList) :
    classes.Simple member :=
  ⟨free.1, Or.inl (Text.split_of_not_mem free.2)⟩

theorem formed_ofText {text : String} (free : '&' ∉ text.toList) : classes.Formed (.ofText text) := by
  refine ⟨Text.split_ne_nil _ _, fun member isMember => simple_of_free ⟨Text.not_mem_of_mem_split isMember, ?_⟩⟩
  exact fun inMember => free (Text.mem_of_mem_split isMember inMember)

theorem formed_word {word : String} (free : '|' ∉ word.toList ∧ '&' ∉ word.toList) : classes.Formed ⟨[word]⟩ := by
  refine ⟨List.cons_ne_nil _ _, fun member isMember => ?_⟩
  rw [List.mem_singleton.mp isMember]
  exact simple_of_free free

theorem Formed.append {first second : List String} (left : classes.Formed ⟨first⟩)
    (right : ∀ member ∈ second, classes.Simple member) : classes.Formed ⟨first ++ second⟩ := by
  refine ⟨List.append_ne_nil_of_left_ne_nil left.1 _, fun member isMember => ?_⟩
  exact (List.mem_append.mp isMember).elim (left.2 member) (right member)

/-- A type with one member is written without `|`. -/
theorem Formed.bar_not_mem_text {type : DocType} (formed : classes.Formed type) (single : type.isUnion = false) :
    '|' ∉ type.text.toList := by
  obtain ⟨members⟩ := type
  match members with
  | [] => exact absurd rfl formed.1
  | [member] =>
    rw [DocType.text, Text.join_singleton]
    exact (formed.2 member (List.mem_singleton_self _)).1
  | _ :: _ :: _ => simp [DocType.isUnion] at single

/-- The members of a normal form are simple again. -/
theorem Normal.formed (named : classes.WellNamed) {type : DocType} (normal : classes.Normal type) :
    classes.Formed type := by
  obtain ⟨members, ⟨some, simple⟩, rfl⟩ := normal
  refine ⟨named.normalUnion_ne_nil some, fun member isMember => ?_⟩
  rcases mem_of_mem_normalUnion isMember with given | umbrella
  · exact simple member given
  · have free : ∀ word ∈ ["array-key", "scalar", "iterable"], '|' ∉ word.toList ∧ '&' ∉ word.toList := by decide
    exact simple_of_free (free member (DocType.umbrella_of_complete umbrella))

/-- An intersection in normal form is a simple member. -/
theorem simple_normalIntersection {given kept : List String}
    (free : ∀ atom ∈ given, '|' ∉ atom.toList ∧ '&' ∉ atom.toList)
    (isNormal : classes.normalIntersection given = .ok kept) : classes.Simple (Text.join '&' kept) := by
  rcases Nat.lt_or_ge 1 given.length with several | short
  · obtain ⟨objects, rfl⟩ := (normalIntersection_eq_ok_iff several).mp isNormal
    -- In a cycle each member takes out the next, so that none may be left.
    by_cases none : classes.remaining given = []
    · rw [none]
      exact simple_of_free (by decide)
    · obtain ⟨noBar, atoms⟩ := bar_not_mem_join none fun atom stays => free atom (remaining_subset stays)
      refine ⟨noBar, Or.inr ?_⟩
      rw [atoms]
      exact ⟨remaining_pairwise classes given, fun atom stays => objects atom (remaining_subset stays)⟩
  · rw [normalIntersection_of_short short] at isNormal
    obtain rfl := Except.ok.inj isNormal
    match given, short with
    | [], _ => exact simple_of_free (by decide)
    | [atom], _ =>
      rw [Text.join_singleton]
      exact simple_of_free (free atom (List.mem_singleton_self _))

end ClassTable

namespace Grammar

open ClassTable

section Members

variable {ctx : Context}

theorem formed_intersectionMembers {singles : List DocType} {members : List String} (some : singles ≠ [])
    (formed : ∀ single ∈ singles, ctx.classes.Formed single)
    (found : intersectionMembers ctx singles = .ok members) : ctx.classes.Formed ⟨members⟩ := by
  unfold intersectionMembers at found
  split at found
  next =>
    match singles with
    | [] => exact absurd rfl some
    | [union] =>
      obtain rfl := Except.ok.inj found
      exact formed union (List.mem_singleton_self _)
    | _ :: _ :: _ => simp at found
  next noUnion =>
    cases result : ctx.classes.normalIntersection (singles.flatMap fun single => DocType.atoms single.text) with
    | error error => simp [result, bind, Except.bind] at found
    | ok kept =>
      obtain rfl : [Text.join '&' kept] = members := by
        simpa [result, bind, Except.bind, pure, Except.pure] using found
      refine ⟨List.cons_ne_nil _ _, fun member isMember => ?_⟩
      rw [List.mem_singleton.mp isMember]
      refine simple_normalIntersection (fun atom isAtom => ?_) result
      obtain ⟨single, isSingle, isPart⟩ := List.mem_flatMap.mp isAtom
      have notUnion : single.isUnion = false := by
        simpa using List.any_eq_false.mp (Bool.eq_false_iff.mpr noUnion) single isSingle
      have bar := (formed single isSingle).bar_not_mem_text notUnion
      exact ⟨fun inAtom => bar (Text.mem_of_mem_split isPart inAtom), Text.not_mem_of_mem_split isPart⟩

theorem formed_unresolved : ctx.classes.Formed (unresolved ctx) := by
  unfold unresolved
  split
  · exact formed_word (by decide)
  · exact formed_word (by decide)

end Members

/-- No class name among the tokens ahead holds an `&`. -/
def PlainNames (c : Cursor) : Prop :=
  ∀ token ∈ c.ahead, isClassName token.text → '&' ∉ token.text.toList

theorem PlainNames.of_subset {c after : Cursor} (plain : PlainNames c) (subset : after.ahead ⊆ c.ahead) :
    PlainNames after :=
  fun token isAhead => plain token (subset isAhead)

/-- What a reading leaves was there before. -/
theorem PlainNames.reads {α : Type} {scope : Scope} {pre : Tails} {reading : Reading α} {c after : Cursor}
    {value : α} {post : α → Tails} (plain : PlainNames c) (rereads : Rereads scope pre reading c post)
    (reads : Reads reading c value after) : PlainNames after := by
  obtain ⟨used, spent, _⟩ := rereads value after reads
  refine plain.of_subset fun token isAhead => ?_
  rw [spent.ahead]
  exact List.mem_append_right _ isAhead

theorem PlainNames.advance {c : Cursor} (plain : PlainNames c) : PlainNames c.advance :=
  plain.of_subset fun _ isAhead => List.mem_of_mem_tail isAhead

/-- Class names are words, which hold no marks. -/
theorem plain_of_scanFrom {mark : Char} (starts : ¬ Token.isWordStart mark)
    (continues : ∀ first, ¬ Token.continuesWord first mark) (offset : Nat) (spaced : Bool) (cs : List Char) :
    ∀ token ∈ (Token.scanFrom offset spaced cs).tokens, isClassName token.text → mark ∉ token.text.toList := by
  fun_induction Token.scanFrom offset spaced cs with
  | case1 => simp
  | case2 offset spaced c cs _ ih => exact ih
  | case3 => simp
  | case4 offset spaced c cs _ n length text stop rest ih =>
    intro token member isName
    rcases List.mem_cons.mp member with rfl | later
    · have isWord : Token.isWordStart c := by
        simp only [isClassName, Token.startsName, String.toList_ofList, text, List.head?_cons, Option.any_some,
          Bool.and_eq_true, Bool.or_eq_true, beq_iff_eq, Option.some.injEq] at isName
        simp only [Token.isWordStart, Bool.or_eq_true, beq_iff_eq]
        rcases isName.1.1 with (letter | low) | backslash
        · exact Or.inl (Or.inl (Or.inl letter))
        · exact Or.inl (Or.inl (Or.inr low))
        · exact Or.inr backslash
      rw [Token.tailLength_eq, if_pos isWord, Option.some.injEq] at length
      have tail : cs.take n = cs.takeWhile (Token.continuesWord c) := by
        rw [← length]
        exact (List.prefix_iff_eq_take.mp (List.takeWhile_prefix _)).symm
      rw [String.toList_ofList]
      intro inText
      rcases List.mem_cons.mp inText with rfl | inTail
      · exact starts isWord
      · rw [tail] at inTail
        exact continues c (List.mem_takeWhile_imp inTail)
    · exact ih token later isName

theorem plainNames_ofText (text : List Char) : PlainNames (Cursor.ofText text) :=
  plain_of_scanFrom (by decide) (by simp [Token.continuesWord]) 0 false text

theorem formed_resolveDocName {classes : ClassTable} {scope : Scope} (grounded : classes.Grounded scope)
    {name : String} (free : '&' ∉ name.toList) : classes.Formed (.ofText (scope.resolveDocName name)) := by
  unfold Scope.resolveDocName
  split
  · exact formed_ofText free
  · split
    next target imported =>
      have listed : target ∈ scope.imports.entries.map Prod.snd :=
        List.mem_map_of_mem (f := Prod.snd) (lookup_mem imported)
      exact formed_ofText (grounded.names target (by simp [listed]))
    next =>
      split
      next bound isBound => exact grounded.bounds name bound isBound
      next =>
        refine formed_ofText ?_
        have nsFree := grounded.names scope.ns (List.mem_cons_self ..)
        simp [Scope.qualify, nsFree, free]

theorem free_resolveSelf {scope : Scope} (names : scope.NamesAtoms) : '&' ∉ scope.resolveSelf.toList := by
  unfold Scope.resolveSelf
  cases inClass : scope.className with
  | none => decide
  | some name => exact names name (by simp [inClass])

theorem free_resolveParent {scope : Scope} (names : scope.NamesAtoms) : '&' ∉ scope.resolveParent.toList := by
  unfold Scope.resolveParent
  cases extending : scope.parentName with
  | none => decide
  | some name => exact names name (by simp [extending])

theorem free_resolveStatic {scope : Scope} (names : scope.NamesAtoms) : '&' ∉ scope.resolveStatic.toList := by
  unfold Scope.resolveStatic
  cases inClass : scope.className with
  | none => decide
  | some name =>
    have free := names name (by simp [inClass])
    simp [free]

/-- Keywords announce no class name, and other tokens one only if they may name a class. -/
theorem Head.isClassName_of_ofToken {scope : Scope} {token : String}
    (head : Head.ofToken scope token = .className) : isClassName token := by
  rw [Head.ofToken_eq] at head
  by_cases known : Text.lower token ∈ keywords ++ aliases
  · have table : ∀ word ∈ keywords ++ aliases, ∀ closure named, Head.ofWord closure named word ≠ .className := by
      decide +kernel
    exact absurd head (table _ known _ _)
  · rw [List.mem_append, not_or] at known
    rw [Head.ofWord_of_not_keyword known.1 known.2] at head
    by_contra notName
    repeat' split at head
    all_goals simp_all

theorem Head.keyword_of_plain {scope : Scope} {token word : String}
    (head : Head.ofToken scope token = .plain word) : word ∈ keywords := by
  rw [Head.ofToken_eq] at head
  by_cases known : Text.lower token ∈ keywords ++ aliases
  · exact (Head.ofWord_spelling _ known _ _ false word (by rw [head]; rfl)).1
  · rw [List.mem_append, not_or] at known
    rw [Head.ofWord_of_not_keyword known.1 known.2] at head
    repeat' split at head
    all_goals simp at head

section Productions

variable {ctx : Context} {inner : Level}

theorem formed_className (grounded : ctx.classes.Grounded ctx.scope)
    {c after : Cursor} {token : String} {type : DocType} (plain : PlainNames c) (front : c.peek 0 = some token)
    (isName : isClassName token) (reads : Reads (className ctx) c type after) : ctx.classes.Formed type := by
  have free : '&' ∉ token.toList := by
    match ahead : c.ahead with
    | [] => simp [Cursor.peek, ahead] at front
    | first :: _ =>
      obtain rfl : first.text = token := by simpa [Cursor.peek, ahead] using front
      exact plain first (by simp [ahead]) isName
  obtain ⟨name, middle, taken, rest⟩ := reads_bind.mp reads
  obtain ⟨isToken, _⟩ := reads_take.mp taken
  obtain rfl : name = token := Option.some.inj (isToken.symm.trans front)
  by_cases trailing : name.toList.getLast? = some '\\'
  · rw [if_pos trailing] at rest
    obtain ⟨_, _, thrown, _⟩ := reads_bind.mp rest
    exact absurd thrown reads_throw
  · rw [if_neg trailing] at rest
    rw [(reads_pure.mp rest).1]
    exact formed_resolveDocName grounded free

theorem formed_basicHead (grounded : ctx.classes.Grounded ctx.scope)
    {c after : Cursor} {token : String} {type : DocType} (plain : PlainNames c) (front : c.peek 0 = some token)
    (reads : Reads (basicHead ctx inner token) c type after) : ctx.classes.Formed type := by
  have ends : ∀ {α : Type} {reading : Reading α} {given : DocType},
      Reads (reading >>= fun _ => pure given) c type after → type = given := by
    intro α reading given readsAll
    obtain ⟨_, _, _, last⟩ := reads_bind.mp readsAll
    exact (reads_pure.mp last).1
  have endsLate : ∀ {α β : Type} {first : Reading α} {second : Reading β} {given : DocType},
      Reads (first >>= fun _ => second >>= fun _ => pure given) c type after → type = given := by
    intro α β first second given readsAll
    obtain ⟨_, _, _, later⟩ := reads_bind.mp readsAll
    obtain ⟨_, _, _, last⟩ := reads_bind.mp later
    exact (reads_pure.mp last).1
  rw [basicHead] at reads
  cases head : Head.ofToken ctx.scope token with
  | bool | float | floatLiteral | stringLiteral | callableString | never =>
    rw [head] at reads
    rw [ends reads]
    exact formed_word (by decide)
  | int | string | array | object | callable | closure | iterable =>
    rw [head] at reads
    rw [endsLate reads]
    exact formed_word (by decide)
  | plain word =>
    rw [head] at reads
    rw [ends reads]
    have letters := (keyword_chars word (Head.keyword_of_plain head)).2
    exact formed_word ⟨fun inWord => absurd (List.all_eq_true.mp letters '|' inWord) (by decide),
      fun inWord => absurd (List.all_eq_true.mp letters '&' inWord) (by decide)⟩
  | self =>
    rw [head] at reads
    rw [ends reads]
    exact formed_ofText (free_resolveSelf grounded.names)
  | parent =>
    rw [head] at reads
    rw [ends reads]
    exact formed_ofText (free_resolveParent grounded.names)
  | static =>
    rw [head] at reads
    rw [ends reads]
    exact formed_ofText (free_resolveStatic grounded.names)
  | keyOrValue =>
    rw [head] at reads
    rw [endsLate reads]
    exact formed_unresolved
  | className =>
    rw [head] at reads
    exact formed_className grounded plain front (Head.isClassName_of_ofToken head) reads
  | unknown =>
    rw [head] at reads
    exact absurd reads reads_throw

/-- What may follow an object type leaves it as it is or makes it unresolved. -/
theorem objectSuffix_cases {base type : DocType} {c after : Cursor}
    (reads : Reads (objectSuffix ctx inner base) c type after) : type = base ∨ type = unresolved ctx := by
  rw [objectSuffix, reads_peek_bind] at reads
  split at reads
  · split at reads
    · obtain ⟨_, _, _, rest⟩ := reads_bind.mp reads
      obtain ⟨_, _, _, rest⟩ := reads_bind.mp rest
      obtain ⟨_, _, _, rest⟩ := reads_bind.mp rest
      exact Or.inl (reads_pure.mp rest).1
    · exact Or.inl (reads_pure.mp reads).1
  · split at reads
    · obtain ⟨_, _, _, rest⟩ := reads_bind.mp reads
      exact Or.inr (reads_pure.mp rest).1
    · exact Or.inl (reads_pure.mp reads).1
  · exact Or.inl (reads_pure.mp reads).1

theorem formed_basicType (grounded : ctx.classes.Grounded ctx.scope)
    {c after : Cursor} {type : DocType} (plain : PlainNames c) (reads : Reads (basicType ctx inner) c type after) :
    ctx.classes.Formed type := by
  rw [basicType, reads_peek_bind] at reads
  cases front : c.peek 0 with
  | none =>
    rw [front] at reads
    exact absurd reads reads_throw
  | some token =>
    rw [front] at reads
    obtain ⟨base, middle, readsHead, suffix⟩ := reads_bind.mp reads
    rcases objectSuffix_cases suffix with rfl | rfl
    · exact formed_basicHead grounded plain front readsHead
    · exact formed_unresolved

/-- What every item of a list has, if each finds plain names ahead. -/
theorem forall_separated {α : Type} {holds : α → Prop} {item : Reading α} {more : Reading Bool}
    (ofItem : ∀ c value after, PlainNames c → Reads item c value after → holds value ∧ PlainNames after)
    (ofMore : ∀ c found after, PlainNames c → Reads more c found after → PlainNames after) {n : Nat}
    {c after : Cursor} {values : List α} (plain : PlainNames c)
    (reads : Reads (separated item more n) c values after) :
    values ≠ [] ∧ ∀ value ∈ values, holds value := by
  induction n generalizing c after values with
  | zero =>
    obtain ⟨value, middle, readsItem, last⟩ := reads_bind.mp reads
    rw [(reads_pure.mp last).1]
    simp [(ofItem c value middle plain readsItem).1]
  | succ n ih =>
    obtain ⟨value, middle, readsItem, rest⟩ := reads_bind.mp reads
    obtain ⟨found, between, readsMore, rest⟩ := reads_bind.mp rest
    obtain ⟨first, plainMiddle⟩ := ofItem c value middle plain readsItem
    cases found with
    | false =>
      rw [(reads_pure.mp rest).1]
      simp [first]
    | true =>
      obtain ⟨others, _, readsOthers, last⟩ := reads_bind.mp rest
      rw [(reads_pure.mp last).1]
      have later := (ih (ofMore middle true between plainMiddle readsMore) readsOthers).2
      exact ⟨List.cons_ne_nil _ _, List.forall_mem_cons.mpr ⟨first, later⟩⟩

/-- What the productions of one level return, wherever the names ahead are plain. -/
structure Level.Forms (ctx : Context) (inner : Level) : Prop where
  anyType : ∀ {bracketed c type after}, PlainNames c → Reads (inner.anyType bracketed) c type after →
    ctx.classes.Normal type
  basicType : ∀ {c type after}, PlainNames c → Reads inner.basicType c type after → ctx.classes.Formed type

variable (named : ctx.classes.WellNamed) (level : inner.Rereads ctx.scope) (forms : inner.Forms ctx)

include named forms

theorem formed_singleType {c after : Cursor} {type : DocType} (plain : PlainNames c)
    (reads : Reads (singleType inner) c type after) : ctx.classes.Formed type := by
  have suffix : ∀ {base middle}, ctx.classes.Formed base →
      Reads (do if ← arraySuffix (← get).ahead.length then return (⟨["array"]⟩ : DocType) else return base)
        middle type after → ctx.classes.Formed type := by
    intro base middle formed readsSuffix
    rw [reads_get_bind] at readsSuffix
    obtain ⟨found, _, _, last⟩ := reads_bind.mp readsSuffix
    cases found with
    | true =>
      rw [(reads_pure.mp last).1]
      exact formed_word (by decide)
    | false => exact (reads_pure.mp last).1 ▸ formed
  rw [singleType, reads_peek_bind] at reads
  split at reads
  · obtain ⟨_, second, opened, rest⟩ := reads_bind.mp reads
    obtain ⟨base, third, readsType, rest⟩ := reads_bind.mp rest
    obtain ⟨_, fourth, _, rest⟩ := reads_bind.mp rest
    have plainSecond : PlainNames second := (reads_expect.mp opened).2 ▸ plain.advance
    exact suffix ((forms.anyType plainSecond readsType).formed named) rest
  · obtain ⟨base, second, readsBasic, rest⟩ := reads_bind.mp reads
    exact suffix (forms.basicType plain readsBasic) rest

theorem formed_nullable {c after : Cursor} {members : List String} (plain : PlainNames c)
    (reads : Reads (nullable inner) c members after) : ctx.classes.Formed ⟨members⟩ := by
  obtain ⟨_, second, opened, rest⟩ := reads_bind.mp reads
  obtain ⟨single, third, readsSingle, last⟩ := reads_bind.mp rest
  rw [(reads_pure.mp last).1]
  have plainSecond : PlainNames second := (reads_expect.mp opened).2 ▸ plain.advance
  refine Formed.append (formed_singleType named forms plainSecond readsSingle) fun member isNull => ?_
  rw [List.mem_singleton.mp isNull]
  exact simple_of_free (by decide)

include level

theorem formed_singles {c after : Cursor} {singles : List DocType} (plain : PlainNames c)
    (reads : Reads (sepBy (singleType inner) continuesIntersection) c singles after) :
    singles ≠ [] ∧ ∀ single ∈ singles, ctx.classes.Formed single := by
  have ofSingle : ∀ c single after, PlainNames c → Reads (singleType inner) c single after →
      ctx.classes.Formed single ∧ PlainNames after :=
    fun c single after plain reads =>
      ⟨formed_singleType named forms plain reads, plain.reads (rereads_singleType level c) reads⟩
  have ofMore : ∀ c found after, PlainNames c → Reads continuesIntersection c found after → PlainNames after :=
    fun c found after plain reads =>
      plain.reads (rereads_continuesIntersection c : Rereads ctx.scope _ _ _ _) reads
  rw [sepBy, reads_get_bind] at reads
  exact forall_separated ofSingle ofMore plain reads

theorem formed_intersection {c after : Cursor} {members : List String} (plain : PlainNames c)
    (reads : Reads (intersection ctx inner) c members after) : ctx.classes.Formed ⟨members⟩ := by
  obtain ⟨singles, middle, readsSingles, result⟩ := reads_bind.mp reads
  obtain ⟨some, formed⟩ := formed_singles named level forms plain readsSingles
  exact formed_intersectionMembers some formed (reads_lift.mp result).1

theorem formed_union {c after : Cursor} {members : List String} (plain : PlainNames c)
    (reads : Reads (union ctx inner) c members after) : ctx.classes.Formed ⟨members⟩ := by
  have ofGroup : ∀ c group after, PlainNames c → Reads (intersection ctx inner) c group after →
      ctx.classes.Formed ⟨group⟩ ∧ PlainNames after :=
    fun c group after plain reads =>
      ⟨formed_intersection named level forms plain reads, plain.reads (rereads_intersection level c) reads⟩
  have ofMore : ∀ c found after, PlainNames c → Reads (eat "|") c found after → PlainNames after :=
    fun c found after plain reads =>
      plain.reads (rereads_separator (by decide) c : Rereads ctx.scope _ _ _ _) reads
  obtain ⟨groups, middle, readsGroups, last⟩ := reads_bind.mp reads
  rw [sepBy, reads_get_bind] at readsGroups
  obtain ⟨some, formed⟩ := forall_separated ofGroup ofMore plain readsGroups
  rw [(reads_pure.mp last).1]
  refine ⟨?_, fun member isMember => ?_⟩
  · obtain ⟨group, isGroup⟩ := List.exists_mem_of_ne_nil groups some
    obtain ⟨member, isMember⟩ := List.exists_mem_of_ne_nil group (formed group isGroup).1
    exact List.ne_nil_of_mem (List.mem_flatten.mpr ⟨group, isGroup, isMember⟩)
  · obtain ⟨group, isGroup, inGroup⟩ := List.mem_flatten.mp isMember
    exact (formed group isGroup).2 member inGroup

theorem formed_conditional {c after : Cursor} {members : List String} (plain : PlainNames c)
    (reads : Reads (conditional inner) c members after) : ctx.classes.Formed ⟨members⟩ := by
  obtain ⟨_, behindSubject, subject, rest⟩ := reads_bind.mp reads
  obtain ⟨_, behindIs, is, rest⟩ := reads_bind.mp rest
  obtain ⟨_, behindCondition, condition, rest⟩ := reads_bind.mp rest
  obtain ⟨_, beforeYes, question, rest⟩ := reads_bind.mp rest
  obtain ⟨yes, behindYes, readsYes, rest⟩ := reads_bind.mp rest
  obtain ⟨_, beforeNo, colon, rest⟩ := reads_bind.mp rest
  obtain ⟨no, behindNo, readsNo, last⟩ := reads_bind.mp rest
  obtain ⟨_, taken⟩ := reads_discard.mp subject
  obtain ⟨_, readsCondition⟩ := reads_discard.mp condition
  have plainSubject : PlainNames behindSubject := (reads_take.mp taken).2 ▸ plain.advance
  have plainIs : PlainNames behindIs := (reads_expect.mp is).2 ▸ plainSubject.advance
  have plainCondition := plainIs.reads (level.anyType false behindIs) readsCondition
  have plainYes : PlainNames beforeYes := (reads_expect.mp question).2 ▸ plainCondition.advance
  have plainColon := plainYes.reads (level.anyType false beforeYes) readsYes
  have plainNo : PlainNames beforeNo := (reads_expect.mp colon).2 ▸ plainColon.advance
  rw [(reads_pure.mp last).1]
  exact Formed.append ((forms.anyType plainYes readsYes).formed named)
    ((forms.anyType plainNo readsNo).formed named).2

theorem normal_anyType {bracketed : Bool} {c after : Cursor} {type : DocType} (plain : PlainNames c)
    (reads : Reads (anyType ctx inner bracketed) c type after) : ctx.classes.Normal type := by
  have ends : ∀ {reading : Reading (List String)},
      (∀ {members middle}, Reads reading c members middle → ctx.classes.Formed ⟨members⟩) →
      Reads (do let members ← reading; return (⟨ctx.classes.normalUnion members⟩ : DocType)) c type after →
      ctx.classes.Normal type := by
    intro reading formed readsAll
    obtain ⟨members, _, readsMembers, last⟩ := reads_bind.mp readsAll
    exact ⟨members, formed readsMembers, (reads_pure.mp last).1⟩
  rw [anyType, reads_peek_bind, reads_peek_bind] at reads
  split at reads
  · exact ends (formed_conditional named level forms plain) reads
  · split at reads
    · exact ends (formed_nullable named forms plain) reads
    · exact ends (formed_union named level forms plain) reads

end Productions

theorem level_forms {ctx : Context} (named : ctx.classes.WellNamed) (grounded : ctx.classes.Grounded ctx.scope)
    (n : Nat) : (Grammar.level ctx n).Forms ctx := by
  induction n with
  | zero => exact ⟨fun _ reads => absurd reads reads_throw, fun _ reads => absurd reads reads_throw⟩
  | succ n ih =>
    exact ⟨fun plain reads => normal_anyType named (level_rereads ctx n) ih plain reads,
      fun plain reads => formed_basicType grounded plain reads⟩

/-- A type that ends its field is in normal form. -/
theorem normal_delimitedType {ctx : Context} (named : ctx.classes.WellNamed)
    (grounded : ctx.classes.Grounded ctx.scope) {c after : Cursor} {type : DocType} (plain : PlainNames c)
    (reads : Reads (delimitedType ctx) c type after) : ctx.classes.Normal type :=
  (level_forms named grounded ctx.limit).anyType plain (reads_delimitedType.mp reads).1

end Grammar

namespace ClassTable

open Grammar

theorem normal_mixed {classes : ClassTable} : classes.Normal .mixed :=
  ⟨["mixed"], formed_word (by decide), rfl⟩

theorem Normal.withNull {classes : ClassTable} (named : classes.WellNamed) {type : DocType}
    (normal : classes.Normal type) : classes.Normal (classes.withNull type) := by
  unfold ClassTable.withNull
  split
  · exact normal
  · refine ⟨_, (normal.formed named).append fun member isNull => ?_, rfl⟩
    rw [List.mem_singleton.mp isNull]
    exact simple_of_free (by decide)

/-- Whether behind a type stands a parameter whose default is `null`. -/
def impliesNull (extent : Extent) (afterType : Cursor) : Bool :=
  let beforeName := ((afterType.eat "&").2.eat "...").2
  let (name, afterName, _) := attempt .name (variableName extent) beforeName
  extent == .withDefault && name.isSome && nullDefault afterName

theorem readTypedName_of_reads {classes : ClassTable} {scope : Scope} {text : String} {extent : Extent}
    {wide : Bool} {found : DocType} {after : Cursor}
    (reads : Reads (delimitedType { classes, scope, wide }) (Cursor.ofText text.toList) found after) :
    (classes.readTypedName scope text extent wide).type =
      some (if impliesNull extent after then classes.withNull found else found) := by
  simp only [readTypedName, attempt_of_reads .type reads]
  cases extent with
  | withDefault =>
    change (if impliesNull .withDefault after then (some found).map classes.withNull else some found) = _
    cases impliesNull .withDefault after <;> rfl
  | _ => rfl

/-- What a typed name gives is a type that was read, with or without `null`. -/
theorem readTypedName_type {classes : ClassTable} {scope : Scope} {text : String} {extent : Extent} {wide : Bool}
    {type : DocType} (read : (classes.readTypedName scope text extent wide).type = some type) :
    ∃ found after, Reads (delimitedType { classes, scope, wide }) (Cursor.ofText text.toList) found after ∧
      type = if impliesNull extent after then classes.withNull found else found := by
  cases result : delimitedType { classes, scope, wide } (Cursor.ofText text.toList) with
  | error error =>
    simp only [readTypedName, attempt_of_error .type result] at read
    exact absurd read (by simp)
  | ok step =>
    have reads : Reads (delimitedType { classes, scope, wide }) (Cursor.ofText text.toList) step.1 step.2 := result
    rw [readTypedName_of_reads reads] at read
    exact ⟨step.1, step.2, reads, (Option.some.inj read).symm⟩

/-- A bound is `mixed` or a type that was read behind the name. -/
theorem readTemplate_bound {classes : ClassTable} {scope : Scope} {text : String} {type : DocType}
    (read : (classes.readTemplate scope text).bound = some type) :
    type = .mixed ∨ ∃ n after,
      Reads (delimitedType { classes, scope, wide := false }) ((Cursor.ofText text.toList).skip n) type after := by
  have skips : ∃ n, (attempt .templateName templateName (Cursor.ofText text.toList)).2.1 =
      (Cursor.ofText text.toList).skip n := by
    rw [templateName_eq, attempt_fieldName]
    split
    · split
      · exact ⟨1, (Cursor.skip_one _).symm⟩
      · exact ⟨0, rfl⟩
    · exact ⟨0, rfl⟩
  obtain ⟨n, skipped⟩ := skips
  rcases named : attempt .templateName templateName (Cursor.ofText text.toList) with ⟨name, afterName, failures⟩
  rw [named] at skipped
  subst skipped
  simp only [readTemplate, named] at read
  split at read
  · refine Or.inr ⟨n + 1, ?_⟩
    rw [← Cursor.skip_skip, Cursor.skip_one]
    cases result : delimitedType { classes, scope, wide := false } ((Cursor.ofText text.toList).skip n).advance with
    | error error =>
      rw [attempt_of_error .templateBound result] at read
      simp at read
    | ok step =>
      rw [attempt_of_reads .templateBound (show Reads _ _ _ _ from result)] at read
      obtain rfl : step.1 = type := Option.some.inj read
      exact ⟨step.2, result⟩
  · exact Or.inl (Option.some.inj read).symm

/-- Every type that is read is in normal form. -/
theorem Returned.normal {classes : ClassTable} (named : classes.WellNamed) {type : DocType}
    (returned : classes.Returned type) : classes.Normal type := by
  induction returned with
  | @typedName scope text extent wide type names _ read ih =>
    have grounded : classes.Grounded scope :=
      ⟨names, fun name bound isBound => (ih name bound isBound).formed named⟩
    obtain ⟨found, after, reads, rfl⟩ := readTypedName_type read
    have normal := normal_delimitedType named grounded (plainNames_ofText _) reads
    split
    · exact normal.withNull named
    · exact normal
  | @template scope text type names _ read ih =>
    have grounded : classes.Grounded scope :=
      ⟨names, fun name bound isBound => (ih name bound isBound).formed named⟩
    rcases readTemplate_bound read with rfl | ⟨n, after, reads⟩
    · exact normal_mixed
    · refine normal_delimitedType named grounded (.of_subset (plainNames_ofText text.toList) ?_) reads
      exact fun token isAhead => List.mem_of_mem_drop isAhead

/-- An intersection of two classes, or a number. -/
theorem returned_intersection_int : cyclicTable.Returned (.ofText "\\Bar&\\Foo|int") := by
  have read : (cyclicTable.readTypedName .root "int|\\Foo&\\Bar" .typeOnly false).type =
      some (.ofText "\\Bar&\\Foo|int") := by decide +kernel
  refine .typedName (by decide) (fun name bound isBound => ?_) read
  simp [Scope.root, NameMap.find?, NameMap.empty] at isBound

end ClassTable

end DocTypes
