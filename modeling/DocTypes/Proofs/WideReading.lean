import DocTypes.Proofs.ReturnedTypes

namespace DocTypes

/-- Only several atoms that are not all objects have no intersection. -/
theorem ClassTable.exists_normalIntersection_iff {classes : ClassTable} {atoms : List String} :
    (∃ kept, classes.normalIntersection atoms = .ok kept) ↔
      atoms.length ≤ 1 ∨ ∀ atom ∈ atoms, classes.isObjectLike atom := by
  rcases Nat.lt_or_ge 1 atoms.length with several | short
  · simp only [normalIntersection_eq_ok_iff several, exists_and_left, exists_eq, and_true, Nat.not_le.mpr several,
      false_or]
  · exact ⟨fun _ => Or.inl short, fun _ => ⟨atoms, normalIntersection_of_short short⟩⟩

namespace Grammar

open ClassTable

/-- From a cursor, the narrow reading takes the tokens of the wide one to a related value. It may fail where
names are not plain or not grounded. -/
def Follows {α β : Type} (grounded : Prop) (related : α → β → Prop) (wide : Reading α) (narrow : Reading β)
    (c : Cursor) : Prop :=
  ∀ value after, Reads wide c value after →
    (∃ found, Reads narrow c found after ∧ related value found ∧ (PlainNames c → PlainNames after)) ∨
      ¬ (grounded ∧ PlainNames c) ∧ ∀ found last, ¬ Reads narrow c found last

section Rules

variable {α β α' β' : Type} {grounded : Prop} {related : α → β → Prop} {c : Cursor}

theorem follows_pure {value : α} {found : β} (holds : related value found) :
    Follows grounded related (pure value) (pure found) c := by
  intro given after reads
  obtain ⟨rfl, rfl⟩ := reads_pure.mp reads
  exact Or.inl ⟨found, reads_pure.mpr ⟨rfl, rfl⟩, holds, id⟩

theorem follows_throw {error : ParseError} {narrow : Reading β} :
    Follows grounded related (throw error) narrow c := by
  intro value after reads
  exact absurd reads reads_throw

theorem follows_throw_bind {error : ParseError} {next : α' → Reading α} {narrow : Reading β} :
    Follows grounded related (throw error >>= next) narrow c := by
  intro value after reads
  obtain ⟨_, _, thrown, _⟩ := reads_bind.mp reads
  exact absurd thrown reads_throw

/-- A reading that depends on the tokens alone. -/
theorem follows_same {reading : Reading α}
    (keeps : PlainNames c → ∀ value after, Reads reading c value after → PlainNames after) :
    Follows grounded Eq reading reading c :=
  fun value after reads => Or.inl ⟨value, reads, rfl, fun plain => keeps plain value after reads⟩

theorem Follows.bind {wide : Reading α} {narrow : Reading β} {wideNext : α → Reading α'}
    {narrowNext : β → Reading β'} {later : α' → β' → Prop} (first : Follows grounded related wide narrow c)
    (second : ∀ value found between, related value found →
      Follows grounded later (wideNext value) (narrowNext found) between) :
    Follows grounded later (wide >>= wideNext) (narrow >>= narrowNext) c := by
  intro value after reads
  obtain ⟨start, between, readsFirst, readsSecond⟩ := reads_bind.mp reads
  rcases first start between readsFirst with ⟨found, narrowFirst, holds, plain⟩ | ⟨unsound, fails⟩
  · rcases second start found between holds value after readsSecond with
      ⟨last, narrowSecond, holdsLater, plainLater⟩ | ⟨unsound, fails⟩
    · exact Or.inl ⟨last, reads_bind.mpr ⟨found, between, narrowFirst, narrowSecond⟩, holdsLater,
        plainLater ∘ plain⟩
    · refine Or.inr ⟨fun sound => unsound ⟨sound.1, plain sound.2⟩, fun last _ narrowReads => ?_⟩
      obtain ⟨again, _, narrowAgain, narrowSecond⟩ := reads_bind.mp narrowReads
      obtain ⟨rfl, rfl⟩ := Prod.mk.inj (Except.ok.inj (narrowAgain.symm.trans narrowFirst))
      exact fails last _ narrowSecond
  · refine Or.inr ⟨unsound, fun last _ narrowReads => ?_⟩
    obtain ⟨again, between, narrowAgain, _⟩ := reads_bind.mp narrowReads
    exact fails again between narrowAgain

theorem Follows.discard {wide : Reading α} {narrow : Reading β} (follows : Follows grounded related wide narrow c) :
    Follows grounded Eq (discard wide) (discard narrow) c := by
  change Follows grounded Eq (wide >>= fun _ => Pure.pure ()) (narrow >>= fun _ => Pure.pure ()) c
  exact follows.bind fun _ _ _ _ => follows_pure rfl

theorem follows_ite {found : Prop} [Decidable found] {wideYes wideNo : Reading α} {narrowYes narrowNo : Reading β}
    (ifYes : found → Follows grounded related wideYes narrowYes c)
    (ifNo : ¬ found → Follows grounded related wideNo narrowNo c) :
    Follows grounded related (if found then wideYes else wideNo) (if found then narrowYes else narrowNo) c := by
  by_cases holds : found
  · rw [if_pos holds, if_pos holds]
    exact ifYes holds
  · rw [if_neg holds, if_neg holds]
    exact ifNo holds

theorem follows_peek {n : Nat} {wide : Option String → Reading α} {narrow : Option String → Reading β}
    (follows : Follows grounded related (wide (c.peek n)) (narrow (c.peek n)) c) :
    Follows grounded related (peek n >>= wide) (peek n >>= narrow) c :=
  follows

theorem follows_get {wide : Cursor → Reading α} {narrow : Cursor → Reading β}
    (follows : Follows grounded related (wide c) (narrow c) c) :
    Follows grounded related (get >>= wide) (get >>= narrow) c :=
  follows

theorem follows_take : Follows grounded Eq take take c :=
  follows_same fun plain _ _ reads => (reads_take.mp reads).2 ▸ plain.advance

theorem follows_expect (wanted : String) : Follows grounded Eq (expect wanted) (expect wanted) c :=
  follows_same fun plain _ _ reads => (reads_expect.mp reads).2 ▸ plain.advance

theorem follows_eat (text : String) : Follows grounded Eq (eat text) (eat text) c := by
  refine follows_same fun plain _ after reads => ?_
  rw [(reads_eat.mp reads).2]
  split
  · exact plain.advance
  · exact plain

theorem follows_keyword (canonical : String) : Follows grounded Eq (keyword canonical) (keyword canonical) c := by
  refine follows_same fun plain _ after reads => ?_
  rw [(reads_keyword.mp reads).2]
  refine plain.of_subset fun token isAhead => ?_
  rw [Cursor.advance, Cursor.correct_ahead] at isAhead
  exact List.mem_of_mem_tail isAhead

theorem follows_separated {wide : Reading α} {narrow : Reading β} {more : Reading Bool}
    (ofItem : ∀ c, Follows grounded related wide narrow c) (ofMore : ∀ c, Follows grounded Eq more more c) (n : Nat)
    (c : Cursor) :
    Follows grounded (List.Forall₂ related) (separated wide more n) (separated narrow more n) c := by
  induction n generalizing c with
  | zero => exact (ofItem c).bind fun _ _ _ holds => follows_pure (.cons holds .nil)
  | succ n ih =>
    refine (ofItem c).bind fun value found between holds => (ofMore between).bind ?_
    rintro goesOn _ afterMore rfl
    cases goesOn with
    | true => exact (ih afterMore).bind fun _ _ _ others => follows_pure (.cons holds others)
    | false => exact follows_pure (.cons holds .nil)

theorem follows_sepBy {wide : Reading α} {narrow : Reading β} {more : Reading Bool}
    (ofItem : ∀ c, Follows grounded related wide narrow c) (ofMore : ∀ c, Follows grounded Eq more more c)
    (c : Cursor) : Follows grounded (List.Forall₂ related) (sepBy wide more) (sepBy narrow more) c :=
  follows_get (follows_separated ofItem ofMore _ c)

theorem follows_untilToken {close : String} {wide narrow : Reading Unit}
    (ofItem : ∀ c, Follows grounded Eq wide narrow c) (n : Nat) (c : Cursor) :
    Follows grounded Eq (untilToken close wide n) (untilToken close narrow n) c := by
  induction n generalizing c with
  | zero => exact follows_pure rfl
  | succ n ih =>
    refine follows_peek (follows_ite (fun _ => follows_pure rfl) fun _ => ?_)
    exact (ofItem c).bind fun _ _ after _ => ih after

end Rules

/-- The wide reading finds `mixed`, or what the narrow one finds. -/
def Wider (wide narrow : DocType) : Prop :=
  wide = .mixed ∨ wide = narrow

/-- A fragment that both readings find, or that neither resolves. -/
def Unsettled (wide narrow : DocType) : Prop :=
  wide = narrow ∨ wide = .mixed ∧ narrow = .never

/-- The same of the members of a union that is not yet in normal form. -/
def WiderMembers (wide narrow : List String) : Prop :=
  "mixed" ∈ wide ∨ wide = narrow

theorem WiderMembers.append {wide narrow wide' narrow' : List String} (first : WiderMembers wide narrow)
    (second : WiderMembers wide' narrow') : WiderMembers (wide ++ wide') (narrow ++ narrow') := by
  rcases first with mixed | rfl
  · exact Or.inl (List.mem_append_left _ mixed)
  · rcases second with mixed | rfl
    · exact Or.inl (List.mem_append_right _ mixed)
    · exact Or.inr rfl

theorem Wider.members {wide narrow : DocType} (wider : Wider wide narrow) :
    WiderMembers wide.members narrow.members := by
  rcases wider with rfl | rfl
  · exact Or.inl (List.mem_singleton_self _)
  · exact Or.inr rfl

theorem WiderMembers.normalUnion {wide narrow : List String} (wider : WiderMembers wide narrow)
    (classes : ClassTable) : Wider ⟨classes.normalUnion wide⟩ ⟨classes.normalUnion narrow⟩ := by
  rcases wider with mixed | rfl
  · exact Or.inl (by rw [normalUnion_of_mixed mixed]; rfl)
  · exact Or.inr rfl

theorem widerMembers_flatten {wide narrow : List (List String)} (wider : List.Forall₂ WiderMembers wide narrow) :
    WiderMembers wide.flatten narrow.flatten := by
  induction wider with
  | nil => exact Or.inr rfl
  | cons first _ ih => exact first.append ih

theorem mixed_mem_or_eq {wide narrow : List DocType} (wider : List.Forall₂ Wider wide narrow) :
    .mixed ∈ wide ∨ wide = narrow := by
  induction wider with
  | nil => exact Or.inr rfl
  | cons first _ ih =>
    rcases first with rfl | rfl
    · exact Or.inl (List.mem_cons_self ..)
    · rcases ih with mixed | rfl
      · exact Or.inl (List.mem_cons_of_mem _ mixed)
      · exact Or.inr rfl

/-- None of the types that a fragment is checked against takes `mixed`. -/
theorem not_accepts_mixed (classes : ClassTable) {word : String}
    (isWord : word ∈ ["int", "object", "array-key", "iterable"]) : ¬ classes.accepts ⟨[word]⟩ .mixed := by
  intro accepted
  have noSupers : classes.superTypes "mixed" = [] := superTypes_unknown classes (by decide)
  have table : ∀ word ∈ ["int", "object", "array-key", "iterable"],
      DocType.atoms word = [word] ∧ word ≠ "mixed" ∧ (⟨[word]⟩ : DocType) ≠ .mixed := by decide
  obtain ⟨single, other, notMixed⟩ := table word isWord
  rcases accepts_iff.mp accepted with same | never | each
  · exact notMixed same
  · exact absurd never (by decide)
  · obtain ⟨taken, isTaken, takes⟩ := each "mixed" (List.mem_singleton_self _)
    rw [List.mem_singleton.mp isTaken] at takes
    have reached := memberAccepts_iff.mp takes word (by rw [single]; exact List.mem_singleton_self _)
    obtain ⟨atom, isAtom, same | isSuper⟩ := mem_reach.mp reached
    · rw [show DocType.atoms "mixed" = ["mixed"] by decide, List.mem_singleton] at isAtom
      exact other (same.trans isAtom)
    · rw [show DocType.atoms "mixed" = ["mixed"] by decide, List.mem_singleton] at isAtom
      rw [isAtom, noSupers] at isSuper
      exact List.not_mem_nil isSuper

section Intersections

variable {ctx : Context}

/-- Each single type brings atoms of its own. -/
theorem length_le_length_atoms (singles : List DocType) :
    singles.length ≤ (singles.flatMap fun single => DocType.atoms single.text).length := by
  induction singles with
  | nil => exact Nat.zero_le _
  | cons single singles ih =>
    have some := List.length_pos_of_ne_nil (DocType.atoms_ne_nil single.text)
    rw [List.flatMap_cons, List.length_append, List.length_cons]
    omega

/-- `mixed` takes part in no intersection. -/
theorem eq_of_mixed_mem {singles : List DocType} {members : List String} (mixed : .mixed ∈ singles)
    (found : intersectionMembers ctx singles = .ok members) : singles = [.mixed] := by
  have short : singles.length ≤ 1 → singles = [.mixed] := by
    intro short
    obtain ⟨single, rfl⟩ := List.length_eq_one_iff.mp (Nat.le_antisymm short (List.length_pos_of_mem mixed))
    rw [List.mem_singleton.mp mixed]
  unfold intersectionMembers at found
  split at found
  next =>
    match singles with
    | [] => simp at mixed
    | [_] => exact short (Nat.le_refl 1)
    | _ :: _ :: _ => simp at found
  next =>
    cases result : ctx.classes.normalIntersection (singles.flatMap fun single => DocType.atoms single.text) with
    | error error => simp [result, bind, Except.bind] at found
    | ok kept =>
      rcases exists_normalIntersection_iff.mp ⟨kept, result⟩ with few | objects
      · exact short (Nat.le_trans (length_le_length_atoms singles) few)
      · have isAtom : "mixed" ∈ singles.flatMap fun single => DocType.atoms single.text :=
          List.mem_flatMap.mpr ⟨.mixed, mixed, by decide⟩
        exact absurd (objects "mixed" isAtom) (not_isObjectLike_of_unknown (by decide) (by decide))

/-- A formed type is an intersection on its own. -/
theorem exists_intersectionMembers {type : DocType} (formed : ctx.classes.Formed type) :
    ∃ members, intersectionMembers ctx [type] = .ok members := by
  unfold intersectionMembers
  split
  next => exact ⟨_, rfl⟩
  next notUnion =>
    obtain ⟨members⟩ := type
    match members with
    | [] => exact absurd rfl formed.1
    | [member] =>
      have allowed : (DocType.atoms member).length ≤ 1 ∨
          ∀ atom ∈ DocType.atoms member, ctx.classes.isObjectLike atom := by
        rcases (formed.2 member (List.mem_singleton_self _)).2 with single | ⟨_, objects⟩
        · exact Or.inl (by rw [single]; exact Nat.le_refl 1)
        · exact Or.inr objects
      obtain ⟨kept, result⟩ := exists_normalIntersection_iff.mpr allowed
      exact ⟨[Text.join '&' kept], by simp [DocType.text, result, bind, Except.bind, pure, Except.pure]⟩
    | _ :: _ :: _ => simp [DocType.isUnion] at notUnion

/-- Where the wide reading finds an intersection, the narrow one does, unless a type that is not formed is
`mixed` in the wide one. -/
theorem follows_intersectionMembers {wide narrow : List DocType} {members : List String}
    (wider : List.Forall₂ Wider wide narrow) (found : intersectionMembers ctx wide = .ok members) :
    (∃ others, intersectionMembers ctx narrow = .ok others ∧ WiderMembers members others) ∨
      ¬ (∀ single ∈ narrow, ctx.classes.Formed single) ∧ ∀ others, intersectionMembers ctx narrow ≠ .ok others := by
  rcases mixed_mem_or_eq wider with mixed | rfl
  · obtain rfl := eq_of_mixed_mem mixed found
    obtain rfl : ["mixed"] = members := Except.ok.inj found
    match wider with
    | .cons (b := single) _ .nil =>
      cases result : intersectionMembers ctx [single] with
      | ok others => exact Or.inl ⟨others, rfl, Or.inl (List.mem_singleton_self _)⟩
      | error error =>
        refine Or.inr ⟨fun formed => ?_, fun others => by simp⟩
        obtain ⟨others, isOk⟩ := exists_intersectionMembers (formed single (List.mem_singleton_self _))
        rw [result] at isOk
        exact absurd isOk (by simp)
  · exact Or.inl ⟨members, found, Or.inr rfl⟩

end Intersections

/-- What the productions of one level do in the two readings. -/
structure Level.Follows (grounded : Prop) (wide narrow : Level) : Prop where
  anyType : ∀ bracketed c, Grammar.Follows grounded Wider (wide.anyType bracketed) (narrow.anyType bracketed) c
  basicType : ∀ c, Grammar.Follows grounded Wider wide.basicType narrow.basicType c

/-- The same context, reading widely. -/
abbrev widely (ctx : Context) : Context := { ctx with wide := true }

/-- The same context, reading narrowly. -/
abbrev narrowly (ctx : Context) : Context := { ctx with wide := false }

section Productions

variable {grounded : Prop} {ctx : Context} {wide narrow : Level} (levels : Level.Follows grounded wide narrow)

/-- A type that passes a check is not `mixed`, so the narrow reading finds it, too. -/
theorem follows_check {α β : Type} {related : α → β → Prop} {check : DocType → Bool} {c : Cursor}
    {yes no : Reading α} {yes' no' : Reading β} {value found : DocType} (wider : Wider value found)
    (follows : Follows grounded related yes yes' c) (fails : ∀ narrow, Follows grounded related no narrow c)
    (refuses : ¬ check .mixed) :
    Follows grounded related (if check value then yes else no) (if check found then yes' else no') c := by
  rcases wider with rfl | rfl
  · rw [if_neg refuses]
    exact fails _
  · exact follows_ite (fun _ => follows) fun _ => fails _

include levels

theorem follows_singleType (c : Cursor) : Follows grounded Wider (singleType wide) (singleType narrow) c := by
  have suffix : ∀ {base found} c, Wider base found → Follows grounded Wider
      (do if ← arraySuffix (← get).ahead.length then return (⟨["array"]⟩ : DocType) else return base)
      (do if ← arraySuffix (← get).ahead.length then return (⟨["array"]⟩ : DocType) else return found) c := by
    intro base found c wider
    refine follows_get ((follows_same fun plain _ _ reads => ?_).bind ?_)
    · exact plain.reads (rereads_arraySuffix _ c : Rereads Scope.root _ _ _ _) reads
    · rintro isArray _ _ rfl
      exact follows_ite (fun _ => follows_pure (Or.inr rfl)) fun _ => follows_pure wider
  refine follows_peek (follows_ite (fun _ => ?_) fun _ => ?_)
  · refine (follows_expect "(").bind fun _ _ second _ => ?_
    refine (levels.anyType true second).bind fun _ _ third wider => ?_
    exact (follows_expect ")").bind fun _ _ fourth _ => suffix fourth wider
  · exact (levels.basicType c).bind fun _ _ after wider => suffix after wider

theorem follows_nullable (c : Cursor) : Follows grounded WiderMembers (nullable wide) (nullable narrow) c := by
  refine (follows_expect "?").bind fun _ _ second _ => ?_
  exact (follows_singleType levels second).bind fun _ _ _ wider => follows_pure (wider.members.append (Or.inr rfl))

theorem follows_conditional (c : Cursor) :
    Follows grounded WiderMembers (conditional wide) (conditional narrow) c := by
  refine follows_take.discard.bind fun _ _ second _ => ?_
  refine (follows_expect "is").bind fun _ _ third _ => ?_
  refine (levels.anyType false third).discard.bind fun _ _ fourth _ => ?_
  refine (follows_expect "?").bind fun _ _ fifth _ => ?_
  refine (levels.anyType false fifth).bind fun _ _ sixth yes => ?_
  refine (follows_expect ":").bind fun _ _ seventh _ => ?_
  exact (levels.anyType false seventh).bind fun _ _ _ no => follows_pure (yes.members.append no.members)

/-- The narrow reading of an intersection may fail, but not where its single types are formed. -/
theorem follows_intersection (named : ctx.classes.WellNamed) (rereads : narrow.Rereads ctx.scope)
    (forms : grounded → narrow.Forms (narrowly ctx)) (c : Cursor) :
    Follows grounded WiderMembers (intersection (widely ctx) wide) (intersection (narrowly ctx) narrow) c := by
  have continues : ∀ c, Follows grounded Eq continuesIntersection continuesIntersection c :=
    fun c => follows_same fun plain _ _ reads =>
      plain.reads (rereads_continuesIntersection c : Rereads ctx.scope _ _ _ _) reads
  intro members after reads
  obtain ⟨singles, middle, readsSingles, lifted⟩ := reads_bind.mp reads
  obtain ⟨result, rfl⟩ := reads_lift.mp lifted
  rcases follows_sepBy (follows_singleType levels) continues c singles _ readsSingles with
    ⟨found, narrowSingles, wider, plain⟩ | ⟨unsound, fails⟩
  · rcases follows_intersectionMembers wider result with ⟨others, isOk, widerMembers⟩ | ⟨notFormed, notOk⟩
    · refine Or.inl ⟨others, reads_bind.mpr ⟨found, after, narrowSingles, ?_⟩, widerMembers, plain⟩
      exact reads_lift.mpr ⟨isOk, rfl⟩
    · refine Or.inr ⟨fun sound => notFormed ?_, fun others last narrowReads => ?_⟩
      · have namedNarrow : (narrowly ctx).classes.WellNamed := named
        exact (formed_singles namedNarrow rereads (forms sound.1) sound.2 narrowSingles).2
      · obtain ⟨again, _, narrowAgain, narrowLifted⟩ := reads_bind.mp narrowReads
        obtain ⟨rfl, rfl⟩ := Prod.mk.inj (Except.ok.inj (narrowAgain.symm.trans narrowSingles))
        exact notOk others (reads_lift.mp narrowLifted).1
  · refine Or.inr ⟨unsound, fun others last narrowReads => ?_⟩
    obtain ⟨again, between, narrowAgain, _⟩ := reads_bind.mp narrowReads
    exact fails again between narrowAgain

theorem follows_anyType (named : ctx.classes.WellNamed) (rereads : narrow.Rereads ctx.scope)
    (forms : grounded → narrow.Forms (narrowly ctx)) (bracketed : Bool) (c : Cursor) :
    Follows grounded Wider (anyType (widely ctx) wide bracketed) (anyType (narrowly ctx) narrow bracketed) c := by
  have ends : ∀ {given found : Reading (List String)}, Follows grounded WiderMembers given found c →
      Follows grounded Wider (do let members ← given; return (⟨ctx.classes.normalUnion members⟩ : DocType))
        (do let members ← found; return (⟨ctx.classes.normalUnion members⟩ : DocType)) c :=
    fun follows => follows.bind fun _ _ _ wider => follows_pure (wider.normalUnion ctx.classes)
  have ofUnion : Follows grounded WiderMembers (union (widely ctx) wide) (union (narrowly ctx) narrow) c :=
    (follows_sepBy (follows_intersection levels named rereads forms) (fun _ => follows_eat "|") c).bind
      fun _ _ _ wider => follows_pure (widerMembers_flatten wider)
  refine follows_peek (follows_peek (follows_ite (fun _ => ?_) fun _ => follows_ite (fun _ => ?_) fun _ => ?_))
  · exact ends (follows_conditional levels c)
  · exact ends (follows_nullable levels c)
  · exact ends ofUnion

theorem follows_intMaskMember (c : Cursor) :
    Follows grounded Eq (intMaskMember (widely ctx) wide) (intMaskMember (narrowly ctx) narrow) c := by
  refine (levels.basicType c).bind fun _ _ _ wider => ?_
  refine follows_check wider (follows_pure rfl) (fun _ => follows_throw) ?_
  exact not_accepts_mixed ctx.classes (by decide)

theorem follows_intArguments (word : String) (c : Cursor) :
    Follows grounded Eq (intArguments (widely ctx) wide word) (intArguments (narrowly ctx) narrow word) c := by
  have bound : ∀ bound c, Follows grounded Eq (intBound bound) (intBound bound) c := by
    intro bound c
    refine follows_peek ?_
    cases c.peek 0 with
    | none => exact follows_throw
    | some token => exact follows_ite (fun _ => follows_take.discard) fun _ => follows_throw
  refine follows_peek (follows_ite (fun _ => ?_) fun _ => follows_ite (fun _ => ?_) fun _ =>
    follows_ite (fun _ => ?_) fun _ => follows_pure rfl)
  · refine (follows_expect "<").bind fun _ _ second _ => ?_
    refine (bound "min" second).bind fun _ _ third _ => ?_
    refine (follows_expect ",").bind fun _ _ fourth _ => ?_
    exact (bound "max" fourth).bind fun _ _ _ _ => follows_expect ">"
  · refine (follows_expect "<").bind fun _ _ second _ => ?_
    refine (follows_sepBy (follows_intMaskMember levels) (fun _ => follows_eat ",") second).discard.bind ?_
    exact fun _ _ _ _ => follows_expect ">"
  · refine (follows_expect "<").bind fun _ _ second _ => ?_
    exact (follows_intMaskMember levels second).bind fun _ _ _ _ => follows_expect ">"

theorem follows_stringArguments (word : String) (c : Cursor) :
    Follows grounded Eq (stringArguments (widely ctx) wide word)
      (stringArguments (narrowly ctx) narrow word) c := by
  refine follows_peek (follows_ite (fun _ => ?_) fun _ => follows_pure rfl)
  refine (follows_expect "<").bind fun _ _ second _ => ?_
  refine (levels.basicType second).bind fun _ _ third wider => ?_
  refine follows_check wider (follows_expect ">") (fun _ => follows_throw_bind) ?_
  exact not_accepts_mixed ctx.classes (by decide)

theorem follows_shapeItem (c : Cursor) : Follows grounded Eq (shapeItem wide) (shapeItem narrow) c := by
  refine follows_peek (follows_peek (follows_peek (follows_ite (fun _ => ?_) fun _ => ?_)))
  · refine follows_take.discard.bind fun _ _ second _ => ?_
    refine (follows_eat "?").discard.bind fun _ _ third _ => ?_
    exact (follows_expect ":").bind fun _ _ fourth _ => (levels.anyType false fourth).discard
  · exact (levels.anyType false c).discard

theorem follows_arrayArguments (word : String) (c : Cursor) :
    Follows grounded Eq (arrayArguments (widely ctx) wide word) (arrayArguments (narrowly ctx) narrow word) c := by
  refine follows_peek ?_
  split
  · refine (follows_expect "<").bind fun _ _ second _ => ?_
    refine (levels.anyType false second).bind fun _ _ third wider => ?_
    refine follows_peek (follows_ite (fun _ => ?_) fun _ => follows_expect ">")
    refine follows_ite (fun _ => follows_throw_bind) fun _ => ?_
    refine follows_check wider ?_ (fun _ => follows_throw_bind) ?_
    · refine (follows_expect ",").bind fun _ _ fourth _ => ?_
      exact (levels.anyType false fourth).discard.bind fun _ _ _ _ => follows_expect ">"
    · exact not_accepts_mixed ctx.classes (by decide)
  · refine follows_ite (fun _ => follows_throw_bind) fun _ => ?_
    refine (follows_expect "\x7b").bind fun _ _ second _ => ?_
    refine (follows_sepBy (follows_shapeItem levels) (fun _ => follows_eat ",") second).discard.bind ?_
    exact fun _ _ _ _ => follows_expect "\x7d"
  · exact follows_pure rfl

theorem follows_objectArguments (c : Cursor) :
    Follows grounded Eq (objectArguments wide) (objectArguments narrow) c := by
  have property : ∀ c, Follows grounded Eq (objectProperty wide) (objectProperty narrow) c := by
    intro c
    refine follows_peek (follows_ite (fun _ => ?_) fun _ => follows_throw_bind)
    refine follows_take.discard.bind fun _ _ second _ => ?_
    refine (follows_eat "?").discard.bind fun _ _ third _ => ?_
    exact (follows_expect ":").bind fun _ _ fourth _ => (levels.anyType false fourth).discard
  refine follows_peek (follows_ite (fun _ => ?_) fun _ => follows_pure rfl)
  refine (follows_expect "\x7b").bind fun _ _ second _ => ?_
  refine (follows_sepBy property (fun _ => follows_eat ",") second).discard.bind ?_
  exact fun _ _ _ _ => follows_expect "\x7d"

theorem follows_callableArguments (c : Cursor) :
    Follows grounded Eq (callableArguments wide) (callableArguments narrow) c := by
  have parameter : ∀ c, Follows grounded Eq (callableParameter wide) (callableParameter narrow) c := by
    intro c
    have ends : ∀ c, Follows grounded Eq (do unless (← peek 0) = some ")" do expect ",")
        (do unless (← peek 0) = some ")" do expect ",") c :=
      fun c => follows_peek (follows_ite (fun _ => follows_pure rfl) fun _ => follows_expect ",")
    refine (levels.anyType false c).discard.bind fun _ _ second _ => ?_
    refine (follows_eat "&").discard.bind fun _ _ third _ => ?_
    refine (follows_eat "...").discard.bind fun _ _ fourth _ => ?_
    refine (follows_eat "=").discard.bind fun _ _ fifth _ => ?_
    refine follows_peek (follows_ite (fun _ => ?_) fun _ => ends fifth)
    exact follows_take.discard.bind fun _ _ sixth _ => ends sixth
  refine follows_peek (follows_ite (fun _ => ?_) fun _ => follows_pure rfl)
  refine (follows_expect "(").bind fun _ _ second _ => follows_get ?_
  refine (follows_untilToken parameter _ second).bind fun _ _ third _ => ?_
  refine (follows_expect ")").bind fun _ _ fourth _ => ?_
  refine (follows_expect ":").bind fun _ _ fifth _ => ?_
  refine follows_peek (follows_ite (fun _ => ?_) fun _ => ?_)
  · exact (levels.anyType false fifth).discard
  · exact (follows_singleType levels fifth).discard

theorem follows_iterableArguments (c : Cursor) :
    Follows grounded Eq (iterableArguments wide) (iterableArguments narrow) c := by
  refine follows_peek (follows_ite (fun _ => ?_) fun _ => follows_pure rfl)
  refine (follows_expect "<").bind fun _ _ second _ => ?_
  refine (levels.anyType false second).discard.bind fun _ _ third _ => ?_
  refine (follows_eat ",").bind ?_
  rintro keyed _ fourth rfl
  refine follows_ite (fun _ => ?_) fun _ => follows_expect ">"
  exact (levels.anyType false fourth).discard.bind fun _ _ _ _ => follows_expect ">"

theorem follows_keyOrValueArguments (c : Cursor) :
    Follows grounded Eq (keyOrValueArguments (widely ctx) wide) (keyOrValueArguments (narrowly ctx) narrow) c := by
  refine (follows_expect "<").bind fun _ _ second _ => ?_
  refine (levels.anyType false second).bind fun _ _ third wider => ?_
  have refused : ¬ (ctx.classes.accepts ⟨["iterable"]⟩ .mixed || ctx.classes.accepts ⟨["object"]⟩ .mixed) := by
    simp [not_accepts_mixed]
  rcases wider with rfl | rfl
  · rw [if_neg refused]
    exact follows_throw_bind
  · exact follows_ite (fun _ => follows_expect ">") fun _ => follows_throw_bind

theorem follows_basicHead (token : String) (c : Cursor) :
    Follows grounded Unsettled (basicHead (widely ctx) wide token) (basicHead (narrowly ctx) narrow token) c := by
  have alone : ∀ right (type : DocType), Follows grounded Unsettled (do keyword right; return type)
      (do keyword right; return type) c :=
    fun right _ => (follows_keyword right).bind fun _ _ _ _ => follows_pure (Or.inl rfl)
  have argued : ∀ right {arguments arguments' : Reading Unit} {type found : DocType}, Unsettled type found →
      (∀ c, Follows grounded Eq arguments arguments' c) →
      Follows grounded Unsettled (do keyword right; arguments; return type)
        (do keyword right; arguments'; return found) c :=
    fun right _ _ _ _ unsettled ofArguments =>
      (follows_keyword right).bind fun _ _ second _ => (ofArguments second).bind fun _ _ _ _ =>
        follows_pure unsettled
  have literal : ∀ type : DocType, Follows grounded Unsettled (do discard take; return type)
      (do discard take; return type) c :=
    fun _ => follows_take.discard.bind fun _ _ _ _ => follows_pure (Or.inl rfl)
  unfold basicHead
  cases Head.ofToken ctx.scope token with
  | bool right => exact alone right _
  | int right => exact argued right (Or.inl rfl) (follows_intArguments levels right)
  | float => exact alone "float" _
  | floatLiteral => exact literal _
  | string right => exact argued right (Or.inl rfl) (follows_stringArguments levels right)
  | stringLiteral => exact literal _
  | callableString => exact alone "callable-string" _
  | array right => exact argued right (Or.inl rfl) (follows_arrayArguments levels right)
  | object => exact argued "object" (Or.inl rfl) (follows_objectArguments levels)
  | never => exact alone "never" _
  | plain right => exact alone right _
  | self => exact alone "self" _
  | parent => exact alone "parent" _
  | static => exact alone "static" _
  | callable => exact argued "callable" (Or.inl rfl) (follows_callableArguments levels)
  | closure =>
    refine follows_take.discard.bind fun _ _ second _ => ?_
    exact (follows_callableArguments levels second).bind fun _ _ _ _ => follows_pure (Or.inl rfl)
  | iterable => exact argued "iterable" (Or.inl rfl) (follows_iterableArguments levels)
  | keyOrValue right => exact argued right (Or.inr ⟨rfl, rfl⟩) (follows_keyOrValueArguments levels)
  | className =>
    refine follows_take.bind ?_
    rintro name _ after rfl
    exact follows_ite (fun _ => follows_throw_bind) fun _ => follows_pure (Or.inl rfl)
  | unknown => exact follows_throw

/-- Neither `mixed` nor `never` is an object, so arguments and constants follow only a type that both
readings found. -/
theorem follows_objectSuffix {type found : DocType} (unsettled : Unsettled type found) (c : Cursor) :
    Follows grounded Wider (objectSuffix (widely ctx) wide type) (objectSuffix (narrowly ctx) narrow found) c := by
  have notObject : ∀ type ∈ [DocType.mixed, DocType.never], ¬ ctx.classes.isObject type.text := by
    intro type either
    have unknown : Atom.view type.text = .unknown := by
      have table : ∀ type ∈ [DocType.mixed, DocType.never], Atom.view type.text = .unknown := by decide
      exact table type either
    simp [isObject, superTypes_unknown ctx.classes unknown]
  refine follows_peek ?_
  rcases unsettled with rfl | ⟨rfl, rfl⟩
  · split
    · refine follows_ite (fun _ => ?_) fun _ => follows_pure (Or.inr rfl)
      refine (follows_expect "<").bind fun _ _ second _ => ?_
      refine (follows_sepBy (levels.anyType false) (fun _ => follows_eat ",") second).discard.bind fun _ _ _ _ => ?_
      exact (follows_expect ">").bind fun _ _ _ _ => follows_pure (Or.inr rfl)
    · refine follows_ite (fun _ => ?_) fun _ => follows_pure (Or.inr rfl)
      refine (follows_same fun plain _ _ reads => ?_).bind fun _ _ _ _ => follows_pure (Or.inl rfl)
      exact plain.reads (rereads_constantReference c : Rereads ctx.scope _ _ _ _) reads
    · exact follows_pure (Or.inr rfl)
  · have ofMixed := notObject .mixed (by decide)
    have ofNever := notObject .never (by decide)
    split
    · rw [if_neg ofMixed, if_neg ofNever]
      exact follows_pure (Or.inl rfl)
    · rw [if_neg ofMixed, if_neg ofNever]
      exact follows_pure (Or.inl rfl)
    · exact follows_pure (Or.inl rfl)

theorem follows_basicType (c : Cursor) :
    Follows grounded Wider (basicType (widely ctx) wide) (basicType (narrowly ctx) narrow) c := by
  refine follows_peek ?_
  cases c.peek 0 with
  | none => exact follows_throw
  | some token =>
    exact (follows_basicHead levels token c).bind fun _ _ after unsettled =>
      follows_objectSuffix levels unsettled after

end Productions

theorem level_follows (ctx : Context) (named : ctx.classes.WellNamed) (n : Nat) :
    Level.Follows (ctx.classes.Grounded ctx.scope) (level (widely ctx) n) (level (narrowly ctx) n) := by
  induction n with
  | zero => exact ⟨fun _ _ => follows_throw, fun _ => follows_throw⟩
  | succ n ih =>
    have namedNarrow : (narrowly ctx).classes.WellNamed := named
    have forms : ctx.classes.Grounded ctx.scope → (level (narrowly ctx) n).Forms (narrowly ctx) :=
      fun grounded => level_forms namedNarrow grounded n
    exact ⟨follows_anyType ih named (level_rereads (narrowly ctx) n) forms, follows_basicType ih⟩

theorem follows_delimitedType (ctx : Context) (named : ctx.classes.WellNamed) (c : Cursor) :
    Follows (ctx.classes.Grounded ctx.scope) Wider (delimitedType (widely ctx))
      (delimitedType (narrowly ctx)) c := by
  refine ((level_follows ctx named ctx.limit).anyType false c).bind fun _ _ _ wider => follows_get ?_
  exact follows_ite (fun _ => follows_pure wider) fun _ => follows_throw_bind

end Grammar

namespace ClassTable

open Grammar

variable {classes : ClassTable}

theorem withNull_wider {wide narrow : DocType} (wider : Wider wide narrow) :
    Wider (classes.withNull wide) (classes.withNull narrow) := by
  rcases wider with rfl | rfl
  · exact Or.inl (if_pos rfl)
  · exact Or.inr rfl

/-- The two readings of a typed name. What follows the type is the same in both. -/
theorem readTypedName_follows (named : classes.WellNamed) (scope : Scope) (text : String) (extent : Extent)
    {type : DocType} (read : (classes.readTypedName scope text extent true).type = some type) :
    (∃ other, (classes.readTypedName scope text extent false).type = some other ∧ Wider type other) ∨
      ¬ classes.Grounded scope ∧ (classes.readTypedName scope text extent false).type = none := by
  obtain ⟨found, after, reads, rfl⟩ := readTypedName_type read
  rcases follows_delimitedType { classes, scope, wide := true } named _ found after reads with
    ⟨other, narrowReads, wider, _⟩ | ⟨unsound, fails⟩
  · refine Or.inl ⟨_, readTypedName_of_reads narrowReads, ?_⟩
    split
    · exact withNull_wider wider
    · exact wider
  · refine Or.inr ⟨fun grounded => unsound ⟨grounded, plainNames_ofText _⟩, ?_⟩
    by_contra some
    obtain ⟨other, isOther⟩ := Option.ne_none_iff_exists'.mp some
    obtain ⟨found, last, narrowReads, _⟩ := readTypedName_type isOther
    exact fails found last narrowReads

theorem compatible_of_wider {wide narrow : DocType} (wider : Wider wide narrow) {given : Option DocType}
    (compatible : classes.compatible (some narrow) given) : classes.compatible (some wide) given := by
  rcases wider with rfl | rfl
  · cases given with
    | none => exact compatible
    | some given => exact accepts_iff.mpr (Or.inl rfl)
  · exact compatible

/-- In every scope the types of the two readings are the same or the wide one is `mixed`. Where every name stands
for a formed type, the narrow reading finds one if the wide one does, so that nothing fits the narrow type alone. -/
theorem wide_reading_covers_narrow (named : classes.WellNamed) (scope : Scope) (text : String) (extent : Extent) :
    (∀ wide narrow, (classes.readTypedName scope text extent true).type = some wide →
      (classes.readTypedName scope text extent false).type = some narrow → wide = .mixed ∨ wide = narrow) ∧
    (classes.Grounded scope →
      (∀ wide, (classes.readTypedName scope text extent true).type = some wide →
        ∃ narrow, (classes.readTypedName scope text extent false).type = some narrow ∧
          (wide = .mixed ∨ wide = narrow)) ∧
      ∀ given, classes.compatible (classes.readTypedName scope text extent false).type given →
        classes.compatible (classes.readTypedName scope text extent true).type given) := by
  refine ⟨fun wide narrow readWide readNarrow => ?_, fun grounded => ?_⟩
  · rcases readTypedName_follows named scope text extent readWide with ⟨other, isOther, wider⟩ | ⟨_, isNone⟩
    · obtain rfl := Option.some.inj (isOther.symm.trans readNarrow)
      exact wider
    · rw [isNone] at readNarrow
      exact absurd readNarrow (by simp)
  · have follows : ∀ wide, (classes.readTypedName scope text extent true).type = some wide →
        ∃ narrow, (classes.readTypedName scope text extent false).type = some narrow ∧ Wider wide narrow :=
      fun wide read => (readTypedName_follows named scope text extent read).resolve_right fun unsound =>
        unsound.1 grounded
    refine ⟨follows, fun given compatible => ?_⟩
    cases read : (classes.readTypedName scope text extent true).type with
    | none =>
      cases given with
      | none => exact compatible
      | some given => rfl
    | some wide =>
      obtain ⟨narrow, readNarrow, wider⟩ := follows wide read
      rw [readNarrow] at compatible
      exact compatible_of_wider wider compatible

/-- A constant that is not resolved, beside a template whose bound was read. -/
theorem wide_reading_covers_narrow_constant :
    cyclicTable.WellNamed ∧ cyclicTable.Grounded (.bindTemplate .root "T" "\\Bar&\\Foo|int") ∧
      (cyclicTable.readTypedName (.bindTemplate .root "T" "\\Bar&\\Foo|int") "T|\\A::NAME" .typeOnly true).type =
        some .mixed ∧
      (cyclicTable.readTypedName (.bindTemplate .root "T" "\\Bar&\\Foo|int") "T|\\A::NAME" .typeOnly false).type =
        some ⟨["\\Bar&\\Foo", "int"]⟩ ∧
      ∀ given, cyclicTable.compatible (cyclicTable.readTypedName (.bindTemplate .root "T" "\\Bar&\\Foo|int")
        "T|\\A::NAME" .typeOnly false).type given →
        cyclicTable.compatible (cyclicTable.readTypedName (.bindTemplate .root "T" "\\Bar&\\Foo|int")
          "T|\\A::NAME" .typeOnly true).type given := by
  have named : cyclicTable.WellNamed := by decide
  have grounded : cyclicTable.Grounded (.bindTemplate .root "T" "\\Bar&\\Foo|int") :=
    ⟨by decide, fun name text isBound =>
      Scope.eq_of_find?_bindTemplate isBound ▸ (returned_intersection_int.normal named).formed named⟩
  exact ⟨named, grounded, by decide +kernel, by decide +kernel,
    ((wide_reading_covers_narrow named _ _ .typeOnly).2 grounded).2⟩

/-- A template bound that is no type makes an intersection of words. The wide reading takes it, since beside a
constant it counts as `mixed`, and the narrow one does not. -/
theorem narrow_reading_fails_alone :
    WellNamed .empty ∧
      (readTypedName .empty (.bindTemplate .root "T" "int&string|int&string&foo") "array<(\\Foo::BAR|T)>" .typeOnly
        true).type = some ⟨["array"]⟩ ∧
      (readTypedName .empty (.bindTemplate .root "T" "int&string|int&string&foo") "array<(\\Foo::BAR|T)>" .typeOnly
        false).type = none ∧
      compatible .empty none (some ⟨["int"]⟩) ∧ ¬ compatible .empty (some ⟨["array"]⟩) (some ⟨["int"]⟩) := by
  decide +kernel

end ClassTable

end DocTypes
