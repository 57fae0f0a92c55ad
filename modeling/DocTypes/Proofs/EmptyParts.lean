import DocTypes.Proofs.GrammarExactness
import DocTypes.Proofs.ReturnedTypes

namespace DocTypes

/-- Neither the type nor a member nor an atom of it is written with nothing. -/
structure DocType.Whole (type : DocType) : Prop where
  text_ne : type.text ≠ ""
  member_ne : ∀ member ∈ Text.split '|' type.text, member ≠ ""
  atom_ne : ∀ member ∈ Text.split '|' type.text, ∀ atom ∈ atoms member, atom ≠ ""

namespace Scope

/-- The names that a scope knows classes by are full names, and no `|` or `&` is in them or in the namespace. -/
structure FullyNamed (scope : Scope) : Prop where
  ns_free : '|' ∉ scope.ns.toList ∧ '&' ∉ scope.ns.toList
  names : ∀ name ∈ scope.imports.entries.map Prod.snd ++ scope.className.toList ++ scope.parentName.toList,
    isFullName name ∧ '|' ∉ name.toList ∧ '&' ∉ name.toList

instance (scope : Scope) : Decidable scope.FullyNamed :=
  decidable_of_iff (('|' ∉ scope.ns.toList ∧ '&' ∉ scope.ns.toList) ∧
    ∀ name ∈ scope.imports.entries.map Prod.snd ++ scope.className.toList ++ scope.parentName.toList,
      isFullName name ∧ '|' ∉ name.toList ∧ '&' ∉ name.toList)
    ⟨fun both => ⟨both.1, both.2⟩, fun named => ⟨named.ns_free, named.names⟩⟩

/-- What a token that stands for a class is resolved to. -/
def resolved? (scope : Scope) (token : String) : Option String :=
  match Grammar.Head.ofToken scope token with
  | .self => some scope.resolveSelf
  | .parent => some scope.resolveParent
  | .static => some scope.resolveStatic
  | .closure | .className => some (scope.resolveDocName token)
  | _ => none

/-- The atoms that a token brings into a type. -/
def namedAtoms (scope : Scope) (token : String) : List String :=
  (scope.resolved? token).toList.flatMap fun text => (Text.split '|' text).flatMap DocType.atoms

end Scope

namespace ClassTable

/-- None of the classes that a text names in a scope lies on a cycle. -/
def NamesNoCycle (classes : ClassTable) (scope : Scope) (text : String) : Prop :=
  ∀ token ∈ (Token.scan text.toList).tokens, ∀ atom ∈ scope.namedAtoms token.text, ¬ classes.OnCycle atom

/-- The types that are read from texts that name no class on a cycle, in scopes whose template bounds are such
types. -/
inductive Produced (classes : ClassTable) : DocType → Prop
  | typedName {scope : Scope} {text : String} {extent : Extent} {wide : Bool} {type : DocType}
      (full : scope.FullyNamed)
      (bounds : ∀ name bound, scope.templates.find? name = some bound → Produced classes (.ofText bound))
      (apart : classes.NamesNoCycle scope text)
      (read : (classes.readTypedName scope text extent wide).type = some type) : Produced classes type
  | template {scope : Scope} {text : String} {type : DocType}
      (full : scope.FullyNamed)
      (bounds : ∀ name bound, scope.templates.find? name = some bound → Produced classes (.ofText bound))
      (apart : classes.NamesNoCycle scope text)
      (read : (classes.readTemplate scope text).bound = some type) : Produced classes type

/-- An atom that is written with something and lies on no cycle. -/
def Firm (classes : ClassTable) (atom : String) : Prop :=
  atom ≠ "" ∧ ¬ classes.OnCycle atom

/-- An intersection of firm atoms. -/
def FirmMember (classes : ClassTable) (member : String) : Prop :=
  '|' ∉ member.toList ∧ ∀ atom ∈ DocType.atoms member, classes.Firm atom

/-- A type with members, all of them intersections of firm atoms. -/
structure FirmType (classes : ClassTable) (type : DocType) : Prop where
  nonempty : type.members ≠ []
  firm : ∀ member ∈ type.members, classes.FirmMember member

variable {classes : ClassTable}

theorem FirmType.append {first second : List String} (left : classes.FirmType ⟨first⟩)
    (right : ∀ member ∈ second, classes.FirmMember member) : classes.FirmType ⟨first ++ second⟩ := by
  refine ⟨List.append_ne_nil_of_left_ne_nil left.nonempty _, fun member isMember => ?_⟩
  exact (List.mem_append.mp isMember).elim (left.firm member) (right member)

theorem firmType_ofText {text : String}
    (firm : ∀ member ∈ Text.split '|' text, ∀ atom ∈ DocType.atoms member, classes.Firm atom) :
    classes.FirmType (.ofText text) :=
  ⟨Text.split_ne_nil _ _, fun member isMember => ⟨Text.not_mem_of_mem_split isMember, firm member isMember⟩⟩

theorem FirmMember.ne_empty {member : String} (firm : classes.FirmMember member) : member ≠ "" := by
  rintro rfl
  exact (firm.2 "" (by decide)).1 rfl

theorem FirmType.whole {type : DocType} (firm : classes.FirmType type) : type.Whole := by
  have cut : Text.split '|' type.text = type.members :=
    Text.split_join firm.nonempty fun member isMember => (firm.firm member isMember).1
  refine ⟨fun none => ?_, fun member isMember => ?_, fun member isMember atom isAtom => ?_⟩
  · have single : type.members = [""] := by
      rw [← cut, none]
      decide
    exact (firm.firm "" (single ▸ List.mem_singleton_self _)).ne_empty rfl
  · rw [cut] at isMember
    exact (firm.firm member isMember).ne_empty
  · rw [cut] at isMember
    exact ((firm.firm member isMember).2 atom isAtom).1

section Named

variable (named : classes.WellNamed)

include named

/-- The words that types are written with and that name no class. -/
def plainWords : List String :=
  ["bool", "int", "float", "string", "callable-string", "array", "object", "never", "resource", "null", "void",
    "mixed", "array-key", "scalar", "callable", "iterable"]

theorem WellNamed.firmMember_of_plainWord {word : String} (listed : word ∈ plainWords) :
    classes.FirmMember word := by
  have table : ∀ word ∈ plainWords, word ≠ "" ∧ ¬ Scope.isFullName word ∧ '|' ∉ word.toList ∧
      '&' ∉ word.toList := by
    decide
  obtain ⟨nonempty, notFull, noBar, noAnd⟩ := table word listed
  refine ⟨noBar, fun atom isAtom => ?_⟩
  rw [DocType.atoms, Text.split_of_not_mem noAnd, List.mem_singleton] at isAtom
  subst isAtom
  exact ⟨nonempty, fun cycle => notFull (named.full_of_onCycle cycle)⟩

theorem WellNamed.firmType_of_plainWord {word : String} (listed : word ∈ plainWords) :
    classes.FirmType ⟨[word]⟩ := by
  refine ⟨List.cons_ne_nil _ _, fun member isMember => ?_⟩
  rw [List.mem_singleton.mp isMember]
  exact named.firmMember_of_plainWord listed

/-- The normal form of a union adds no members but umbrellas. -/
theorem FirmType.normalUnion {members : List String} (firm : classes.FirmType ⟨members⟩) :
    classes.FirmType ⟨classes.normalUnion members⟩ := by
  refine ⟨named.normalUnion_ne_nil firm.nonempty, fun member isMember => ?_⟩
  rcases mem_of_mem_normalUnion isMember with given | umbrella
  · exact firm.firm member given
  · have table : ∀ word ∈ ["array-key", "scalar", "iterable"], word ∈ plainWords := by decide
    exact named.firmMember_of_plainWord (table member (DocType.umbrella_of_complete umbrella))

theorem FirmType.withNull {type : DocType} (firm : classes.FirmType type) :
    classes.FirmType (classes.withNull type) := by
  unfold ClassTable.withNull
  split
  · exact firm
  · refine FirmType.normalUnion named (firm.append fun member isNull => ?_)
    rw [List.mem_singleton.mp isNull]
    exact named.firmMember_of_plainWord (by decide)

/-- Of firm atoms one is above no other, and it stays in their intersection. -/
theorem WellNamed.normalIntersection_ne_nil {atoms kept : List String} (some : atoms ≠ [])
    (firm : ∀ atom ∈ atoms, classes.Firm atom) (isNormal : classes.normalIntersection atoms = .ok kept) :
    kept ≠ [] ∧ kept ⊆ atoms := by
  rcases Nat.lt_or_ge 1 atoms.length with several | short
  · obtain ⟨_, rfl⟩ := (normalIntersection_eq_ok_iff several).mp isNormal
    have irrefl : ∀ atom ∈ atoms, atom ∉ classes.superTypes atom :=
      fun atom isAtom above => (firm atom isAtom).2 (named.onCycle_of_mem_superTypes above)
    obtain ⟨atom, isAtom⟩ := List.exists_mem_of_ne_nil _ some
    obtain ⟨low, isLow, _, lowest⟩ := named.exists_lowest_of_irrefl irrefl isAtom
    exact ⟨List.ne_nil_of_mem (mem_remaining_of_lowest isLow lowest), remaining_subset⟩
  · rw [normalIntersection_of_short short] at isNormal
    obtain rfl := Except.ok.inj isNormal
    exact ⟨some, List.Subset.refl _⟩

end Named

end ClassTable

namespace Grammar

open ClassTable

/-- What the items of a series have if all its tokens are good. -/
theorem Series.forall_of_tokens {α γ : Type} {mark : String} {joins : List String → Prop}
    {item : List String → α → γ → Prop} {good : String → Prop} {holds : α → Prop} {p : List String}
    {values : List α} {grip : γ} (series : Series mark joins item p values grip) (allGood : ∀ token ∈ p, good token)
    (ofItem : ∀ p value grip, (∀ token ∈ p, good token) → item p value grip → holds value) :
    values ≠ [] ∧ ∀ value ∈ values, holds value := by
  induction series with
  | one first => exact ⟨List.cons_ne_nil _ _, by simpa using ofItem _ _ _ allGood first⟩
  | more first _ _ ih =>
    have front := ofItem _ _ _ (fun token isToken => allGood token (List.mem_append_left _ isToken)) first
    have back := ih fun token isToken => allGood token (List.mem_append_right _ (List.mem_cons_of_mem _ isToken))
    exact ⟨List.cons_ne_nil _ _, List.forall_mem_cons.mpr ⟨front, back.2⟩⟩

/-- The atoms that a token names are firm. -/
def NamesFirm (ctx : Context) (token : String) : Prop :=
  ∀ atom ∈ ctx.scope.namedAtoms token, ctx.classes.Firm atom

theorem NamesFirm.ofText {ctx : Context} {token text : String} (names : NamesFirm ctx token)
    (resolved : ctx.scope.resolved? token = some text) : ctx.classes.FirmType (.ofText text) := by
  refine firmType_ofText fun member isMember atom isAtom => names atom ?_
  rw [Scope.namedAtoms, resolved]
  simp only [Option.toList_some, List.flatMap_cons, List.flatMap_nil, List.append_nil, List.mem_flatMap]
  exact ⟨member, isMember, isAtom⟩

/-- What is derived from tokens that name firm atoms is firm. -/
structure Nonterminals.Firm (ctx : Context) (inner : Nonterminals) : Prop where
  anyType : ∀ {bracketed p type grip}, (∀ token ∈ p, NamesFirm ctx token) → inner.anyType bracketed p type grip →
    ctx.classes.FirmType type
  basicType : ∀ {p type grip}, (∀ token ∈ p, NamesFirm ctx token) → inner.basicType p type grip →
    ctx.classes.FirmType type

section Derived

variable {ctx : Context} {settled : Bool} {inner : Nonterminals} (named : ctx.classes.WellNamed)

include named

theorem firm_unresolved : ctx.classes.FirmType (unresolved ctx) := by
  unfold unresolved
  split
  · exact named.firmType_of_plainWord (by decide)
  · exact named.firmType_of_plainWord (by decide)

theorem HeadType.firm {p : List String} {type : DocType} {grip : List Suffix}
    (good : ∀ token ∈ p, NamesFirm ctx token) (derives : HeadType ctx settled inner p type grip) :
    ctx.classes.FirmType type := by
  obtain @⟨token, head, p, type, grip, announced, form⟩ := derives
  have isHead : Head.ofToken ctx.scope token = head := (Head.ofToken_eq _ _).trans (ofWord_of_announced announced)
  have ofText : ∀ text, ctx.scope.resolved? token = some text → type = .ofText text → ctx.classes.FirmType type :=
    fun text resolved same => same ▸ (good token (List.mem_cons_self ..)).ofText resolved
  cases head with
  | bool | float | floatLiteral | stringLiteral | callableString | never =>
    rw [form.2.1]
    exact named.firmType_of_plainWord (by decide)
  | int | string | array | object | callable | iterable =>
    rw [form.2]
    exact named.firmType_of_plainWord (by decide)
  | plain word =>
    have table : ∀ word ∈ ["resource", "null", "void", "mixed", "array-key", "scalar"], word ∈ plainWords := by
      decide
    rw [form.2.1]
    exact named.firmType_of_plainWord (announced.2 ▸ table _ announced.1)
  | self => exact ofText _ (by rw [Scope.resolved?, isHead]) form.2.1
  | parent => exact ofText _ (by rw [Scope.resolved?, isHead]) form.2.1
  | static => exact ofText _ (by rw [Scope.resolved?, isHead]) form.2.1
  | closure =>
    have isClosure : ctx.scope.resolveDocName token = "\\Closure" := by simpa using announced.1
    have single : DocType.ofText "\\Closure" = ⟨["\\Closure"]⟩ := by decide
    exact ofText "\\Closure" (by rw [Scope.resolved?, isHead, isClosure]) (form.2.trans single.symm)
  | keyOrValue =>
    rw [form.2]
    exact firm_unresolved named
  | className => exact ofText _ (by rw [Scope.resolved?, isHead]) form.2.2.1
  | unknown => exact form.elim

theorem BasicType.firm {p : List String} {type : DocType} {grip : List Suffix}
    (good : ∀ token ∈ p, NamesFirm ctx token) (derives : BasicType ctx settled inner p type grip) :
    ctx.classes.FirmType type := by
  cases derives with
  | plain head => exact head.firm named good
  | suffixed head _ suffix _ =>
    cases suffix with
    | arguments => exact head.firm named fun token isToken => good token (List.mem_append_left _ isToken)
    | constants => exact firm_unresolved named

/-- An intersection of firm types is firm, as one of the atoms stays. -/
theorem Meets.firm {singles : List DocType} {members : List String} (some : singles ≠ [])
    (firm : ∀ single ∈ singles, ctx.classes.FirmType single) (meets : Meets ctx singles members) :
    ctx.classes.FirmType ⟨members⟩ := by
  cases meets with
  | @union type _ => exact firm type (List.mem_singleton_self _)
  | @atoms _ kept plain meet =>
    have eachFirm : ∀ single ∈ singles, ctx.classes.FirmMember single.text := by
      intro single isSingle
      obtain ⟨nonempty, members⟩ := firm single isSingle
      have short : single.members.length ≤ 1 := by simpa [DocType.isUnion] using plain single isSingle
      obtain ⟨member, alone⟩ := List.length_eq_one_iff.mp (Nat.le_antisymm short (List.length_pos_iff.mpr nonempty))
      rw [DocType.text, alone, Text.join_singleton]
      exact members member (alone ▸ List.mem_singleton_self _)
    have firmAtoms : ∀ atom ∈ singles.flatMap fun single => DocType.atoms single.text,
        ctx.classes.Firm atom ∧ '|' ∉ atom.toList ∧ '&' ∉ atom.toList := by
      intro atom isAtom
      obtain ⟨single, isSingle, isPart⟩ := List.mem_flatMap.mp isAtom
      obtain ⟨noBar, firm⟩ := eachFirm single isSingle
      exact ⟨firm atom isPart, fun inAtom => noBar (Text.mem_of_mem_split isPart inAtom),
        Text.not_mem_of_mem_split isPart⟩
    have someAtoms : (singles.flatMap fun single => DocType.atoms single.text) ≠ [] := by
      obtain ⟨single, isSingle⟩ := List.exists_mem_of_ne_nil _ some
      obtain ⟨atom, isAtom⟩ := List.exists_mem_of_ne_nil _ (Text.split_ne_nil '&' single.text)
      exact List.ne_nil_of_mem (List.mem_flatMap.mpr ⟨single, isSingle, isAtom⟩)
    obtain ⟨someKept, subset⟩ :=
      named.normalIntersection_ne_nil someAtoms (fun atom isAtom => (firmAtoms atom isAtom).1) meet
    obtain ⟨noBar, isCut⟩ := bar_not_mem_join someKept fun atom isKept => (firmAtoms atom (subset isKept)).2
    refine ⟨List.cons_ne_nil _ _, fun member isMember => ?_⟩
    rw [List.mem_singleton.mp isMember]
    exact ⟨noBar, fun atom isAtom => (firmAtoms atom (subset (isCut ▸ isAtom))).1⟩

section Level

variable (nested : inner.Firm ctx)

include nested

theorem Single.firm {p : List String} {type : DocType} {grip : List Suffix}
    (good : ∀ token ∈ p, NamesFirm ctx token) (single : Single settled inner p type grip) :
    ctx.classes.FirmType type := by
  cases single with
  | plain base =>
    cases base with
    | grouped inside => exact nested.anyType (fun token isToken => good token (by simp [isToken])) inside
    | basic _ basic => exact nested.basicType good basic
  | array => exact named.firmType_of_plainWord (by decide)

theorem Intersection.firm {p members : List String} {grip : List Suffix} (good : ∀ token ∈ p, NamesFirm ctx token)
    (derives : Intersection ctx settled inner p members grip) : ctx.classes.FirmType ⟨members⟩ := by
  obtain ⟨series, meets⟩ := derives
  obtain ⟨some, each⟩ := series.forall_of_tokens good fun _ _ _ good single => single.firm named nested good
  exact meets.firm named some each

theorem AnyType.firm {bracketed : Bool} {p : List String} {type : DocType} {grip : Grip}
    (good : ∀ token ∈ p, NamesFirm ctx token) (derives : AnyType ctx settled inner bracketed p type grip) :
    ctx.classes.FirmType type := by
  cases derives with
  | conditional _ _ isYes isNo =>
    have yes := nested.anyType (fun token isToken => good token (by simp [isToken])) isYes
    have no := nested.anyType (fun token isToken => good token (by simp [isToken])) isNo
    exact FirmType.normalUnion named (yes.append no.firm)
  | nullable single =>
    have single := single.firm named nested fun token isToken => good token (List.mem_cons_of_mem _ isToken)
    refine FirmType.normalUnion named (single.append fun member isNull => ?_)
    rw [List.mem_singleton.mp isNull]
    exact named.firmMember_of_plainWord (by decide)
  | union _ series =>
    obtain ⟨some, each⟩ := series.forall_of_tokens good fun _ _ _ good group => group.firm named nested good
    refine FirmType.normalUnion named ⟨?_, fun member isMember => ?_⟩
    · obtain ⟨group, isGroup⟩ := List.exists_mem_of_ne_nil _ some
      obtain ⟨member, isMember⟩ := List.exists_mem_of_ne_nil _ (each group isGroup).nonempty
      exact List.ne_nil_of_mem (List.mem_flatten.mpr ⟨group, isGroup, isMember⟩)
    · obtain ⟨group, isGroup, inGroup⟩ := List.mem_flatten.mp isMember
      exact (each group isGroup).firm member inGroup

end Level

theorem firm_derivations (n : Nat) : (derivations ctx settled n).Firm ctx := by
  induction n with
  | zero => exact ⟨fun _ derives => derives.elim, fun _ derives => derives.elim⟩
  | succ n ih => exact ⟨fun good derives => derives.firm named ih good, fun good derives => derives.firm named good⟩

/-- A type that is read where all tokens ahead name firm atoms is firm. -/
theorem firm_delimitedType {c after : Cursor} {type : DocType} (good : ∀ token ∈ c.texts, NamesFirm ctx token)
    (reads : Reads (delimitedType ctx) c type after) : ctx.classes.FirmType type := by
  obtain ⟨p, grip, texts, derives, _⟩ := ((exact_level ctx ctx.limit).readsType c trivial type after.texts).mp
    ⟨after, (reads_delimitedType.mp reads).1, rfl⟩
  exact (firm_derivations named ctx.limit).anyType
    (fun token isToken => good token (texts ▸ List.mem_append_left _ isToken)) derives

end Derived

end Grammar

theorem DocType.text_ofText (text : String) : (DocType.ofText text).text = text :=
  Text.join_split '|' text

namespace Scope

open Grammar

/-- A text without marks is one atom. -/
theorem whole_ofText {text : String} (some : text ≠ "") (free : '|' ∉ text.toList ∧ '&' ∉ text.toList) :
    (DocType.ofText text).Whole := by
  have single : ∀ member ∈ Text.split '|' (DocType.ofText text).text, member = text := by
    intro member isMember
    rwa [DocType.text_ofText, Text.split_of_not_mem free.1, List.mem_singleton] at isMember
  refine ⟨?_, fun member isMember => single member isMember ▸ some, fun member isMember atom isAtom => ?_⟩
  · rwa [DocType.text_ofText]
  rw [single member isMember, DocType.atoms, Text.split_of_not_mem free.2, List.mem_singleton] at isAtom
  exact isAtom ▸ some

theorem ne_empty_of_full {name : String} (full : isFullName name) : name ≠ "" := by
  rintro rfl
  exact absurd full (by decide)

section

variable {scope : Scope} (full : scope.FullyNamed)

include full

theorem FullyNamed.whole_resolveDocName
    (bounds : ∀ name bound, scope.templates.find? name = some bound → (DocType.ofText bound).Whole) {token : String}
    (some : token ≠ "") (free : '|' ∉ token.toList ∧ '&' ∉ token.toList) :
    (DocType.ofText (scope.resolveDocName token)).Whole := by
  unfold resolveDocName
  split
  · exact whole_ofText some free
  · split
    next target imported =>
      have listed : target ∈ scope.imports.entries.map Prod.snd :=
        List.mem_map_of_mem (f := Prod.snd) (ClassTable.lookup_mem imported)
      obtain ⟨isFull, free⟩ := full.names target (by simp [listed])
      exact whole_ofText (ne_empty_of_full isFull) free
    next =>
      split
      next bound isBound => exact bounds token bound isBound
      next =>
        have nonempty : scope.qualify token ≠ "" := fun none => by
          have chars := congrArg String.toList none
          simp [qualify] at chars
        exact whole_ofText nonempty (by simp [qualify, full.ns_free, free])

theorem FullyNamed.whole_resolved
    (bounds : ∀ name bound, scope.templates.find? name = some bound → (DocType.ofText bound).Whole)
    {token text : String} (free : isClassName token → '|' ∉ token.toList ∧ '&' ∉ token.toList)
    (resolved : scope.resolved? token = some text) : (DocType.ofText text).Whole := by
  have ofOption : ∀ {name : Option String} {word : String},
      (∀ given ∈ name, given ∈ scope.imports.entries.map Prod.snd ++
      scope.className.toList ++ scope.parentName.toList) → (DocType.ofText word).Whole →
      (DocType.ofText (name.getD word)).Whole := by
    intro name word known whole
    cases name with
    | none => exact whole
    | some given =>
      obtain ⟨isFull, free⟩ := full.names given (known given rfl)
      exact whole_ofText (ne_empty_of_full isFull) free
  cases head : Head.ofToken scope token with
  | self =>
    simp only [Scope.resolved?, head, Option.some.injEq] at resolved
    subst resolved
    exact ofOption (by simp +contextual) (whole_ofText (by decide) (by decide))
  | parent =>
    simp only [Scope.resolved?, head, Option.some.injEq] at resolved
    subst resolved
    exact ofOption (by simp +contextual) (whole_ofText (by decide) (by decide))
  | static =>
    simp only [Scope.resolved?, head, Option.some.injEq] at resolved
    subst resolved
    unfold resolveStatic
    cases inClass : scope.className with
    | none => exact whole_ofText (by decide) (by decide)
    | some name =>
      obtain ⟨_, free⟩ := full.names name (by simp [inClass])
      have nonempty : "static(" ++ name ++ ")" ≠ "" := fun none => by
        have chars := congrArg String.toList none
        simp at chars
      exact whole_ofText nonempty (by simp [free])
  | closure =>
    simp only [Scope.resolved?, head, Option.some.injEq] at resolved
    have announced : Head.closure.Announced _ _ _ := head ▸ Head.ofToken_eq scope token ▸ announced_ofWord
    have isClosure : scope.resolveDocName token = "\\Closure" := by simpa using announced.1
    rw [← resolved, isClosure]
    exact whole_ofText (by decide) (by decide)
  | className =>
    simp only [Scope.resolved?, head, Option.some.injEq] at resolved
    have isName := Head.isClassName_of_ofToken head
    have nonempty : token ≠ "" := by
      rintro rfl
      exact absurd isName (by decide)
    exact resolved ▸ full.whole_resolveDocName bounds nonempty (free isName)
  | _ => simp [Scope.resolved?, head] at resolved

end

end Scope

namespace ClassTable

open Grammar

variable {classes : ClassTable}

/-- The tokens of a text name firm atoms where no class that it names lies on a cycle. -/
theorem NamesNoCycle.namesFirm {scope : Scope} {text : String} (full : scope.FullyNamed)
    (bounds : ∀ name bound, scope.templates.find? name = some bound → (DocType.ofText bound).Whole)
    (apart : classes.NamesNoCycle scope text) (wide : Bool) :
    ∀ token ∈ (Cursor.ofText text.toList).texts, NamesFirm { classes, scope, wide } token := by
  intro word isWord atom isAtom
  obtain ⟨token, isToken, rfl⟩ := List.mem_map.mp isWord
  have free : isClassName token.text → '|' ∉ token.text.toList ∧ '&' ∉ token.text.toList := fun isName =>
    ⟨plain_of_scanFrom (by decide) (by simp [Token.continuesWord]) 0 false text.toList token isToken isName,
      plain_of_scanFrom (by decide) (by simp [Token.continuesWord]) 0 false text.toList token isToken isName⟩
  refine ⟨?_, apart token isToken atom isAtom⟩
  obtain ⟨resolved, isResolved, inResolved⟩ := List.mem_flatMap.mp isAtom
  obtain ⟨member, isMember, isPart⟩ := List.mem_flatMap.mp inResolved
  have whole := full.whole_resolved bounds free (by simpa using isResolved)
  exact whole.atom_ne member (by rwa [DocType.text_ofText]) atom isPart

theorem Produced.firmType (named : classes.WellNamed) {type : DocType} (produced : classes.Produced type) :
    classes.FirmType type := by
  induction produced with
  | @typedName scope text extent wide type full _ apart read ih =>
    obtain ⟨found, after, reads, rfl⟩ := readTypedName_type read
    have firm := firm_delimitedType named
      (apart.namesFirm full (fun name bound isBound => (ih name bound isBound).whole) wide) reads
    split
    · exact FirmType.withNull named firm
    · exact firm
  | @template scope text type full _ apart read ih =>
    rcases readTemplate_bound read with rfl | ⟨n, after, reads⟩
    · exact named.firmType_of_plainWord (by decide)
    · refine firm_delimitedType named (fun token isToken => ?_) reads
      rw [Cursor.texts_skip] at isToken
      exact apart.namesFirm full (fun name bound isBound => (ih name bound isBound).whole) false token
        (List.mem_of_mem_drop isToken)

/-- No type that is read has an empty part, in scopes of full names whose template bounds are such types, as long as
no class that is named lies on a cycle. Other classes may inherit from each other. -/
theorem read_type_whole (named : classes.WellNamed) {scope : Scope} (full : scope.FullyNamed)
    (bounds : ∀ name bound, scope.templates.find? name = some bound → classes.Produced (.ofText bound))
    {text : String} (apart : classes.NamesNoCycle scope text) {extent : Extent} {wide : Bool} {type : DocType}
    (read : (classes.readTypedName scope text extent wide).type = some type) : type.Whole :=
  ((Produced.typedName full bounds apart read).firmType named).whole

theorem read_type_whole_bounded :
    cyclicTable.WellNamed ∧ cyclicTable.OnCycle "\\A" ∧
      Scope.FullyNamed (.bindTemplate .root "T" "\\Bar&\\Foo|int") ∧
      cyclicTable.Produced (.ofText "\\Bar&\\Foo|int") ∧
      cyclicTable.NamesNoCycle (.bindTemplate .root "T" "\\Bar&\\Foo|int") "T|(Baz&\\Iterator)|string $x = null" ∧
      (cyclicTable.readTypedName (.bindTemplate .root "T" "\\Bar&\\Foo|int") "T|(Baz&\\Iterator)|string $x = null"
        .withDefault true).type = some ⟨["\\Bar&\\Foo", "\\Baz&\\Iterator", "array-key", "int", "null", "string"]⟩ ∧
      DocType.Whole ⟨["\\Bar&\\Foo", "\\Baz&\\Iterator", "array-key", "int", "null", "string"]⟩ := by
  have named : cyclicTable.WellNamed := by decide
  have apartIn : ∀ scope text, (∀ token ∈ (Token.scan text.toList).tokens, ∀ atom ∈ scope.namedAtoms token.text,
      atom ∉ cyclicTable.superTypes atom) → cyclicTable.NamesNoCycle scope text :=
    fun scope text none token isToken atom isAtom cycle =>
      none token isToken atom isAtom (named.onCycle_iff.mp cycle)
  have bound : cyclicTable.Produced (.ofText "\\Bar&\\Foo|int") := by
    have read : (cyclicTable.readTypedName .root "int|\\Foo&\\Bar" .typeOnly false).type =
        some (.ofText "\\Bar&\\Foo|int") := by decide +kernel
    refine .typedName (by decide) (fun name bound isBound => ?_) (apartIn _ _ (by decide +kernel)) read
    simp [Scope.root, NameMap.find?, NameMap.empty] at isBound
  have apart := apartIn (.bindTemplate .root "T" "\\Bar&\\Foo|int") "T|(Baz&\\Iterator)|string $x = null"
    (by decide +kernel)
  have read : (cyclicTable.readTypedName (.bindTemplate .root "T" "\\Bar&\\Foo|int")
      "T|(Baz&\\Iterator)|string $x = null" .withDefault true).type =
      some ⟨["\\Bar&\\Foo", "\\Baz&\\Iterator", "array-key", "int", "null", "string"]⟩ := by decide +kernel
  exact ⟨named, named.onCycle_iff.mpr (by decide +kernel), by decide, bound, apart, read,
    read_type_whole named (by decide) (fun name text isBound => Scope.eq_of_find?_bindTemplate isBound ▸ bound)
      apart read⟩

/-- Two classes that inherit from each other take each other out of their intersection, and what is left is written
with nothing. -/
theorem cyclic_intersection_empty :
    cyclicTable.WellNamed ∧ Scope.FullyNamed .root ∧ (∀ name, Scope.root.templates.find? name = none) ∧
      (cyclicTable.readTypedName .root "\\A&\\B" .typeOnly false).type = some ⟨[""]⟩ ∧
      DocType.text ⟨[""]⟩ = "" ∧ ¬ DocType.Whole ⟨[""]⟩ :=
  ⟨by decide, by decide, fun _ => rfl, by decide +kernel, by decide, fun whole => whole.text_ne (by decide)⟩

end ClassTable

end DocTypes
