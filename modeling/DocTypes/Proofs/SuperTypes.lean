import DocTypes.Proofs.BreadthFirst
import DocTypes.Proofs.SuperTypeSearch

namespace DocTypes

namespace Atom

/-- The words with a list of supertypes of their own. -/
def words : List String :=
  ["int", "string", "callable-string", "array-key", "float", "bool", "array", "static", "self", "parent"]

theorem view_of_not_word {atom : String} (notWord : atom ∉ words) :
    view atom =
      match staticBound? atom with
      | some name => .boundStatic name
      | none => if atom.toList.head? = some '\\' then .className else .unknown := by
  unfold view
  split
  case h_11 => rfl
  all_goals simp [words] at notWord

theorem view_of_full {atom : String} (full : Scope.isFullName atom) : view atom = .className := by
  have head : atom.toList.head? = some '\\' := by simpa [Scope.isFullName] using full
  have notWord : atom ∉ words := by
    have none_full : ∀ word ∈ words, ¬ Scope.isFullName word := by decide
    exact fun member => none_full atom member full
  have noBound : staticBound? atom = none := by
    unfold staticBound?
    rw [if_neg]
    intro isStatic
    obtain ⟨rest, text⟩ := List.isPrefixOf_iff_prefix.mp isStatic
    rw [← text] at head
    simp at head
  simp [view_of_not_word notWord, noBound, head]

theorem staticBound?_static (name : String) : staticBound? ("static(" ++ name ++ ")") = some name := by
  simp [staticBound?, List.isPrefixOf]

/-- An atom `static(X)` is spelled so. -/
theorem eq_static_of_staticBound? {atom name : String} (bound : staticBound? atom = some name) :
    atom = "static(" ++ name ++ ")" := by
  unfold staticBound? at bound
  split at bound
  next isStatic =>
    obtain ⟨rest, text⟩ := List.isPrefixOf_iff_prefix.mp isStatic
    have dropped : atom.toList.drop 7 = rest := by
      rw [← text]
      rfl
    rw [dropped] at bound
    split at bound
    next last reversed =>
      cases Option.some.inj bound
      have rest_eq : rest = last.reverse ++ [')'] := by
        rw [← List.reverse_reverse rest, reversed, List.reverse_cons]
      apply String.toList_injective
      rw [← text, rest_eq]
      simp
    next => simp at bound
  next => simp at bound

theorem view_static (name : String) : view ("static(" ++ name ++ ")") = .boundStatic name := by
  have notWord : "static(" ++ name ++ ")" ∉ words := by
    have none_bound : ∀ word ∈ words, staticBound? word = none := by decide
    intro member
    have bound := none_bound _ member
    rw [staticBound?_static] at bound
    simp at bound
  simp only [view_of_not_word notWord, staticBound?_static]

theorem length_static (name : String) : ("static(" ++ name ++ ")").length = name.length + 8 := by
  simp only [String.length_append, show "static(".length = 7 by decide, show ")".length = 1 by decide]
  omega

/-- The supertypes that a word has by itself. -/
def ladder (atom : String) : List String :=
  match view atom with
  | .word supers => supers
  | _ => []

theorem view_word {atom : String} (word : atom ∈ words) : view atom = .word (ladder atom) := by
  have each : ∀ word ∈ words, view word = .word (ladder word) := by decide
  exact each atom word

/-- A ladder leads to words and to types with no supertypes, and is closed. -/
theorem ladder_closed : ∀ word ∈ words, ∀ middle ∈ ladder word,
    (middle ∈ words ∨ view middle = .unknown) ∧ ∀ upper ∈ ladder middle, upper ∈ ladder word := by decide

/-- The four kinds of atoms. -/
theorem kinds (atom : String) :
    atom ∈ words ∨ Scope.isFullName atom ∨ (∃ name, atom = "static(" ++ name ++ ")") ∨
      view atom = .unknown := by
  by_cases word : atom ∈ words
  · exact Or.inl word
  · cases bound : staticBound? atom with
    | some name => exact Or.inr (Or.inr (Or.inl ⟨name, eq_static_of_staticBound? bound⟩))
    | none =>
      by_cases full : Scope.isFullName atom
      · exact Or.inr (Or.inl full)
      · have head : ¬ atom.toList.head? = some '\\' := by simpa [Scope.isFullName] using full
        have seen := view_of_not_word word
        simp only [bound, head, if_false] at seen
        exact Or.inr (Or.inr (Or.inr seen))

end Atom

namespace ClassTable

/-- The search from a name without edges that can be inherited finds `object` at most. -/
theorem search?_leaf {classes : ClassTable} {name : String} (isSuper : IsSuperName name)
    (leaf : classes.edges? name = none) : ∃ extras, classes.search? name = some extras ∧ extras ⊆ ["object"] := by
  rcases isSuper with full | rfl | rfl
  · refine ⟨["object"], ?_, List.Subset.refl _⟩
    rw [search?, Atom.view_of_full full, leaf]
    exact classes.reach?_nil _
  · exact ⟨[], by rw [search?, show Atom.view "callable" = .unknown by decide], List.nil_subset _⟩
  · exact ⟨[], by rw [search?, show Atom.view "iterable" = .unknown by decide], List.nil_subset _⟩

theorem WellNamed.walkable {classes : ClassTable} (named : classes.WellNamed) {start : List String}
    (supers : ∀ name ∈ start, IsSuperName name) (base : List String) (base_words : base ⊆ staticWords)
    (object : "object" ∈ base) : classes.Walkable start base := by
  have reached : ∀ level name, classes.AtLevel start level name → IsSuperName name := by
    rintro level name ⟨origin, member, path⟩
    exact named.inheritsIn_super path (supers origin member)
  refine ⟨?_, ?_, ?_⟩
  · intro level name atLevel
    exact (reached level name atLevel).not_mem_of_words.1
  · intro level name atLevel member
    exact (reached level name atLevel).not_mem_of_words.2 (base_words member)
  · intro level name atLevel leaf
    obtain ⟨extras, isSearch, subset⟩ := search?_leaf (reached level name atLevel) leaf
    refine ⟨extras, isSearch, fun extra member => ?_⟩
    rw [List.mem_singleton.mp (subset member)]
    exact object

/-- What a class leads to in one step or more is what its immediate supertypes lead to. -/
theorem atLevel_edges_iff {classes : ClassTable} {name other : String} {depth : Nat} :
    classes.AtLevel ((classes.edges? name).getD []) depth other ↔
      classes.InheritsIn (depth + 1) name other := by
  rw [inheritsIn_succ_first]
  constructor
  · rintro ⟨origin, member, path⟩
    cases edges : classes.edges? name with
    | none => simp [edges] at member
    | some next =>
      rw [edges, Option.getD_some] at member
      exact ⟨origin, ⟨next, edges, member⟩, path⟩
  · rintro ⟨origin, ⟨next, edges, member⟩, path⟩
    exact ⟨origin, by rwa [edges, Option.getD_some], path⟩

theorem inheritanceDistance_eq_levelOf {classes : ClassTable} {name other : String} {depth : Nat}
    (reached : classes.AtLevel ((classes.edges? name).getD []) depth other) :
    classes.inheritanceDistance name other =
      classes.levelOf ((classes.edges? name).getD []) other + 1 := by
  have lowest := atLevel_edges_iff.mp (atLevel_levelOf reached)
  obtain ⟨positive, path⟩ := inheritsIn_inheritanceDistance lowest (by omega)
  have upper := inheritanceDistance_le lowest (by omega)
  obtain ⟨distance, same⟩ := Nat.exists_eq_add_of_lt positive
  rw [Nat.zero_add] at same
  rw [same] at path upper ⊢
  have lower := levelOf_le (atLevel_edges_iff.mpr path)
  omega

/-- The search from a class ends: it finds `object`, and behind it what the class inherits from. -/
theorem WellNamed.search?_class {classes : ClassTable} (named : classes.WellNamed) {name : String}
    (full : Scope.isFullName name) :
    ∃ order, classes.search? name = some ("object" :: order) ∧
      classes.IsBreadthFirst ((classes.edges? name).getD []) order := by
  have supers : ∀ upper ∈ (classes.edges? name).getD [], IsSuperName upper := by
    intro upper member
    cases edges : classes.edges? name with
    | none => simp [edges] at member
    | some next =>
      rw [edges, Option.getD_some] at member
      exact named.inherits_super ⟨next, edges, member⟩
  obtain ⟨order, result, listing⟩ := reach?_isBreadthFirst
    (named.walkable supers ["object"] (by decide) (by decide))
  refine ⟨order, ?_, listing⟩
  rw [search?, Atom.view_of_full full]
  exact result

/-- The search from `static(X)` for a class `X` ends: it finds four words, and behind them what the class leads
to, itself included. -/
theorem WellNamed.search?_static {classes : ClassTable} (named : classes.WellNamed) {name : String}
    (full : Scope.isFullName name) :
    ∃ order, classes.search? ("static(" ++ name ++ ")") = some (staticWords ++ order) ∧
      classes.IsBreadthFirst [name] order := by
  have supers : ∀ upper ∈ [name], IsSuperName upper := by
    intro upper member
    rw [List.mem_singleton.mp member]
    exact Or.inl full
  obtain ⟨order, result, listing⟩ := reach?_isBreadthFirst
    (named.walkable supers staticWords (by simp) (by decide))
  refine ⟨order, ?_, listing⟩
  rw [search?, Atom.view_static]
  exact result

/-- The search from `static(X)` where `X` has no edges leads to a search from `X`. -/
theorem search?_static_leaf {classes : ClassTable} {name : String} (leaf : classes.edges? name = none) :
    classes.search? ("static(" ++ name ++ ")") =
      if name = "" ∨ name ∈ staticWords then some staticWords
      else (classes.search? name).map (appendNew (staticWords ++ [name])) := by
  rw [search?, Atom.view_static]
  simp only [reach?, leaf]
  cases classes.search? name <;> rfl

theorem WellNamed.edges?_of_not_full {classes : ClassTable} (named : classes.WellNamed) {name : String}
    (notFull : ¬ Scope.isFullName name) : classes.edges? name = none := by
  cases edges : classes.edges? name with
  | none => rfl
  | some next => exact absurd (named.edges_full edges) notFull

theorem superTypes_of_search {classes : ClassTable} {atom : String} {result : List String}
    (isSearch : classes.search? atom = some result) : classes.superTypes atom = result := by
  rw [superTypes_eq, isSearch, Option.getD_some]

/-- Every search ends. The induction is on the length of the atom: only `static(X)` leads to a search that is not
from a class or a word, and that is from the shorter `X`. -/
theorem WellNamed.search?_eq {classes : ClassTable} (named : classes.WellNamed) (atom : String) :
    classes.search? atom = some (classes.superTypes atom) := by
  have ends : ∃ result, classes.search? atom = some result := by
    induction length : atom.length using Nat.strongRecOn generalizing atom with
    | ind size ih =>
      rcases Atom.kinds atom with word | full | ⟨name, rfl⟩ | unknown
      · exact ⟨_, by rw [search?, Atom.view_word word]⟩
      · obtain ⟨order, result, _⟩ := named.search?_class full
        exact ⟨_, result⟩
      · by_cases full : Scope.isFullName name
        · obtain ⟨order, result, _⟩ := named.search?_static full
          exact ⟨_, result⟩
        · rw [Atom.length_static] at length
          obtain ⟨extras, isSearch⟩ := ih name.length (by omega) name rfl
          rw [search?_static_leaf (named.edges?_of_not_full full), isSearch]
          split
          next => exact ⟨_, rfl⟩
          next => exact ⟨_, rfl⟩
      · exact ⟨_, by rw [search?, unknown]⟩
  obtain ⟨result, isSearch⟩ := ends
  rw [superTypes_of_search isSearch, isSearch]

/-- Every search comes to an end with the supertypes, and with nothing else. -/
theorem WellNamed.searches_iff {classes : ClassTable} (named : classes.WellNamed) {atom : String}
    {result : List String} : classes.Searches (.supers atom) result ↔ result = classes.superTypes atom := by
  rw [searches_iff_outcome, Search.outcome?, named.search?_eq, Option.some_inj, eq_comm]

/-- A breadth-first listing from one name starts with that name. -/
theorem IsBreadthFirst.head {classes : ClassTable} {name : String} {order : List String}
    (listing : classes.IsBreadthFirst [name] order) : ∃ rest, order = name :: rest := by
  have origin : classes.AtLevel [name] 0 name := ⟨name, List.mem_singleton_self name, .refl name⟩
  cases order with
  | nil => exact absurd ((listing.mem_iff name).mpr ⟨0, origin⟩) List.not_mem_nil
  | cons first rest =>
    rcases List.mem_cons.mp ((listing.mem_iff name).mpr ⟨0, origin⟩) with same | member
    · exact ⟨rest, by rw [same]⟩
    · obtain ⟨depth, reached⟩ := (listing.mem_iff first).mp (List.mem_cons_self ..)
      have nearer := (List.pairwise_cons.mp listing.sorted).1 name member
      have lowest := atLevel_levelOf reached
      have zero : classes.levelOf [name] first = 0 := by
        have bound := levelOf_le origin
        omega
      obtain ⟨other, same, path⟩ := zero ▸ lowest
      rw [inheritsIn_zero] at path
      rw [List.mem_singleton] at same
      exact ⟨rest, by rw [← path, same]⟩

theorem IsBreadthFirst.mem_edges_iff {classes : ClassTable} {name : String} {order : List String}
    (listing : classes.IsBreadthFirst ((classes.edges? name).getD []) order) (other : String) :
    other ∈ order ↔ ∃ steps, 0 < steps ∧ classes.InheritsIn steps name other := by
  rw [listing.mem_iff]
  constructor
  · rintro ⟨depth, reached⟩
    exact ⟨depth + 1, by omega, atLevel_edges_iff.mp reached⟩
  · rintro ⟨steps, positive, path⟩
    obtain ⟨depth, rfl⟩ := Nat.exists_eq_add_of_lt positive
    rw [Nat.zero_add] at path
    exact ⟨depth, atLevel_edges_iff.mpr path⟩

theorem IsBreadthFirst.mem_singleton_iff {classes : ClassTable} {name : String} {order : List String}
    (listing : classes.IsBreadthFirst [name] order) (other : String) :
    other ∈ order ↔ ∃ steps, classes.InheritsIn steps name other := by
  rw [listing.mem_iff]
  simp [AtLevel]

theorem WellNamed.inheritsIn_not_word {classes : ClassTable} (named : classes.WellNamed) {name other : String}
    {steps : Nat} (full : Scope.isFullName name) (path : classes.InheritsIn steps name other) :
    other ∉ staticWords :=
  (named.inheritsIn_super path (Or.inl full)).not_mem_of_words.2

/-- The supertypes of a class are `object` and then exactly what it inherits from, each name once and
nearer ones first, itself only on a cycle. Those of a `static` bound to it are four words, the class
and what else it inherits from. Both searches end, with these lists. Tables may hold cycles. -/
theorem superTypes_inheritance_closure {classes : ClassTable} (named : classes.WellNamed) {name : String}
    (full : Scope.isFullName name) :
    (classes.Searches (.supers name) (classes.superTypes name) ∧
      ∃ order, classes.superTypes name = "object" :: order ∧ (classes.superTypes name).Nodup ∧
      (∀ other, other ∈ order ↔
        other ≠ "object" ∧ ∃ steps, 0 < steps ∧ classes.InheritsIn steps name other) ∧
      order.Pairwise (fun a b =>
        classes.inheritanceDistance name a ≤ classes.inheritanceDistance name b) ∧
      (name ∈ classes.superTypes name → ∃ steps, 0 < steps ∧ classes.InheritsIn steps name name)) ∧
    classes.Searches (.supers ("static(" ++ name ++ ")")) (classes.superTypes ("static(" ++ name ++ ")")) ∧
    ∃ rest, classes.superTypes ("static(" ++ name ++ ")") = staticWords ++ name :: rest ∧
      (classes.superTypes ("static(" ++ name ++ ")")).Nodup ∧
      ∀ other, other ∈ rest ↔
        other ∉ staticWords ++ [name] ∧ ∃ steps, classes.InheritsIn steps name other := by
  refine ⟨⟨named.searches_iff.mpr rfl, ?_⟩, named.searches_iff.mpr rfl, ?_⟩
  · obtain ⟨order, result, listing⟩ := named.search?_class full
    have not_object : ∀ other ∈ order, other ≠ "object" := by
      rintro other member rfl
      obtain ⟨steps, _, path⟩ := (listing.mem_edges_iff _).mp member
      exact named.inheritsIn_not_word full path (by decide)
    have whole : classes.superTypes name = "object" :: order := superTypes_of_search result
    refine ⟨order, whole, ?_, ?_, ?_, ?_⟩
    · rw [whole]
      exact List.nodup_cons.mpr ⟨fun member => not_object _ member rfl, listing.nodup⟩
    · intro other
      rw [← listing.mem_edges_iff]
      exact ⟨fun member => ⟨not_object other member, member⟩, And.right⟩
    · refine listing.sorted.imp_of_mem ?_
      intro a b atA atB ordered
      obtain ⟨_, reachedA⟩ := (listing.mem_iff a).mp atA
      obtain ⟨_, reachedB⟩ := (listing.mem_iff b).mp atB
      rw [inheritanceDistance_eq_levelOf reachedA, inheritanceDistance_eq_levelOf reachedB]
      omega
    · intro member
      rw [whole, List.mem_cons] at member
      have different : name ≠ "object" := by
        rintro rfl
        exact absurd full (by decide)
      exact (listing.mem_edges_iff name).mp (member.resolve_left different)
  · obtain ⟨order, result, listing⟩ := named.search?_static full
    obtain ⟨rest, rfl⟩ := listing.head
    have name_fresh := (List.nodup_cons.mp listing.nodup).1
    have words_fresh : ∀ other ∈ name :: rest, other ∉ staticWords := by
      intro other member
      obtain ⟨steps, path⟩ := (listing.mem_singleton_iff other).mp member
      exact named.inheritsIn_not_word full path
    have whole : classes.superTypes ("static(" ++ name ++ ")") = staticWords ++ name :: rest :=
      superTypes_of_search result
    refine ⟨rest, whole, ?_, ?_⟩
    · rw [whole, List.nodup_append]
      refine ⟨by decide, listing.nodup, ?_⟩
      intro word isWord other member same
      exact words_fresh other member (same ▸ isWord)
    · intro other
      rw [List.mem_append, List.mem_singleton, not_or, ← listing.mem_singleton_iff other]
      constructor
      · intro member
        have inOrder := List.mem_cons_of_mem name member
        exact ⟨⟨words_fresh other inOrder, fun same => name_fresh (same ▸ member)⟩, inOrder⟩
      · rintro ⟨⟨_, different⟩, member⟩
        exact (List.mem_cons.mp member).resolve_left different

/-- Two classes that inherit from each other, one of them countable. -/
def cyclicTable : ClassTable :=
  ⟨[("\\A", ⟨some "\\B", []⟩), ("\\B", ⟨some "\\A", ["\\Countable"]⟩)]⟩

theorem superTypes_inheritance_closure_cycle :
    cyclicTable.WellNamed ∧ cyclicTable.superTypes "\\A" = ["object", "\\B", "\\A", "\\Countable"] ∧
      cyclicTable.Searches (.supers "\\A") ["object", "\\B", "\\A", "\\Countable"] ∧
      (∃ steps, 0 < steps ∧ cyclicTable.InheritsIn steps "\\A" "\\A") ∧
      ∃ rest, cyclicTable.superTypes ("static(" ++ "\\A" ++ ")") = staticWords ++ "\\A" :: rest ∧
        "\\Countable" ∈ rest := by
  have named : cyclicTable.WellNamed := by decide
  have listed : cyclicTable.superTypes "\\A" = ["object", "\\B", "\\A", "\\Countable"] := by decide
  have full : Scope.isFullName "\\A" := by decide
  obtain ⟨⟨ends, _, _, _, _, _, cycle⟩, _, rest, bound, _, member⟩ := superTypes_inheritance_closure named full
  have first : cyclicTable.Inherits "\\A" "\\B" := ⟨["\\B"], by decide, by decide⟩
  have second : cyclicTable.Inherits "\\B" "\\Countable" := ⟨["\\A", "\\Countable"], by decide, by decide⟩
  have path : cyclicTable.InheritsIn 2 "\\A" "\\Countable" := .step (.step (.refl "\\A") first) second
  exact ⟨named, listed, listed ▸ ends, cycle (by rw [listed]; decide), rest, bound,
    (member _).mpr ⟨by decide, 2, path⟩⟩

theorem mem_appendNew {found extras : List String} {name : String} :
    name ∈ appendNew found extras ↔ name ∈ found ∨ name ∈ extras := by
  induction extras generalizing found with
  | nil => simp [appendNew]
  | cons extra extras ih =>
    have unfolded : appendNew found (extra :: extras) =
        appendNew (if found.contains extra then found else found ++ [extra]) extras := rfl
    rw [unfolded, ih, List.mem_cons]
    by_cases known : extra ∈ found
    · simp only [List.contains_iff_mem, known, if_true]
      constructor
      · rintro (old | new)
        · exact Or.inl old
        · exact Or.inr (Or.inr new)
      · rintro (old | rfl | new)
        · exact Or.inl old
        · exact Or.inl known
        · exact Or.inr new
    · simp only [List.contains_iff_mem, known, if_false, List.mem_append, List.mem_singleton, or_assoc]

theorem superTypes_word (classes : ClassTable) {atom : String} (word : atom ∈ Atom.words) :
    classes.superTypes atom = Atom.ladder atom :=
  superTypes_of_search (by rw [search?, Atom.view_word word])

theorem superTypes_unknown (classes : ClassTable) {atom : String} (unknown : Atom.view atom = .unknown) :
    classes.superTypes atom = [] :=
  superTypes_of_search (by rw [search?, unknown])

theorem superTypes_staticWord (classes : ClassTable) {word : String} (isWord : word ∈ staticWords) :
    classes.superTypes word ⊆ staticWords := by
  have kinds : ∀ word ∈ staticWords, word ∈ Atom.words ∧ Atom.ladder word ⊆ staticWords ∨
      Atom.view word = .unknown := by decide
  rcases kinds word isWord with ⟨hasLadder, subset⟩ | unknown
  · rwa [superTypes_word classes hasLadder]
  · rw [superTypes_unknown classes unknown]
    exact List.nil_subset _

theorem WellNamed.mem_superTypes_class {classes : ClassTable} (named : classes.WellNamed)
    {name other : String} (full : Scope.isFullName name) :
    other ∈ classes.superTypes name ↔
      other = "object" ∨ ∃ steps, 0 < steps ∧ classes.InheritsIn steps name other := by
  obtain ⟨order, result, listing⟩ := named.search?_class full
  rw [superTypes_of_search result, List.mem_cons, listing.mem_edges_iff]

/-- The supertypes of `static(X)` for any `X`: besides the four words, `X` and its own supertypes. -/
theorem WellNamed.mem_superTypes_static {classes : ClassTable} (named : classes.WellNamed)
    {name other : String} :
    other ∈ classes.superTypes ("static(" ++ name ++ ")") ↔
      other ∈ staticWords ∨ name ≠ "" ∧ (other = name ∨ other ∈ classes.superTypes name) := by
  by_cases full : Scope.isFullName name
  · obtain ⟨order, result, listing⟩ := named.search?_static full
    have nonempty : name ≠ "" := by
      rintro rfl
      exact absurd full (by decide)
    rw [superTypes_of_search result, List.mem_append, listing.mem_singleton_iff, named.mem_superTypes_class full]
    constructor
    · rintro (word | ⟨steps, path⟩)
      · exact Or.inl word
      · cases steps with
        | zero => exact Or.inr ⟨nonempty, Or.inl (inheritsIn_zero.mp path).symm⟩
        | succ steps => exact Or.inr ⟨nonempty, Or.inr (Or.inr ⟨steps + 1, by omega, path⟩)⟩
    · rintro (word | ⟨_, same | object | ⟨steps, _, path⟩⟩)
      · exact Or.inl word
      · exact Or.inr ⟨0, inheritsIn_zero.mpr same.symm⟩
      · exact Or.inl (object ▸ by decide)
      · exact Or.inr ⟨steps, path⟩
  · -- only full names have edges, so the walk lists the name and what its own search adds
    have step : classes.superTypes ("static(" ++ name ++ ")") =
        if name = "" ∨ name ∈ staticWords then staticWords
        else appendNew (staticWords ++ [name]) (classes.superTypes name) := by
      rw [superTypes_eq, search?_static_leaf (named.edges?_of_not_full full), named.search?_eq]
      split <;> rfl
    rw [step]
    by_cases empty : name = ""
    · simp [empty]
    · by_cases word : name ∈ staticWords
      · have known := classes.superTypes_staticWord word
        rw [if_pos (Or.inr word)]
        constructor
        · exact Or.inl
        · rintro (isWord | ⟨_, same | member⟩)
          · exact isWord
          · exact same ▸ word
          · exact known member
      · rw [if_neg (by simp [empty, word]), mem_appendNew, List.mem_append, List.mem_singleton]
        simp only [ne_eq, empty, not_false_eq_true, true_and, or_assoc]

/-- The supertypes of a supertype are supertypes, whichever of the ladder, the predefined classes, the
table and a bound `static` they come from. The induction is on the length of the lower atom: only
`static(X)` leads back to the supertypes of another atom, which is the shorter `X`. -/
theorem WellNamed.superTypes_trans {classes : ClassTable} (named : classes.WellNamed)
    {lower middle upper : String} (first : middle ∈ classes.superTypes lower)
    (second : upper ∈ classes.superTypes middle) : upper ∈ classes.superTypes lower := by
  induction length : lower.length using Nat.strongRecOn generalizing lower with
  | ind size ih =>
    rcases Atom.kinds lower with word | full | ⟨name, rfl⟩ | unknown
    · rw [superTypes_word classes word] at first ⊢
      obtain ⟨middleKind, closed⟩ := Atom.ladder_closed lower word middle first
      rcases middleKind with middleWord | middleUnknown
      · rw [superTypes_word classes middleWord] at second
        exact closed upper second
      · rw [superTypes_unknown classes middleUnknown] at second
        exact absurd second List.not_mem_nil
    · rw [named.mem_superTypes_class full] at first ⊢
      rcases first with rfl | ⟨below, positive, path⟩
      · rw [superTypes_unknown classes (by decide)] at second
        exact absurd second List.not_mem_nil
      · rcases named.inheritsIn_super path (Or.inl full) with middleFull | rfl | rfl
        · rcases (named.mem_superTypes_class middleFull).mp second with object | ⟨above, _, rest⟩
          · exact Or.inl object
          · exact Or.inr ⟨below + above, by omega, path.trans rest⟩
        · rw [superTypes_unknown classes (by decide)] at second
          exact absurd second List.not_mem_nil
        · rw [superTypes_unknown classes (by decide)] at second
          exact absurd second List.not_mem_nil
    · rw [named.mem_superTypes_static] at first ⊢
      rcases first with word | ⟨nonempty, rfl | inner⟩
      · exact Or.inl (classes.superTypes_staticWord word second)
      · exact Or.inr ⟨nonempty, Or.inr second⟩
      · have shorter : name.length < size := by
          rw [Atom.length_static] at length
          omega
        exact Or.inr ⟨nonempty, Or.inr (ih name.length shorter inner rfl)⟩
    · rw [superTypes_unknown classes unknown] at first
      exact absurd first List.not_mem_nil

end ClassTable

end DocTypes
