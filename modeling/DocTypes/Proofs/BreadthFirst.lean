import DocTypes.Proofs.Inheritance
import Mathlib.Data.List.Basic

namespace DocTypes

namespace ClassTable

/-- Whether a name is a number of steps above one of the names a walk starts from. -/
def AtLevel (classes : ClassTable) (start : List String) (depth : Nat) (name : String) : Prop :=
  ∃ origin ∈ start, classes.InheritsIn depth origin name

/-- The lowest level of a name. -/
noncomputable def levelOf (classes : ClassTable) (start : List String) (name : String) : Nat :=
  sInf {depth | classes.AtLevel start depth name}

theorem AtLevel.next {classes : ClassTable} {start : List String} {depth : Nat} {lower upper : String}
    (level : classes.AtLevel start depth lower) (step : classes.Inherits lower upper) :
    classes.AtLevel start (depth + 1) upper := by
  obtain ⟨origin, member, path⟩ := level
  exact ⟨origin, member, .step path step⟩

theorem atLevel_succ {classes : ClassTable} {start : List String} {depth : Nat} {name : String}
    (level : classes.AtLevel start (depth + 1) name) :
    ∃ lower, classes.AtLevel start depth lower ∧ classes.Inherits lower name := by
  obtain ⟨origin, member, path⟩ := level
  obtain ⟨lower, before, last⟩ := inheritsIn_succ.mp path
  exact ⟨lower, ⟨origin, member, before⟩, last⟩

theorem levelOf_le {classes : ClassTable} {start : List String} {depth : Nat} {name : String}
    (level : classes.AtLevel start depth name) : classes.levelOf start name ≤ depth :=
  Nat.sInf_le level

theorem atLevel_levelOf {classes : ClassTable} {start : List String} {depth : Nat} {name : String}
    (level : classes.AtLevel start depth name) :
    classes.AtLevel start (classes.levelOf start name) name :=
  Nat.sInf_mem (s := {depth | classes.AtLevel start depth name}) ⟨depth, level⟩

/-- The state of a walk between two steps: `here` is the rest of the level `depth`, `later` what is
known of the next one, and `order` what was listed. -/
structure Frontier (classes : ClassTable) (start : List String) (depth : Nat)
    (here later order : List String) : Prop where
  here_level : ∀ name ∈ here, classes.AtLevel start depth name
  later_level : ∀ name ∈ later, classes.AtLevel start (depth + 1) name
  listed_level : ∀ name ∈ order, ∃ level ≤ depth, classes.AtLevel start level name
  below : ∀ level < depth, ∀ name, classes.AtLevel start level name → name ∈ order
  current : ∀ name, classes.AtLevel start depth name → name ∈ order ∨ name ∈ here
  closed : ∀ name ∈ order, ∀ upper, classes.Inherits name upper →
    upper ∈ order ∨ upper ∈ here ∨ upper ∈ later
  nodup : order.Nodup
  sorted : order.Pairwise fun a b => classes.levelOf start a ≤ classes.levelOf start b

theorem Frontier.init (classes : ClassTable) (start : List String) :
    classes.Frontier start 0 start [] [] where
  here_level name member := ⟨name, member, .refl name⟩
  later_level := by simp
  listed_level := by simp
  below := by simp
  current := by
    rintro name ⟨origin, member, path⟩
    rw [inheritsIn_zero] at path
    subst path
    exact Or.inr member
  closed := by simp
  nodup := .nil
  sorted := .nil

/-- When a level is done, the next one is what was queued behind it. -/
theorem Frontier.advance {classes : ClassTable} {start later order : List String} {depth : Nat}
    (front : classes.Frontier start depth [] later order) :
    classes.Frontier start (depth + 1) later [] order where
  here_level := front.later_level
  later_level := by simp
  listed_level name member := by
    obtain ⟨level, bound, atLevel⟩ := front.listed_level name member
    exact ⟨level, by omega, atLevel⟩
  below level bound name atLevel := by
    by_cases same : level = depth
    · subst same
      rcases front.current name atLevel with listed | queued
      · exact listed
      · simp at queued
    · exact front.below level (by omega) name atLevel
  current name atLevel := by
    obtain ⟨lower, before, step⟩ := atLevel_succ atLevel
    have listed : lower ∈ order := by
      rcases front.current lower before with listed | queued
      · exact listed
      · simp at queued
    rcases front.closed lower listed name step with listed | queued | queued
    · exact Or.inl listed
    · simp at queued
    · exact Or.inr queued
  closed name member upper step := by
    rcases front.closed name member upper step with listed | queued | queued
    · exact Or.inl listed
    · simp at queued
    · exact Or.inr (Or.inl queued)
  nodup := front.nodup
  sorted := front.sorted

/-- A name listed before is passed over. -/
theorem Frontier.skip {classes : ClassTable} {start here later order : List String} {depth : Nat}
    {name : String} (front : classes.Frontier start depth (name :: here) later order)
    (listed : name ∈ order) : classes.Frontier start depth here later order where
  here_level other member := front.here_level other (List.mem_cons_of_mem _ member)
  later_level := front.later_level
  listed_level := front.listed_level
  below := front.below
  current other atLevel := by
    rcases front.current other atLevel with known | queued
    · exact Or.inl known
    · rcases List.mem_cons.mp queued with same | rest
      · exact Or.inl (same ▸ listed)
      · exact Or.inr rest
  closed other member upper step := by
    rcases front.closed other member upper step with known | queued | queued
    · exact Or.inl known
    · rcases List.mem_cons.mp queued with same | rest
      · exact Or.inl (same ▸ listed)
      · exact Or.inr (Or.inl rest)
    · exact Or.inr (Or.inr queued)
  nodup := front.nodup
  sorted := front.sorted

/-- A new name is listed behind all nearer ones, and what it leads to is queued for the next
level. -/
theorem Frontier.visit {classes : ClassTable} {start here later order next : List String} {depth : Nat}
    {name : String} (front : classes.Frontier start depth (name :: here) later order)
    (fresh : name ∉ order) (expands : ∀ upper, classes.Inherits name upper ↔ upper ∈ next) :
    classes.Frontier start depth here (later ++ next) (order ++ [name]) where
  here_level other member := front.here_level other (List.mem_cons_of_mem _ member)
  later_level other member := by
    rcases List.mem_append.mp member with known | new
    · exact front.later_level other known
    · exact (front.here_level name (List.mem_cons_self ..)).next ((expands other).mpr new)
  listed_level other member := by
    rcases List.mem_append.mp member with known | same
    · exact front.listed_level other known
    · rw [List.mem_singleton] at same
      subst same
      exact ⟨depth, le_rfl, front.here_level other (List.mem_cons_self ..)⟩
  below level bound other atLevel := List.mem_append_left _ (front.below level bound other atLevel)
  current other atLevel := by
    rcases front.current other atLevel with known | queued
    · exact Or.inl (List.mem_append_left _ known)
    · rcases List.mem_cons.mp queued with same | rest
      · exact Or.inl (List.mem_append_right _ (List.mem_singleton.mpr same))
      · exact Or.inr rest
  closed other member upper step := by
    rcases List.mem_append.mp member with known | same
    · rcases front.closed other known upper step with listed | queued | queued
      · exact Or.inl (List.mem_append_left _ listed)
      · rcases List.mem_cons.mp queued with same | rest
        · exact Or.inl (List.mem_append_right _ (List.mem_singleton.mpr same))
        · exact Or.inr (Or.inl rest)
      · exact Or.inr (Or.inr (List.mem_append_left _ queued))
    · rw [List.mem_singleton] at same
      subst same
      exact Or.inr (Or.inr (List.mem_append_right _ ((expands upper).mp step)))
  nodup := by
    rw [List.nodup_append]
    refine ⟨front.nodup, List.nodup_singleton name, ?_⟩
    intro other member last same
    rw [List.mem_singleton] at same
    intro equal
    exact fresh (same ▸ equal ▸ member)
  sorted := by
    rw [List.pairwise_append]
    refine ⟨front.sorted, List.pairwise_singleton _ name, ?_⟩
    intro other member last same
    rw [List.mem_singleton] at same
    subst same
    obtain ⟨level, bound, atLevel⟩ := front.listed_level other member
    have atOwn := atLevel_levelOf (front.here_level last (List.mem_cons_self ..))
    have far : depth ≤ classes.levelOf start last := by
      by_contra near
      exact fresh (front.below _ (by omega) last atOwn)
    exact (levelOf_le atLevel).trans (bound.trans far)

/-- With nothing queued, everything that the start leads to is listed. -/
theorem Frontier.complete {classes : ClassTable} {start order : List String} {depth level : Nat}
    {name : String} (front : classes.Frontier start depth [] [] order)
    (atLevel : classes.AtLevel start level name) : name ∈ order := by
  induction level generalizing depth name with
  | zero =>
    by_cases first : depth = 0
    · subst first
      rcases front.current name atLevel with listed | queued
      · exact listed
      · simp at queued
    · exact front.below 0 (by omega) name atLevel
  | succ level ih =>
    obtain ⟨lower, before, step⟩ := atLevel_succ atLevel
    rcases front.closed lower (ih front before) name step with listed | queued | queued
    · exact listed
    · simp at queued
    · simp at queued

/-- The edges of the predefined classes, and behind them those of the table. -/
def edgeTable (classes : ClassTable) : List (String × List String) :=
  Library.classes ++ classes.entries.map fun entry => (entry.1, entry.2.supers)

theorem lookup_map_value {β γ : Type} (f : β → γ) (pairs : List (String × β)) (name : String) :
    (pairs.map fun pair => (pair.1, f pair.2)).lookup name = (pairs.lookup name).map f := by
  induction pairs with
  | nil => rfl
  | cons pair pairs ih =>
    obtain ⟨key, value⟩ := pair
    simp only [List.map_cons, List.lookup_cons, ih]
    cases name == key <;> rfl

theorem edges?_eq_lookup (classes : ClassTable) (name : String) :
    classes.edges? name = classes.edgeTable.lookup name := by
  unfold edges? edgeTable Library.supers? NameMap.find?
  rw [List.lookup_append, lookup_map_value]
  cases Library.classes.lookup name <;> rfl

/-- Number of edges in a list of entries that lead out of names not listed. -/
def unlistedEdges (entries : List (String × List String)) (found : List String) : Nat :=
  ((entries.filter fun entry => entry.1 ∉ found).flatMap fun entry => entry.2).length

theorem unlistedEdges_anti (entries : List (String × List String)) {found wider : List String}
    (subset : found ⊆ wider) : unlistedEdges entries wider ≤ unlistedEdges entries found := by
  refine ((List.monotone_filter_right entries ?_).flatMap _).length_le
  intro entry kept
  simp only [decide_eq_true_eq] at kept ⊢
  exact fun listed => kept (subset listed)

/-- What a walk may still have to queue. -/
def pendingEdges (classes : ClassTable) (found : List String) : Nat :=
  unlistedEdges classes.edgeTable found

/-- Listing a name takes its edges out of the pending ones. -/
theorem pendingEdges_visit {classes : ClassTable} {found next : List String} {name : String}
    (fresh : name ∉ found) (edges : classes.edges? name = some next) :
    classes.pendingEdges (found ++ [name]) + next.length ≤ classes.pendingEdges found := by
  rw [edges?_eq_lookup] at edges
  obtain ⟨before, after, split, _⟩ := List.lookup_eq_some_iff.mp edges
  have subset : found ⊆ found ++ [name] := List.subset_append_left ..
  have left := unlistedEdges_anti before subset
  have right := unlistedEdges_anti after subset
  have gone : unlistedEdges ((name, next) :: after) (found ++ [name]) =
      unlistedEdges after (found ++ [name]) := by
    simp [unlistedEdges]
  have there : unlistedEdges ((name, next) :: after) found = next.length + unlistedEdges after found := by
    simp [unlistedEdges, fresh]
  have cut (listed : List String) : unlistedEdges (before ++ (name, next) :: after) listed =
      unlistedEdges before listed + unlistedEdges ((name, next) :: after) listed := by
    simp only [unlistedEdges, List.filter_append, List.flatMap_append, List.length_append]
  unfold pendingEdges
  rw [split, cut, cut, gone, there]
  omega

theorem appendNew_of_subset {found extras : List String} (known : extras ⊆ found) :
    appendNew found extras = found := by
  induction extras with
  | nil => rfl
  | cons name extras ih =>
    rw [List.cons_subset] at known
    have skipped : appendNew found (name :: extras) = appendNew found extras := by
      simp [appendNew, known.1]
    rw [skipped, ih known.2]

theorem reach?_nil (classes : ClassTable) (found : List String) : classes.reach? [] found = some found := by
  rw [reach?]

/-- What a walk relies on: no name it meets is empty or listed in advance, and the search from a name without edges
ends and adds nothing beyond what was listed in advance. -/
structure Walkable (classes : ClassTable) (start base : List String) : Prop where
  nonempty : ∀ depth name, classes.AtLevel start depth name → name ≠ ""
  fresh : ∀ depth name, classes.AtLevel start depth name → name ∉ base
  leaf_known : ∀ depth name, classes.AtLevel start depth name → classes.edges? name = none →
    ∃ extras, classes.search? name = some extras ∧ extras ⊆ base

/-- A walk ends with nothing queued. The measure is the number of names in the queue and of pending edges. It drops
in each step: a queued name goes, or goes and brings its own pending edges. -/
theorem Frontier.run {classes : ClassTable} {start base : List String} (walkable : classes.Walkable start base)
    {steps depth : Nat} {here later order : List String} (front : classes.Frontier start depth here later order)
    (enough : (here ++ later).length + classes.pendingEdges (base ++ order) ≤ steps) :
    ∃ final last, classes.reach? (here ++ later) (base ++ order) = some (base ++ final) ∧
      classes.Frontier start last [] [] final := by
  induction steps generalizing depth here later order with
  | zero =>
    have none : here ++ later = [] := List.eq_nil_of_length_eq_zero (by omega)
    obtain ⟨rfl, rfl⟩ := List.append_eq_nil_iff.mp none
    exact ⟨order, depth, classes.reach?_nil _, front⟩
  | succ steps ih =>
    -- a finished level is left before the next name is taken
    have start_level : ∃ level first rest, classes.Frontier start level first rest order ∧
        here ++ later = first ++ rest ∧ (first = [] → rest = []) := by
      by_cases finished : here = []
      · subst finished
        exact ⟨depth + 1, later, [], front.advance, by simp, fun _ => rfl⟩
      · exact ⟨depth, here, later, front, rfl, fun empty => absurd empty finished⟩
    obtain ⟨level, first, rest, frontier, queue, empty⟩ := start_level
    rw [queue] at enough ⊢
    cases first with
    | nil =>
      cases empty rfl
      exact ⟨order, level, classes.reach?_nil _, frontier⟩
    | cons name first =>
      have atName := frontier.here_level name (List.mem_cons_self ..)
      have named := walkable.nonempty level name atName
      have notBase := walkable.fresh level name atName
      simp only [List.cons_append, List.length_cons] at enough
      rw [List.cons_append, reach?]
      simp only [named, false_or, List.mem_append, notBase]
      by_cases listed : name ∈ order
      · rw [if_pos listed]
        exact ih (frontier.skip listed) (by omega)
      · rw [if_neg listed]
        have unlisted : name ∉ base ++ order := by simp [notBase, listed]
        cases edges : classes.edges? name with
        | some next =>
          have pending := pendingEdges_visit unlisted edges
          have expands : ∀ upper, classes.Inherits name upper ↔ upper ∈ next := by
            intro upper
            simp [Inherits, edges]
          simp only [List.append_assoc] at pending ⊢
          exact ih (frontier.visit listed expands) (by
            simp only [List.length_append] at enough ⊢
            omega)
        | none =>
          have expands : ∀ upper, classes.Inherits name upper ↔ upper ∈ [] := by
            intro upper
            simp [Inherits, edges]
          obtain ⟨extras, isSearch, inBase⟩ := walkable.leaf_known level name atName edges
          have known : extras ⊆ base ++ (order ++ [name]) := fun extra member =>
            List.mem_append_left _ (inBase member)
          have pending : classes.pendingEdges (base ++ (order ++ [name])) ≤
              classes.pendingEdges (base ++ order) :=
            unlistedEdges_anti _ (by simp)
          simp only [isSearch, Option.bind_eq_bind, Option.bind_some, List.append_assoc, appendNew_of_subset known]
          have further := frontier.visit listed expands
          rw [List.append_nil] at further
          exact ih further (by omega)

/-- What a breadth-first listing is: each name that the start leads to stands in it once, and the
names stand by their levels. -/
structure IsBreadthFirst (classes : ClassTable) (start order : List String) : Prop where
  nodup : order.Nodup
  mem_iff : ∀ name, name ∈ order ↔ ∃ depth, classes.AtLevel start depth name
  sorted : order.Pairwise fun a b => classes.levelOf start a ≤ classes.levelOf start b

/-- The walk ends, and appends the breadth-first listing of what its start leads to. -/
theorem reach?_isBreadthFirst {classes : ClassTable} {start base : List String}
    (walkable : classes.Walkable start base) :
    ∃ order, classes.reach? start base = some (base ++ order) ∧ classes.IsBreadthFirst start order := by
  obtain ⟨order, depth, result, done⟩ := (Frontier.init classes start).run walkable le_rfl
  rw [List.append_nil, List.append_nil] at result
  refine ⟨order, result, done.nodup, ?_, done.sorted⟩
  intro name
  constructor
  · intro member
    obtain ⟨level, _, atLevel⟩ := done.listed_level name member
    exact ⟨level, atLevel⟩
  · rintro ⟨level, atLevel⟩
    exact done.complete atLevel

end ClassTable

end DocTypes
