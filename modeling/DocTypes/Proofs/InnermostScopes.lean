import DocTypes.Check.Source
import DocTypes.Proofs.WalkVisits
import Mathlib.Data.List.Induction
import Mathlib.Data.List.Pairwise

namespace DocTypes

/-- Trees one behind the other: the first one, what is inside it, and the others. -/
inductive Forest (α : Type) where
  | nil
  | cons (root : α) (inner rest : Forest α)

namespace Forest

variable {α β γ : Type}

def append : Forest α → Forest α → Forest α
  | nil, second => second
  | cons root inner rest, second => cons root inner (rest.append second)

def map (f : α → β) : Forest α → Forest β
  | nil => nil
  | cons root inner rest => cons (f root) (inner.map f) (rest.map f)

/-- The nodes in the order in which a walk leaves them, each behind what is inside it. -/
def leaving : Forest α → List α
  | nil => []
  | cons root inner rest => inner.leaving ++ root :: rest.leaving

/-- The nodes in that order, with their depths; those at the top have depth `depth`. -/
def leavingAt (depth : Nat) : Forest α → List (α × Nat)
  | nil => []
  | cons root inner rest => inner.leavingAt (depth + 1) ++ (root, depth) :: rest.leavingAt depth

theorem append_assoc (first second third : Forest α) :
    (first.append second).append third = first.append (second.append third) := by
  induction first with
  | nil => rfl
  | cons root inner rest _ ih => rw [append, append, append, ih]

theorem map_append (f : α → β) (first second : Forest α) :
    (first.append second).map f = (first.map f).append (second.map f) := by
  induction first with
  | nil => rfl
  | cons root inner rest _ ih => rw [append, map, map, append, ih]

theorem leaving_append (first second : Forest α) :
    (first.append second).leaving = first.leaving ++ second.leaving := by
  induction first with
  | nil => rfl
  | cons root inner rest _ ih => rw [append, leaving, leaving, ih, List.append_assoc, List.cons_append]

theorem map_map (f : α → β) (g : β → γ) (forest : Forest α) : (forest.map f).map g = forest.map (g ∘ f) := by
  induction forest with
  | nil => rfl
  | cons root inner rest ihInner ihRest => rw [map, map, map, ihInner, ihRest, Function.comp_apply]

theorem leaving_map (f : α → β) (forest : Forest α) : (forest.map f).leaving = forest.leaving.map f := by
  induction forest with
  | nil => rfl
  | cons root inner rest ihInner ihRest =>
    rw [map, leaving, leaving, ihInner, ihRest, List.map_append, List.map_cons]

theorem leavingAt_map (f : α → β) (depth : Nat) (forest : Forest α) :
    (forest.map f).leavingAt depth = (forest.leavingAt depth).map (Prod.map f id) := by
  induction forest generalizing depth with
  | nil => rfl
  | cons root inner rest ihInner ihRest =>
    rw [map, leavingAt, leavingAt, ihInner, ihRest, List.map_append, List.map_cons, Prod.map_apply, id_eq]

theorem map_fst_leavingAt (depth : Nat) (forest : Forest α) :
    (forest.leavingAt depth).map Prod.fst = forest.leaving := by
  induction forest generalizing depth with
  | nil => rfl
  | cons root inner rest ihInner ihRest => rw [leavingAt, leaving, List.map_append, List.map_cons, ihInner, ihRest]

theorem mem_leaving {depth d : Nat} {forest : Forest α} {node : α} (member : (node, d) ∈ forest.leavingAt depth) :
    node ∈ forest.leaving := by
  rw [← map_fst_leavingAt depth]
  exact List.mem_map_of_mem member

theorem depth_le {depth d : Nat} {forest : Forest α} {node : α} (member : (node, d) ∈ forest.leavingAt depth) :
    depth ≤ d := by
  induction forest generalizing depth with
  | nil => cases member
  | cons root inner rest ihInner ihRest =>
    rw [leavingAt, List.mem_append, List.mem_cons, Prod.mk.injEq] at member
    rcases member with inInner | ⟨_, isDepth⟩ | inRest
    · have deeper := ihInner inInner
      omega
    · omega
    · exact ihRest inRest

end Forest

namespace Php.Span

def Holds (span : Span) (offset : Nat) : Prop :=
  span.start ≤ offset ∧ offset < span.stop

def Within (span other : Span) : Prop :=
  other.start ≤ span.start ∧ span.stop ≤ other.stop

def Apart (span other : Span) : Prop :=
  span.stop ≤ other.start ∨ other.stop ≤ span.start

/-- Two spans are apart, or one lies within the other. -/
def Laminar (span other : Span) : Prop :=
  span.Apart other ∨ span.Within other ∨ other.Within span

instance (span : Span) (offset : Nat) : Decidable (span.Holds offset) :=
  inferInstanceAs (Decidable (_ ∧ _))

instance (span other : Span) : Decidable (span.Within other) :=
  inferInstanceAs (Decidable (_ ∧ _))

instance (span other : Span) : Decidable (span.Apart other) :=
  inferInstanceAs (Decidable (_ ∨ _))

instance (span other : Span) : Decidable (span.Laminar other) :=
  inferInstanceAs (Decidable (_ ∨ _ ∨ _))

theorem Within.antisymm {span other : Span} (first : span.Within other) (second : other.Within span) :
    span = other := by
  obtain ⟨start, stop⟩ := span
  obtain ⟨otherStart, otherStop⟩ := other
  simp only [Within] at first second
  rw [mk.injEq]
  omega

theorem laminar_self (span : Span) : span.Laminar span :=
  Or.inr (Or.inl ⟨le_rfl, le_rfl⟩)

instance : Std.Symm Laminar where
  symm span other laminar := by
    simp only [Laminar, Apart, Within] at *
    omega

/-- Of two laminar spans around a byte the shorter one lies within the other. -/
theorem Laminar.within {span other : Span} (laminar : span.Laminar other) {offset : Nat} (holds : span.Holds offset)
    (holdsOther : other.Holds offset) (shorter : span.stop - span.start ≤ other.stop - other.start) :
    span.Within other := by
  simp only [Laminar, Apart, Within, Holds] at *
  omega

end Php.Span

namespace Forest

open Php (Span)

/-- Spans that are nested as the trees are: what is inside a node lies within it, and trees beside each other are
apart. -/
def ProperlyNested : Forest Span → Prop
  | nil => True
  | cons root inner rest =>
    (∀ span ∈ inner.leaving, span.Within root) ∧ (∀ span ∈ rest.leaving, root.Apart span) ∧
      inner.ProperlyNested ∧ rest.ProperlyNested

instance decidableProperlyNested : (forest : Forest Span) → Decidable forest.ProperlyNested
  | nil => isTrue trivial
  | cons _ inner rest =>
    have : Decidable inner.ProperlyNested := decidableProperlyNested inner
    have : Decidable rest.ProperlyNested := decidableProperlyNested rest
    inferInstanceAs (Decidable (_ ∧ _ ∧ _ ∧ _))

/-- Of properly nested spans those around a byte lie each within the next one that is left, and deeper. -/
theorem ProperlyNested.chain {forest : Forest Span} (nested : forest.ProperlyNested) (offset depth : Nat) :
    (forest.leavingAt depth).Pairwise fun entry other =>
      entry.1.Holds offset → other.1.Holds offset → entry.1.Within other.1 ∧ other.2 < entry.2 := by
  induction forest generalizing depth with
  | nil => exact .nil
  | cons root inner rest ihInner ihRest =>
    obtain ⟨inside, beside, nestedInner, nestedRest⟩ := nested
    rw [leavingAt, List.pairwise_append, List.pairwise_cons]
    -- the root and what is beside it are not around the same byte
    have notBoth : ∀ span ∈ rest.leaving, root.Holds offset → ¬ span.Holds offset := by
      intro span member ⟨_, _⟩ ⟨_, _⟩
      rcases beside span member with behind | before <;> omega
    refine ⟨ihInner nestedInner (depth + 1), ⟨fun other member holds holdsOther => ?_, ihRest nestedRest depth⟩, ?_⟩
    · exact absurd holdsOther (notBoth other.1 (mem_leaving member) holds)
    · intro entry isInner other member ⟨lower, upper⟩ holdsOther
      obtain ⟨startsIn, stopsIn⟩ := inside entry.1 (mem_leaving isInner)
      have deeper := depth_le isInner
      rcases List.mem_cons.mp member with rfl | isRest
      · exact ⟨⟨startsIn, stopsIn⟩, by omega⟩
      · exact absurd holdsOther (notBoth other.1 (mem_leaving isRest) ⟨by omega, by omega⟩)

end Forest

open Php (Node Span)

/-- The bytes of a namespace, class-like or function; none of any other node. -/
def Php.Node.bytes : Node → Span
  | .namespaceBlock span _ _ => span
  | .classLike head _ _ _ => head.span
  | .functionLike head _ _ _ => head.span
  | _ => ⟨0, 0⟩

namespace Check

/-- Whether the walk records a region for the node. -/
def isRecorded : Node → Bool
  | .namespaceBlock _ _ _ => true
  | .classLike _ _ _ _ => true
  | .functionLike _ _ _ _ => true
  | _ => false

mutual

/-- The namespaces, class-likes and functions that the walk comes to in a node; `listed` tells whether the node is
a parameter of a function. -/
def walked (listed : Bool) : Node → Forest Node
  | .namespaceBlock span name body => .cons (.namespaceBlock span name body) (walkedIn false body) .nil
  | .imports _ => .nil
  | .classLike head attributes arguments members =>
    .cons (.classLike head attributes arguments members)
      ((walkedIn false arguments).append (walkedIn false members)) .nil
  | .functionLike head attributes parameters body =>
    .cons (.functionLike head attributes parameters body)
      ((walkedIn true parameters).append (walkedIn false body)) .nil
  | .parameter _ attributes default hooks =>
    if listed then walkedIn false default
    else (walkedIn false attributes).append ((walkedIn false default).append (walkedIn false hooks))
  | .property _ _ parts => walkedIn false parts
  | .constant _ parts => walkedIn false parts
  | .compound _ parts => walkedIn false parts

/-- Those of several nodes. -/
def walkedIn (listed : Bool) : List Node → Forest Node
  | [] => .nil
  | node :: nodes => (walked listed node).append (walkedIn listed nodes)

end

theorem walkedIn_append (listed : Bool) (first second : List Node) :
    walkedIn listed (first ++ second) = (walkedIn listed first).append (walkedIn listed second) := by
  induction first with
  | nil => rfl
  | cons node nodes ih => rw [List.cons_append, walkedIn, walkedIn, ih, Forest.append_assoc]

/-- Only of a parameter it matters whether it is listed. -/
theorem walked_isParameter (node : Node) : walked (isParameter node) node = walked true node := by
  cases node <;> simp [isParameter, walked]

namespace Part

/-- What the walk comes to in its parts. -/
def walkedOf : List Part → Forest Node
  | [] => .nil
  | part :: parts => (walked part.listed part.node).append (walkedOf parts)

section Lists

variable (scope : Scope) (nodes : List Node)

theorem walkedOf_append (first second : List Part) :
    walkedOf (first ++ second) = (walkedOf first).append (walkedOf second) := by
  induction first with
  | nil => rfl
  | cons part parts ih => rw [List.cons_append, walkedOf, walkedOf, ih, Forest.append_assoc]

theorem walkedOf_among : walkedOf (among scope nodes) = walkedIn false nodes := by
  induction nodes with
  | nil => rfl
  | cons node nodes ih => exact congrArg (walked false node).append ih

theorem walkedOf_parameters : walkedOf (parameters scope nodes) = walkedIn true nodes := by
  induction nodes with
  | nil => rfl
  | cons node nodes ih =>
    rw [walkedIn, ← walked_isParameter, ← ih]
    rfl

theorem walkedOf_statements : walkedOf (statements scope nodes) = walkedIn false nodes := by
  induction nodes generalizing scope with
  | nil => rfl
  | cons node nodes ih => exact congrArg (walked false node).append (ih _)

end Lists

/-- What the walk comes to in a part: the part itself, if it is recorded, around what is walked before
and inside. -/
theorem walked_eq (part : Part) (inside : Scope) :
    walked part.listed part.node =
      if isRecorded part.node then
        .cons part.node ((walkedOf part.outside).append (walkedOf (part.within inside))) .nil
      else (walkedOf part.outside).append (walkedOf (part.within inside)) := by
  obtain ⟨scope, node, listed⟩ := part
  cases node with
  | parameter head attributes default hooks =>
    cases listed <;> simp [walked, isRecorded, outside, within, walkedOf, walkedOf_among, walkedIn_append,
      Forest.append]
  | _ =>
    simp [walked, isRecorded, outside, within, walkedOf, walkedOf_among, walkedOf_append, walkedOf_parameters,
      walkedOf_statements, Forest.append]

end Part

theorem Visit.isSome_region? (visit : Visit) : visit.region?.isSome = isRecorded visit.node := by
  obtain ⟨around, node, inside⟩ := visit
  cases node <;> rfl

theorem Visit.span_of_region? {visit : Visit} {region : Region} (recorded : visit.region? = some region) :
    region.span = visit.node.bytes := by
  obtain ⟨around, node, inside⟩ := visit
  cases node with
  | namespaceBlock | classLike | functionLike =>
    obtain rfl := Option.some.inj recorded
    rfl
  | _ => cases recorded

/-- The recorded visits of a walk are left as the nodes that it comes to, from the inside out. -/
theorem Visits.exists_forest {file : SourceFile} {parts : List Part} {before after : Progress} {visits : List Visit}
    (run : Visits file parts before visits after) :
    ∃ forest : Forest Visit, forest.map Visit.node = Part.walkedOf parts ∧
      forest.leaving = visits.filter fun visit => isRecorded visit.node := by
  induction run with
  | nil => exact ⟨.nil, rfl, rfl⟩
  | @cons part parts inside outer inner others _ _ _ _ _ _ _ _ _ outsideForest withinForest restForest =>
    obtain ⟨outerForest, outerNodes, outerLeaving⟩ := outsideForest
    obtain ⟨innerForest, innerNodes, innerLeaving⟩ := withinForest
    obtain ⟨otherForest, otherNodes, otherLeaving⟩ := restForest
    rw [Part.walkedOf, Part.walked_eq part inside, List.filter_append, List.filter_append, List.filter_cons,
      ← outerLeaving, ← innerLeaving, ← otherLeaving, ← outerNodes, ← innerNodes, ← otherNodes]
    by_cases recorded : isRecorded part.node
    · refine ⟨.cons ⟨part.scope, part.node, inside⟩ (outerForest.append innerForest) otherForest, ?_, ?_⟩
      · rw [if_pos recorded, Forest.map, Forest.map_append]
        rfl
      · rw [if_pos recorded, Forest.leaving, Forest.leaving_append]
    · refine ⟨(outerForest.append innerForest).append otherForest, ?_, ?_⟩
      · rw [if_neg recorded, Forest.map_append, Forest.map_append]
      · rw [if_neg recorded, Forest.leaving_append, Forest.leaving_append]

theorem map_region?_filter (visits : List Visit) :
    (visits.filter fun visit => isRecorded visit.node).map Visit.region? =
      (visits.filterMap Visit.region?).map some := by
  induction visits with
  | nil => rfl
  | cons visit visits ih =>
    have recorded := visit.isSome_region?
    rw [List.filter_cons, ← recorded, List.filterMap_cons]
    cases isRegion : visit.region? with
    | none => simpa using ih
    | some region => simpa [isRegion] using ih

/-- The walk over a program as a forest: the nodes that it comes to, each with the region recorded for it, and the
progress at its end. -/
structure Grown (file : SourceFile) (statements : List Node) (forest : Forest Visit) (progress : Progress) :
    Prop where
  run : walkSequence file .root statements ⟨[], [], []⟩ = .ok (statements.foldl Scope.behind .root, progress)
  nodes : forest.map Visit.node = walkedIn false statements
  regions : forest.leaving.map Visit.region? = progress.regions.map some

theorem exists_grown (file : SourceFile) (statements : List Node) :
    ∃ forest progress, Grown file statements forest progress := by
  obtain ⟨visits, progress, tour⟩ := exists_tour file statements
  obtain ⟨forest, nodes, leaving⟩ := tour.visits.exists_forest
  rw [Part.walkedOf_statements] at nodes
  refine ⟨forest, progress, tour.run, nodes, ?_⟩
  rw [leaving, tour.regions, map_region?_filter]

namespace Region

variable {regions : List Region} {offset : Nat} {region : Region}

theorem contains_iff : region.contains offset ↔ region.span.Holds offset := by
  rw [contains, Bool.and_eq_true, decide_eq_true_eq, decide_eq_true_eq, Span.Holds]

/-- One more region: it is taken if it contains the offset and is shorter than the one found before. -/
theorem innermost?_append (regions : List Region) (region : Region) (offset : Nat) :
    innermost? (regions ++ [region]) offset =
      if region.contains offset then some (shorter (innermost? regions offset) region)
      else innermost? regions offset := by
  unfold innermost?
  rw [List.filter_append, List.foldl_append, List.filter_cons]
  split <;> rfl

theorem innermost?_eq_none (none : innermost? regions offset = none) :
    ∀ region ∈ regions, ¬ region.contains offset := by
  induction regions using List.reverseRecOn with
  | nil => simp
  | append_singleton regions last ih =>
    rw [innermost?_append] at none
    split at none
    · cases none
    next other =>
      rw [List.forall_mem_append]
      exact ⟨ih none, by simpa using other⟩

/-- The region found is the first of the shortest ones that contain the offset. -/
theorem exists_of_innermost? (found : innermost? regions offset = some region) :
    ∃ before after, regions = before ++ region :: after ∧ region.contains offset ∧
      (∀ other ∈ before, other.contains offset → region.length < other.length) ∧
      ∀ other ∈ after, other.contains offset → region.length ≤ other.length := by
  induction regions using List.reverseRecOn generalizing region with
  | nil => cases found
  | append_singleton regions last ih =>
    rw [innermost?_append] at found
    split at found
    next contains =>
      cases best : innermost? regions offset with
      | none =>
        rw [best] at found
        obtain rfl : last = region := Option.some.inj found
        have others := innermost?_eq_none best
        exact ⟨regions, [], rfl, contains, fun other member holds => absurd holds (others other member), by simp⟩
      | some earlier =>
        rw [best] at found
        obtain ⟨before, after, split, containsEarlier, longer, asLong⟩ := ih best
        have isRegion : (if last.length < earlier.length then last else earlier) = region := Option.some.inj found
        by_cases shorter : last.length < earlier.length
        · rw [if_pos shorter] at isRegion
          subst isRegion
          refine ⟨regions, [], rfl, contains, fun other member holds => ?_, by simp⟩
          rw [split, List.mem_append, List.mem_cons] at member
          rcases member with isBefore | rfl | isAfter
          · have bound := longer other isBefore holds
            omega
          · exact shorter
          · have bound := asLong other isAfter holds
            omega
        · rw [if_neg shorter] at isRegion
          subst isRegion
          refine ⟨before, after ++ [last], by rw [split]; simp, containsEarlier, longer,
            fun other member holds => ?_⟩
          rcases List.mem_append.mp member with isAfter | isLast
          · exact asLong other isAfter holds
          · rw [List.mem_singleton.mp isLast]
            omega
    next other =>
      obtain ⟨before, after, split, contains, longer, asLong⟩ := ih found
      refine ⟨before, after ++ [last], by rw [split]; simp, contains, longer, fun region member holds => ?_⟩
      rcases List.mem_append.mp member with isAfter | isLast
      · exact asLong region isAfter holds
      · rw [List.mem_singleton.mp isLast] at holds
        exact absurd holds other

end Region

/-- A node around a byte that lies within every other one around it. Of those with the same bytes it is
left first. -/
structure Innermost (visits : List Visit) (offset : Nat) (visit : Visit) : Prop where
  around : visit.node.bytes.Holds offset
  within : ∀ other ∈ visits, other.node.bytes.Holds offset → visit.node.bytes.Within other.node.bytes
  first : ∃ before after, visits = before ++ visit :: after ∧
    ∀ other ∈ before, other.node.bytes.Holds offset → other.node.bytes ≠ visit.node.bytes

/-- A node around a byte with its depth: every other node around the byte is less deep. -/
structure IsDeepest (forest : Forest Visit) (offset : Nat) (visit : Visit) (depth : Nat) : Prop where
  walked : (visit, depth) ∈ forest.leavingAt 0
  around : visit.node.bytes.Holds offset
  deepest : ∀ entry ∈ forest.leavingAt 0, entry.1.node.bytes.Holds offset → entry = (visit, depth) ∨ entry.2 < depth

section Recorded

variable {visits : List Visit} {regions : List Region} {offset : Nat}

/-- A visit of those recorded has one of the regions. -/
theorem exists_region (recorded : visits.map Visit.region? = regions.map some) {visit : Visit}
    (member : visit ∈ visits) : ∃ region ∈ regions, visit.region? = some region := by
  have isRegion : visit.region? ∈ regions.map some := recorded ▸ List.mem_map_of_mem member
  obtain ⟨region, isMember, same⟩ := List.mem_map.mp isRegion
  exact ⟨region, isMember, same.symm⟩

theorem not_holds_of_none (recorded : visits.map Visit.region? = regions.map some)
    (none : Region.innermost? regions offset = none) : ∀ visit ∈ visits, ¬ visit.node.bytes.Holds offset := by
  intro visit member holds
  obtain ⟨region, isMember, isRegion⟩ := exists_region recorded member
  rw [← Visit.span_of_region? isRegion] at holds
  exact Region.innermost?_eq_none none region isMember (Region.contains_iff.mpr holds)

/-- The region found is recorded for the innermost node around the byte, if of any two nodes they are apart or one
lies within the other. -/
theorem exists_innermost (recorded : visits.map Visit.region? = regions.map some)
    (laminar : (visits.map fun visit => visit.node.bytes).Pairwise Span.Laminar) {region : Region}
    (found : Region.innermost? regions offset = some region) :
    ∃ visit, visit.region? = some region ∧ Innermost visits offset visit := by
  obtain ⟨before, after, split, contains, longer, asLong⟩ := Region.exists_of_innermost? found
  rw [split, List.map_append, List.map_cons] at recorded
  obtain ⟨visitsBefore, rest, rfl, recordedBefore, recordedRest⟩ := List.map_eq_append_iff.mp recorded
  obtain ⟨visit, visitsAfter, rfl, isRegion, recordedAfter⟩ := List.map_eq_cons_iff.mp recordedRest
  have around : visit.node.bytes.Holds offset := by
    rw [← Visit.span_of_region? isRegion]
    exact Region.contains_iff.mp contains
  have laminarAll := laminar.forall_of_forall fun span _ => Span.laminar_self span
  -- an other node around the byte is no shorter, and longer if it was left before
  have longerBefore : ∀ other ∈ visitsBefore, other.node.bytes.Holds offset →
      visit.node.bytes.stop - visit.node.bytes.start < other.node.bytes.stop - other.node.bytes.start := by
    intro other member holds
    obtain ⟨otherRegion, isMember, isOther⟩ := exists_region recordedBefore member
    rw [← Visit.span_of_region? isOther] at holds ⊢
    rw [← Visit.span_of_region? isRegion]
    exact longer otherRegion isMember (Region.contains_iff.mpr holds)
  have asLongAfter : ∀ other ∈ visitsAfter, other.node.bytes.Holds offset →
      visit.node.bytes.stop - visit.node.bytes.start ≤ other.node.bytes.stop - other.node.bytes.start := by
    intro other member holds
    obtain ⟨otherRegion, isMember, isOther⟩ := exists_region recordedAfter member
    rw [← Visit.span_of_region? isOther] at holds ⊢
    rw [← Visit.span_of_region? isRegion]
    exact asLong otherRegion isMember (Region.contains_iff.mpr holds)
  refine ⟨visit, isRegion, around, fun other member holds => ?_, visitsBefore, visitsAfter, rfl, ?_⟩
  · have pair := laminarAll (List.mem_map_of_mem (List.mem_append_right visitsBefore List.mem_cons_self))
      (List.mem_map_of_mem member)
    refine pair.within around holds ?_
    rcases List.mem_append.mp member with isBefore | member
    · exact (longerBefore other isBefore holds).le
    · rcases List.mem_cons.mp member with rfl | isAfter
      · exact le_rfl
      · exact asLongAfter other isAfter holds
  · intro other isBefore holds same
    have longer := longerBefore other isBefore holds
    rw [same] at longer
    omega

end Recorded

/-- In a forest that is properly nested the innermost node is the deepest. -/
theorem Innermost.isDeepest {forest : Forest Visit} {offset : Nat} {visit : Visit}
    (innermost : Innermost forest.leaving offset visit)
    (nested : (forest.map fun visit => visit.node.bytes).ProperlyNested) :
    ∃ depth, IsDeepest forest offset visit depth := by
  obtain ⟨before, after, split, different⟩ := innermost.first
  have chain := nested.chain offset 0
  rw [Forest.leavingAt_map, List.pairwise_map] at chain
  -- the same place among the nodes with their depths
  have entries := Forest.map_fst_leavingAt 0 forest
  rw [split] at entries
  obtain ⟨entriesBefore, rest, isLeaving, isBefore, isRest⟩ := List.map_eq_append_iff.mp entries
  obtain ⟨⟨_, depth⟩, entriesAfter, rfl, rfl, isAfter⟩ := List.map_eq_cons_iff.mp isRest
  rw [isLeaving, List.pairwise_append, List.pairwise_cons] at chain
  obtain ⟨_, ⟨chainAfter, _⟩, chainBefore⟩ := chain
  refine ⟨depth, by rw [isLeaving]; simp, innermost.around, fun entry member holds => ?_⟩
  rw [isLeaving, List.mem_append, List.mem_cons] at member
  rcases member with inBefore | same | inAfter
  · have isOther : entry.1 ∈ before := isBefore ▸ List.mem_map_of_mem inBefore
    have isLeft : entry.1 ∈ forest.leaving := by
      rw [split]
      exact List.mem_append_left _ isOther
    obtain ⟨inside, _⟩ := chainBefore entry inBefore _ List.mem_cons_self holds innermost.around
    exact absurd (inside.antisymm (innermost.within entry.1 isLeft holds)) (different entry.1 isOther holds)
  · exact Or.inl same
  · exact Or.inr (chainAfter entry inAfter innermost.around holds).2

/-- Comments without a declaration are checked in the innermost scope around them. The walk over a program
completes with a region recorded for each namespace, class-like and function that it comes to. If any two of these
nodes are apart or one lies within the other, the scope at a byte is the one recorded for the innermost node around
it, and the last scope at the top if there is none. If they are nested in the source as in the tree, that node is
the deepest. -/
theorem lone_scope_innermost (file : SourceFile) {statements : List Node}
    (laminar : ((walkedIn false statements).map Node.bytes).leaving.Pairwise Span.Laminar) :
    ∃ forest progress, Grown file statements forest progress ∧ ∀ offset,
      let top := statements.foldl Scope.behind .root
      (progress.scopeAt top offset = top ∧ ∀ visit ∈ forest.leaving, ¬ visit.node.bytes.Holds offset) ∨
      ∃ visit region, visit.region? = some region ∧ progress.scopeAt top offset = region.scope ∧
        Innermost forest.leaving offset visit ∧
        (((walkedIn false statements).map Node.bytes).ProperlyNested →
          ∃ depth, IsDeepest forest offset visit depth) := by
  obtain ⟨forest, progress, grown⟩ := exists_grown file statements
  refine ⟨forest, progress, grown, fun offset => ?_⟩
  have bytes : (walkedIn false statements).map Node.bytes = forest.map fun visit => visit.node.bytes := by
    rw [← grown.nodes, Forest.map_map]
    rfl
  rw [bytes, Forest.leaving_map] at laminar
  unfold Progress.scopeAt
  cases found : Region.innermost? progress.regions offset with
  | none => exact Or.inl ⟨rfl, not_holds_of_none grown.regions found⟩
  | some region =>
    obtain ⟨visit, isRegion, innermost⟩ := exists_innermost grown.regions laminar found
    refine Or.inr ⟨visit, region, isRegion, rfl, innermost, fun nested => ?_⟩
    rw [bytes] at nested
    exact innermost.isDeepest nested

/-- A comment in a method of an anonymous class, which has a closure among its arguments. -/
def nestedSource : List Char :=
  ("<?php namespace A; class C \x7b function m() \x7b return new class(fn() => 1) \x7b function n() " ++
    "\x7b /** @var self $x */ \x7d \x7d; \x7d \x7d").toList

/-- What the walk comes to there, with depths. -/
def nestedEntries : List (Span × Nat) :=
  [(⟨61, 70⟩, 4), (⟨74, 110⟩, 4), (⟨51, 112⟩, 3), (⟨29, 115⟩, 2), (⟨19, 117⟩, 1), (⟨6, 117⟩, 0)]

theorem lone_scope_innermost_nested :
    let statements := (Php.Program.ofSource nestedSource).statements
    ((walkedIn false statements).map Node.bytes).leaving.Pairwise Span.Laminar ∧
      ((walkedIn false statements).map Node.bytes).ProperlyNested ∧
      ∃ forest progress visit region depth,
        Grown (sourceFile nestedSource (.ofSource nestedSource)) statements forest progress ∧
        visit.region? = some region ∧
        progress.scopeAt (statements.foldl Scope.behind .root) 89 = region.scope ∧ IsDeepest forest 89 visit depth ∧
        (region.span, depth) = (⟨74, 110⟩, 4) := by
  intro statements
  have entries : ((walkedIn false statements).map Node.bytes).leavingAt 0 = nestedEntries := by decide +kernel
  have laminar : ((walkedIn false statements).map Node.bytes).leaving.Pairwise Span.Laminar := by
    rw [← Forest.map_fst_leavingAt 0, entries]
    decide
  have nested : ((walkedIn false statements).map Node.bytes).ProperlyNested := by decide +kernel
  obtain ⟨forest, progress, grown, scopes⟩ :=
    lone_scope_innermost (sourceFile nestedSource (.ofSource nestedSource)) laminar
  rw [← grown.nodes, Forest.map_map, Forest.leavingAt_map] at entries
  -- the method around the comment, which no other node is deeper than
  have listed : (⟨74, 110⟩, 4) ∈ nestedEntries := by decide
  rw [← entries] at listed
  obtain ⟨⟨method, four⟩, isMethod, same⟩ := List.mem_map.mp listed
  obtain ⟨isBytes, rfl⟩ := Prod.mk.inj same
  have bytes : method.node.bytes = ⟨74, 110⟩ := isBytes
  have holds : method.node.bytes.Holds 89 := by
    rw [bytes]
    decide
  rcases scopes 89 with ⟨_, none⟩ | ⟨visit, region, isRegion, scope, innermost, deepest⟩
  · exact absurd holds (none method (Forest.mem_leaving isMethod))
  · obtain ⟨depth, isDeepest⟩ := deepest nested
    refine ⟨laminar, nested, forest, progress, visit, region, depth, grown, isRegion, scope, isDeepest, ?_⟩
    have isEntry := List.mem_map_of_mem (f := Prod.map (Node.bytes ∘ Visit.node) id) isDeepest.walked
    rw [entries] at isEntry
    rcases isDeepest.deepest _ isMethod holds with isVisit | deeper
    · obtain ⟨rfl, rfl⟩ := Prod.mk.inj isVisit
      rw [Visit.span_of_region? isRegion, bytes]
    · have bounded : ∀ entry ∈ nestedEntries, entry.2 ≤ 4 := by decide
      exact absurd deeper (Nat.not_lt.mpr (bounded _ isEntry))

end Check

end DocTypes
