import DocTypes.Proofs.WalkVisits
import Mathlib.Data.List.Perm.Basic

namespace DocTypes.Check

open Php (Node)

/-- Whether a node is a function, method, closure or arrow function, or a class-like with or without a name. -/
def isConstruct : Node → Bool
  | .classLike _ _ _ _ => true
  | .functionLike _ _ _ _ => true
  | _ => false

mutual

/-- The functions and class-likes in a node, wherever they stand, itself included. -/
def constructs : Node → List Node
  | .namespaceBlock _ _ body => constructsIn body
  | .imports _ => []
  | .classLike head attributes arguments members =>
    .classLike head attributes arguments members ::
      (constructsIn attributes ++ constructsIn arguments ++ constructsIn members)
  | .functionLike head attributes parameters body =>
    .functionLike head attributes parameters body ::
      (constructsIn attributes ++ constructsIn parameters ++ constructsIn body)
  | .parameter _ attributes default hooks =>
    constructsIn attributes ++ constructsIn default ++ constructsIn hooks
  | .property _ _ parts => constructsIn parts
  | .constant _ parts => constructsIn parts
  | .compound _ parts => constructsIn parts

/-- The functions and class-likes in several nodes. -/
def constructsIn : List Node → List Node
  | [] => []
  | node :: nodes => constructs node ++ constructsIn nodes

end

mutual

/-- The functions and class-likes that stand in attributes or hooks which are not walked; `listed` tells
whether the node is a parameter of a function. -/
def unwalked (listed : Bool) : Node → List Node
  | .namespaceBlock _ _ body => unwalkedIn false body
  | .imports _ => []
  | .classLike _ attributes arguments members =>
    constructsIn attributes ++ unwalkedIn false arguments ++ unwalkedIn false members
  | .functionLike _ attributes parameters body =>
    constructsIn attributes ++ unwalkedIn true parameters ++ unwalkedIn false body
  | .parameter _ attributes default hooks =>
    if listed then constructsIn attributes ++ unwalkedIn false default ++ constructsIn hooks
    else unwalkedIn false attributes ++ unwalkedIn false default ++ unwalkedIn false hooks
  | .property _ _ parts => unwalkedIn false parts
  | .constant _ parts => unwalkedIn false parts
  | .compound _ parts => unwalkedIn false parts

/-- Those of several nodes. -/
def unwalkedIn (listed : Bool) : List Node → List Node
  | [] => []
  | node :: nodes => unwalked listed node ++ unwalkedIn listed nodes

end

theorem constructsIn_append (first second : List Node) :
    constructsIn (first ++ second) = constructsIn first ++ constructsIn second := by
  induction first with
  | nil => rfl
  | cons node nodes ih => simp [constructsIn, ih]

theorem unwalkedIn_append (listed : Bool) (first second : List Node) :
    unwalkedIn listed (first ++ second) = unwalkedIn listed first ++ unwalkedIn listed second := by
  induction first with
  | nil => rfl
  | cons node nodes ih => simp [unwalkedIn, ih]

/-- Only of a parameter it matters whether it is listed. -/
theorem unwalked_isParameter (node : Node) : unwalked (isParameter node) node = unwalked true node := by
  cases node <;> simp [isParameter, unwalked]

namespace Part

/-- The functions and class-likes in the parts of a walk. -/
def constructsOf (parts : List Part) : List Node :=
  parts.flatMap fun part => constructs part.node

/-- Those of them that the walk does not come to. -/
def unwalkedOf (parts : List Part) : List Node :=
  parts.flatMap fun part => unwalked part.listed part.node

/-- What the walk leaves out directly below a part. -/
def skipped (part : Part) : List Node :=
  match part.node with
  | .classLike _ attributes _ _ => attributes
  | .functionLike _ attributes _ _ => attributes
  | .parameter _ attributes _ hooks => if part.listed then attributes ++ hooks else []
  | _ => []

section Lists

variable (scope : Scope) (nodes : List Node)

@[simp]
theorem constructsOf_nil : constructsOf [] = [] :=
  rfl

@[simp]
theorem unwalkedOf_nil : unwalkedOf [] = [] :=
  rfl

@[simp]
theorem constructsOf_append (first second : List Part) :
    constructsOf (first ++ second) = constructsOf first ++ constructsOf second :=
  List.flatMap_append

@[simp]
theorem unwalkedOf_append (first second : List Part) :
    unwalkedOf (first ++ second) = unwalkedOf first ++ unwalkedOf second :=
  List.flatMap_append

@[simp]
theorem constructsOf_among : constructsOf (among scope nodes) = constructsIn nodes := by
  induction nodes with
  | nil => rfl
  | cons node nodes ih => exact congrArg (constructs node ++ ·) ih

@[simp]
theorem unwalkedOf_among : unwalkedOf (among scope nodes) = unwalkedIn false nodes := by
  induction nodes with
  | nil => rfl
  | cons node nodes ih => exact congrArg (unwalked false node ++ ·) ih

@[simp]
theorem constructsOf_parameters : constructsOf (parameters scope nodes) = constructsIn nodes := by
  induction nodes with
  | nil => rfl
  | cons node nodes ih => exact congrArg (constructs node ++ ·) ih

@[simp]
theorem unwalkedOf_parameters : unwalkedOf (parameters scope nodes) = unwalkedIn true nodes := by
  induction nodes with
  | nil => rfl
  | cons node nodes ih =>
    have first := unwalked_isParameter node
    exact congrArg₂ (· ++ ·) first ih

@[simp]
theorem constructsOf_statements : constructsOf (statements scope nodes) = constructsIn nodes := by
  induction nodes generalizing scope with
  | nil => rfl
  | cons node nodes ih => exact congrArg (constructs node ++ ·) (ih _)

@[simp]
theorem unwalkedOf_statements : unwalkedOf (statements scope nodes) = unwalkedIn false nodes := by
  induction nodes generalizing scope with
  | nil => rfl
  | cons node nodes ih => exact congrArg (unwalked false node ++ ·) (ih _)

end Lists

/-- A part holds itself, what is walked before and inside it, and what is left out. -/
theorem constructs_perm (part : Part) (inside : Scope) :
    (constructs part.node).Perm ([part.node].filter isConstruct ++
      (constructsOf part.outside ++ constructsOf (part.within inside)) ++ constructsIn part.skipped) := by
  classical
  obtain ⟨scope, node, listed⟩ := part
  rw [List.perm_iff_count]
  intro counted
  cases node with
  | parameter head attributes default hooks =>
    cases listed
    · simp [constructs, isConstruct, outside, within, skipped, constructsIn, constructsIn_append]
    · simp [constructs, isConstruct, outside, within, skipped, constructsIn_append]
      omega
  | classLike | functionLike =>
    simp [constructs, isConstruct, outside, within, skipped, List.count_cons, List.filter_cons]
    omega
  | _ => simp [constructs, isConstruct, outside, within, skipped, constructsIn]

/-- What a part leaves out is left out directly below it, or by what is walked before and inside it. -/
theorem unwalked_perm (part : Part) (inside : Scope) :
    (unwalked part.listed part.node).Perm
      (unwalkedOf part.outside ++ unwalkedOf (part.within inside) ++ constructsIn part.skipped) := by
  classical
  obtain ⟨scope, node, listed⟩ := part
  rw [List.perm_iff_count]
  intro counted
  cases node with
  | parameter head attributes default hooks =>
    cases listed
    · simp [unwalked, outside, within, skipped, constructsIn, unwalkedIn_append]
    · simp [unwalked, outside, within, skipped, constructsIn_append]
      omega
  | classLike | functionLike =>
    simp [unwalked, outside, within, skipped]
    omega
  | _ => simp [unwalked, outside, within, skipped, constructsIn]

end Part

/-- The functions and class-likes that a walk has been in. -/
def Visit.entered (visits : List Visit) : List Node :=
  (visits.map Visit.node).filter isConstruct

@[simp]
theorem Visit.entered_append (first second : List Visit) :
    entered (first ++ second) = entered first ++ entered second := by
  simp [entered]

theorem Visit.entered_cons (visit : Visit) (visits : List Visit) :
    entered (visit :: visits) = [visit.node].filter isConstruct ++ entered visits :=
  entered_append [visit] visits

/-- A walk over parts enters each function and class-like in them once, but for those that are not walked. -/
theorem Visits.entered_perm {file : SourceFile} {parts : List Part} {before after : Progress} {visits : List Visit}
    (run : Visits file parts before visits after) :
    (Visit.entered visits ++ Part.unwalkedOf parts).Perm (Part.constructsOf parts) := by
  classical
  rw [List.perm_iff_count]
  intro counted
  induction run with
  | nil => rfl
  | @cons part parts inside outer inner others _ _ _ _ _ _ _ _ _ outsideCount withinCount restCount =>
    have held := (part.constructs_perm inside).count_eq counted
    have leftOut := (part.unwalked_perm inside).count_eq counted
    have ofParts : Part.constructsOf (part :: parts) = constructs part.node ++ Part.constructsOf parts := rfl
    have notOfParts : Part.unwalkedOf (part :: parts) =
        unwalked part.listed part.node ++ Part.unwalkedOf parts := rfl
    simp only [Visit.entered_append, Visit.entered_cons, ofParts, notOfParts, List.count_append] at *
    omega

/-- What is inside a function or class-like, with the scope to walk it in: the members of a class-like in the
scope derived for it, the parameters of a function likewise, and its body with the imports there. -/
def Visit.content (visit : Visit) : List Part :=
  Part.within ⟨visit.around, visit.node, false⟩ visit.inside

theorem Visits.content_covered {file : SourceFile} {parts : List Part} {before after : Progress}
    {visits : List Visit} (run : Visits file parts before visits after) {visit : Visit} (member : visit ∈ visits)
    (construct : isConstruct visit.node) :
    ∀ part ∈ visit.content, ∃ inner ∈ visits, inner.around = part.scope ∧ inner.node = part.node := by
  obtain ⟨listed, _, _, inner, _, -, runInside, among⟩ := run.made visit member
  have same : visit.content = Part.within ⟨visit.around, visit.node, listed⟩ visit.inside := by
    obtain ⟨around, node, inside⟩ := visit
    cases node with
    | parameter => simp [isConstruct] at construct
    | _ => rfl
  intro part isPart
  rw [same] at isPart
  obtain ⟨below, isBelow, at_⟩ := runInside.covers part isPart
  exact ⟨below, among below isBelow, at_⟩

/-- The walk over a program completes. Each function and class-like is entered once or stands where the walk does
not go, in attributes of class-likes, functions and their parameters or in hooks of these. The regions recorded are
those of what is entered, and all that is inside an entered one is walked in the scope derived for it. -/
theorem constructs_entered_once (file : SourceFile) (statements : List Node) :
    ∃ visits progress, Tour file statements visits progress ∧
      (Visit.entered visits ++ unwalkedIn false statements).Perm (constructsIn statements) ∧
      progress.regions = visits.filterMap Visit.region? ∧
      ∀ visit ∈ visits, isConstruct visit.node → Derives visit.around visit.node visit.inside ∧
        ∀ part ∈ visit.content, ∃ inner ∈ visits, inner.around = part.scope ∧ inner.node = part.node := by
  obtain ⟨visits, progress, tour⟩ := exists_tour file statements
  have entered := tour.visits.entered_perm
  rw [Part.unwalkedOf_statements, Part.constructsOf_statements] at entered
  refine ⟨visits, progress, tour, entered, tour.regions, fun visit member construct => ?_⟩
  exact ⟨tour.visits.derives visit member, tour.visits.content_covered member construct⟩

/-- A closure in an attribute of a function is not entered, so that a mismatch which its comment has is not found
there, but is found in front of the function. -/
theorem attribute_closure_not_entered :
    (∃ head closure statements,
      statements = [Node.functionLike head [.compound .attributeUse [.compound .arguments [closure]]] [] []] ∧
        closure ∈ constructsIn statements ∧
        ∀ file visits progress, Tour file statements visits progress → closure ∉ Visit.entered visits) ∧
    Completes (completeCheck frontEnd
      "<?php\n#[A(/** @param string $v */ function (int $v) \x7b\x7d)]\nfunction f() \x7b\x7d\n".toList) (· = []) ∧
    Completes (completeCheck frontEnd
      "<?php\na(/** @param string $v */ function (int $v) \x7b\x7d);\nfunction f() \x7b\x7d\n".toList)
        fun diagnostics => diagnostics.map (·.code) = [.paramTypeMismatch] := by
  refine ⟨?_, ⟨[], by decide +kernel, rfl⟩,
    ⟨[⟨⟨.paramTypeMismatch, 12, "PHPDoc function parameter 1 type mismatch", none⟩, ⟨2, 7⟩⟩], by decide +kernel,
    rfl⟩⟩
  let closure : Node := .functionLike ⟨.closure, ⟨36, 56⟩, none⟩ [] [] []
  have own : closure ∈ constructs closure := List.mem_cons_self
  refine ⟨⟨.function, ⟨6, 74⟩, none⟩, closure, _, rfl, by simp [constructsIn, constructs, own], ?_⟩
  intro file visits progress tour member
  have entered := tour.visits.entered_perm
  rw [Part.unwalkedOf_statements, Part.constructsOf_statements] at entered
  have only := (List.perm_append_right_iff [closure]).mp
    (show (Visit.entered visits ++ [closure]).Perm ([_] ++ [closure]) from entered)
  have same := List.mem_singleton.mp (only.mem_iff.mp member)
  simp [closure] at same

end DocTypes.Check
