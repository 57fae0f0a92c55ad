import DocTypes.Proofs.WalkVerdicts

namespace DocTypes

open Php (Node)

/-- The scope behind a statement, where its imports count. -/
def Scope.behind (scope : Scope) : Node → Scope
  | .imports items => scope.addImports items
  | _ => scope

theorem Scope.behind_of_ne {scope : Scope} {node : Node} (other : ∀ items, node = .imports items → False) :
    scope.behind node = scope := by
  cases node with
  | imports items => exact (other items rfl).elim
  | _ => rfl

namespace Check

def isParameter : Node → Bool
  | .parameter _ _ _ _ => true
  | _ => false

/-- A node that the walk comes to, in the scope it is walked in. -/
structure Part where
  scope : Scope
  node : Node
  /-- Whether the node is a parameter of a function, and not one of a hook. -/
  listed : Bool

namespace Part

/-- Nodes that are walked in one scope. -/
def among (scope : Scope) (nodes : List Node) : List Part :=
  nodes.map fun node => ⟨scope, node, false⟩

/-- The parameters of a function. -/
def parameters (scope : Scope) (nodes : List Node) : List Part :=
  nodes.map fun node => ⟨scope, node, isParameter node⟩

/-- Consecutive statements, where imports count for what follows. -/
def statements (scope : Scope) : List Node → List Part
  | [] => []
  | node :: nodes => ⟨scope, node, false⟩ :: statements (scope.behind node) nodes

/-- What is walked before the part is entered, in the scope around it. -/
def outside (part : Part) : List Part :=
  match part.node with
  | .classLike _ _ arguments _ => among part.scope arguments
  | _ => []

/-- What is walked inside the part, where `scope` is the scope derived for it. -/
def within (part : Part) (scope : Scope) : List Part :=
  match part.node with
  | .namespaceBlock _ _ body => statements scope body
  | .imports _ => []
  | .classLike _ _ _ members => among scope members
  | .functionLike _ _ params body => parameters scope params ++ statements scope body
  | .parameter _ attributes default hooks =>
    among scope (if part.listed then default else attributes ++ default ++ hooks)
  | .property _ _ parts => among scope parts
  | .constant _ parts => among scope parts
  | .compound _ parts => among scope parts

/-- The scope derived for what stands inside a part, once the comment of the part is checked. -/
def enter (file : SourceFile) (part : Part) : Walk Scope :=
  match part.node with
  | .namespaceBlock _ name _ => return Scope.root.inNamespace name
  | .imports items => return part.scope.addImports items
  | .classLike head _ _ _ => Walk.enterClass file part.scope head
  | .functionLike head _ params _ => Walk.enterFunction file part.scope head (parameterHeads params)
  | .parameter head _ _ _ => do
    if part.listed && head.promoted then Walk.checkVar file part.scope head.start head.hint
    return part.scope
  | .property start hint _ => do
    Walk.checkVar file part.scope start hint
    return part.scope
  | .constant start _ => do
    Walk.checkVar file part.scope start none
    return part.scope
  | .compound _ _ => return part.scope

end Part

/-- A node that the walk has been in: the scope around it, and the scope derived for what is inside. -/
structure Visit where
  around : Scope
  node : Node
  inside : Scope

/-- The region of a namespace, class-like or function. Imports count up to the end of a namespace. -/
def Visit.region? (visit : Visit) : Option Region :=
  match visit.node with
  | .namespaceBlock span _ body => some ⟨span, body.foldl Scope.behind visit.inside⟩
  | .classLike head _ _ _ => some ⟨head.span, visit.inside⟩
  | .functionLike head _ _ _ => some ⟨head.span, visit.inside⟩
  | _ => none

/-- The progress once the walk leaves a node. -/
def Progress.leave (progress : Progress) (visit : Visit) : Progress :=
  { progress with regions := progress.regions ++ visit.region?.toList }

/-- The visits of a walk over parts, in the order it leaves them, with the progress before and after. -/
inductive Visits (file : SourceFile) : List Part → Progress → List Visit → Progress → Prop
  | nil {progress : Progress} : Visits file [] progress [] progress
  | cons {part : Part} {parts : List Part} {inside : Scope} {outer inner others : List Visit}
      {before outerDone entered innerDone after : Progress}
      (outside : Visits file part.outside before outer outerDone)
      (enter : part.enter file outerDone = .ok (inside, entered))
      (within : Visits file (part.within inside) entered inner innerDone)
      (rest : Visits file parts (innerDone.leave ⟨part.scope, part.node, inside⟩) others after) :
      Visits file (part :: parts) before (outer ++ inner ++ ⟨part.scope, part.node, inside⟩ :: others) after

theorem exists_of_bind_ok {α β : Type} {check : Except CheckError α} {next : α → Except CheckError β} {result : β}
    (isOk : (check >>= next) = .ok result) : ∃ value, check = .ok value ∧ next value = .ok result := by
  cases check with
  | error error => cases isOk
  | ok value => exact ⟨value, rfl, isOk⟩

section Runs

variable {file : SourceFile} {α β : Type}

theorem Visits.append {first second : List Part} {before middle after : Progress} {visits more : List Visit}
    (run : Visits file first before visits middle) (runMore : Visits file second middle more after) :
    Visits file (first ++ second) before (visits ++ more) after := by
  induction run with
  | nil => exact runMore
  | cons outside enter within _ _ _ ih =>
    rw [List.append_assoc, List.cons_append]
    exact .cons outside enter within (ih runMore)

/-- The visits of a single part. -/
theorem Visits.single {part : Part} {inside : Scope} {outer inner : List Visit}
    {before outerDone entered innerDone : Progress} (outside : Visits file part.outside before outer outerDone)
    (enter : part.enter file outerDone = .ok (inside, entered))
    (within : Visits file (part.within inside) entered inner innerDone) :
    Visits file [part] before (outer ++ inner ++ [⟨part.scope, part.node, inside⟩])
      (innerDone.leave ⟨part.scope, part.node, inside⟩) :=
  .cons outside enter within .nil

theorem exists_of_bind {step : Walk α} {next : α → Walk β} {before after : Progress} {result : β}
    (run : (step >>= next) before = .ok (result, after)) :
    ∃ value middle, step before = .ok (value, middle) ∧ next value middle = .ok (result, after) := by
  obtain ⟨done, first, second⟩ := exists_of_bind_ok run
  exact ⟨done.1, done.2, first, second⟩

theorem exists_of_discard {step : Walk α} {before after : Progress}
    (run : discard step before = .ok ((), after)) : ∃ value, step before = .ok (value, after) := by
  have isBind : discard step = (step >>= fun _ => pure ()) := rfl
  rw [isBind] at run
  obtain ⟨value, middle, first, same⟩ := exists_of_bind run
  obtain ⟨-, rfl⟩ := Prod.mk.inj (Except.ok.inj same)
  exact ⟨value, first⟩

theorem eq_of_leave {span : Php.Span} {scope : Scope} {before after : Progress}
    (run : Walk.leave span scope before = .ok ((), after)) :
    after = { before with regions := before.regions ++ [⟨span, scope⟩] } := by
  have same : Walk.leave span scope before =
      .ok ((), { before with regions := before.regions ++ [⟨span, scope⟩] }) := rfl
  rw [same] at run
  exact (congrArg Prod.snd (Except.ok.inj run)).symm

theorem Progress.leave_of_none {visit : Visit} (none : visit.region? = none) (progress : Progress) :
    progress.leave visit = progress := by
  simp [leave, none]

/-- A step of the walk that is made of visits, and what holds of its result. -/
def Tours (file : SourceFile) (step : Walk α) (parts : List Part) (holds : α → Prop) : Prop :=
  ∀ before value after, step before = .ok (value, after) →
    holds value ∧ ∃ visits, Visits file parts before visits after

theorem tours_pure {value : α} {holds : α → Prop} (holdsValue : holds value) :
    Tours file (pure value) [] holds := by
  intro before result after run
  obtain ⟨rfl, rfl⟩ := Prod.mk.inj (Except.ok.inj run)
  exact ⟨holdsValue, [], .nil⟩

theorem Tours.bind {step : Walk α} {next : α → Walk β} {parts more : List Part} {holds : α → Prop}
    {holdsNext : β → Prop} (tours : Tours file step parts holds)
    (toursNext : ∀ value, holds value → Tours file (next value) more holdsNext) :
    Tours file (step >>= next) (parts ++ more) holdsNext := by
  intro before result after run
  obtain ⟨value, middle, first, second⟩ := exists_of_bind run
  obtain ⟨holdsValue, visits, visited⟩ := tours before value middle first
  obtain ⟨holdsResult, others, visitedNext⟩ := toursNext value holdsValue middle result after second
  exact ⟨holdsResult, _, visited.append visitedNext⟩

/-- A part without a region of its own, whose comment is checked before what is inside is walked. -/
theorem tours_plain {part : Part} {check next : Walk Unit} (isEnter : part.enter file = do check; return part.scope)
    (outside : part.outside = []) (none : Visit.region? ⟨part.scope, part.node, part.scope⟩ = none)
    (tours : Tours file next (part.within part.scope) fun _ => True) :
    Tours file (do check; next) [part] fun _ => True := by
  intro before result after run
  obtain ⟨_, entered, first, second⟩ := exists_of_bind run
  obtain ⟨_, visits, visited⟩ := tours entered result after second
  have onEnter : part.enter file before = .ok (part.scope, entered) := by
    rw [isEnter]
    show (check before >>= _) = _
    rw [first]
    rfl
  have nothing : Visits file part.outside before [] before := by
    rw [outside]
    exact .nil
  have visit := Visits.single nothing onEnter visited
  rw [Progress.leave_of_none none] at visit
  exact ⟨trivial, _, visit⟩

theorem tours_bare {part : Part} {next : Walk Unit} (isEnter : part.enter file = pure part.scope)
    (outside : part.outside = []) (none : Visit.region? ⟨part.scope, part.node, part.scope⟩ = none)
    (tours : Tours file next (part.within part.scope) fun _ => True) : Tours file next [part] fun _ => True := by
  have plain : part.enter file = ((pure () : Walk Unit) >>= fun _ => pure part.scope) := by
    rw [isEnter, pure_bind]
  have toursNext := tours_plain plain outside none tours
  rwa [pure_bind] at toursNext

theorem tours_imports (scope : Scope) (items : List Php.Import) :
    Tours file (pure ()) [⟨scope, .imports items, false⟩] fun _ => True := by
  intro before _ after run
  obtain ⟨-, rfl⟩ := Prod.mk.inj (Except.ok.inj run)
  have visit : Visits file [⟨scope, .imports items, false⟩] before _ _ := .single .nil rfl .nil
  rw [Progress.leave_of_none rfl] at visit
  exact ⟨trivial, _, visit⟩

end Runs

/-- Every run of the walk is made of visits. -/
theorem tours_walk (file : SourceFile) :
    (∀ scope node, Tours file (walk file scope node) [⟨scope, node, false⟩] fun _ => True) ∧
      (∀ scope nodes, Tours file (walkParameters file scope nodes) (Part.parameters scope nodes) fun _ => True) ∧
      (∀ scope nodes, Tours file (walkAll file scope nodes) (Part.among scope nodes) fun _ => True) ∧
      ∀ scope nodes, Tours file (walkSequence file scope nodes) (Part.statements scope nodes)
        fun last => last = nodes.foldl Scope.behind scope := by
  refine walk.mutual_induct file _ _ _ _ ?namespaceBlock ?imports ?classLike ?functionLike ?parameter ?property
    ?constant ?compound ?noParameters ?promotedParameter ?plainParameter ?otherParameter ?nil ?cons ?noStatements
    ?importStatement ?otherStatement
  case namespaceBlock =>
    intro scope span name body toursBody before _ after run
    rw [walk] at run
    obtain ⟨last, middle, first, second⟩ := exists_of_bind run
    obtain ⟨rfl, visits, visited⟩ := toursBody before last middle first
    rw [eq_of_leave second]
    exact ⟨trivial, _, .single .nil rfl visited⟩
  case imports =>
    intro scope items
    rw [walk]
    exact tours_imports scope items
  case classLike =>
    intro scope head attributes arguments members toursArguments toursMembers before _ after run
    rw [walk] at run
    obtain ⟨_, outerDone, first, run⟩ := exists_of_bind run
    obtain ⟨inside, entered, enter, run⟩ := exists_of_bind run
    obtain ⟨_, innerDone, second, leave⟩ := exists_of_bind run
    obtain ⟨_, outer, visitedArguments⟩ := toursArguments _ _ _ first
    obtain ⟨_, inner, visitedMembers⟩ := toursMembers inside _ _ _ second
    rw [eq_of_leave leave]
    exact ⟨trivial, _, .single visitedArguments enter visitedMembers⟩
  case functionLike =>
    intro scope head attributes parameters body toursParameters toursBody before _ after run
    rw [walk] at run
    obtain ⟨inside, entered, enter, run⟩ := exists_of_bind run
    obtain ⟨_, middle, first, run⟩ := exists_of_bind run
    obtain ⟨_, innerDone, second, leave⟩ := exists_of_bind run
    obtain ⟨last, second⟩ := exists_of_discard second
    obtain ⟨_, params, visitedParameters⟩ := toursParameters inside _ _ _ first
    obtain ⟨_, inner, visitedBody⟩ := toursBody inside _ _ _ second
    rw [eq_of_leave leave]
    exact ⟨trivial, _, .single .nil enter (visitedParameters.append visitedBody)⟩
  case parameter =>
    intro scope head attributes default hooks toursAttributes toursDefault toursHooks
    rw [walk]
    have tours := toursAttributes.bind fun _ _ => toursDefault.bind fun _ _ => toursHooks
    have parts : Part.among scope attributes ++ (Part.among scope default ++ Part.among scope hooks) =
        Part.among scope (attributes ++ default ++ hooks) := by
      simp [Part.among]
    rw [parts] at tours
    exact tours_bare rfl rfl rfl tours
  case property =>
    intro scope start hint parts toursParts
    rw [walk]
    exact tours_plain rfl rfl rfl toursParts
  case constant =>
    intro scope start parts toursParts
    rw [walk]
    exact tours_plain rfl rfl rfl toursParts
  case compound =>
    intro scope construct parts toursParts
    rw [walk]
    exact tours_bare rfl rfl rfl toursParts
  case noParameters =>
    intro scope
    rw [walkParameters]
    exact tours_pure trivial
  case promotedParameter =>
    intro scope head attributes default hooks nodes promoted toursDefault toursNodes
    rw [walkParameters, if_pos promoted, ← bind_assoc]
    have toursParameter : Tours file (do Walk.checkVar file scope head.start head.hint; walkAll file scope default)
        [⟨scope, .parameter head attributes default hooks, true⟩] fun _ => True := by
      refine tours_plain ?_ rfl rfl toursDefault
      simp [Part.enter, promoted]
    exact toursParameter.bind fun _ _ => toursNodes
  case plainParameter =>
    intro scope head attributes default hooks nodes plain toursDefault toursNodes
    rw [walkParameters, if_neg plain]
    have toursParameter : Tours file (walkAll file scope default)
        [⟨scope, .parameter head attributes default hooks, true⟩] fun _ => True := by
      refine tours_bare ?_ rfl rfl toursDefault
      simp [Part.enter, plain]
    exact toursParameter.bind fun _ _ => toursNodes
  case otherParameter =>
    intro scope node nodes other toursNode toursNodes
    have notParameter : isParameter node = false := by
      cases node with
      | parameter head attributes default hooks => exact (other head attributes default hooks rfl).elim
      | _ => rfl
    rw [walkParameters]
    · rw [← notParameter] at toursNode
      exact toursNode.bind fun _ _ => toursNodes
    · exact other
  case nil =>
    intro scope
    rw [walkAll]
    exact tours_pure trivial
  case cons =>
    intro scope node nodes toursNode toursNodes
    rw [walkAll]
    exact toursNode.bind fun _ _ => toursNodes
  case noStatements =>
    intro scope
    rw [walkSequence]
    exact tours_pure rfl
  case importStatement =>
    intro scope items nodes toursNodes
    rw [walkSequence]
    have tours := (tours_imports scope items).bind fun _ _ => toursNodes
    rwa [pure_bind] at tours
  case otherStatement =>
    intro scope node nodes other toursNode toursNodes
    rw [walkSequence]
    · show Tours file _ (_ :: Part.statements (scope.behind node) nodes)
        fun last => last = nodes.foldl Scope.behind (scope.behind node)
      rw [Scope.behind_of_ne other]
      exact toursNode.bind fun _ _ => toursNodes
    · exact other

section Entering

variable {file : SourceFile} {α β : Type}

/-- A step of the walk that records no region, and what holds of its result. -/
def Yields (step : Walk α) (holds : α → Prop) : Prop :=
  ∀ before value after, step before = .ok (value, after) → holds value ∧ after.regions = before.regions

theorem yields_pure {value : α} {holds : α → Prop} (holdsValue : holds value) : Yields (pure value) holds := by
  intro before result after run
  obtain ⟨rfl, rfl⟩ := Prod.mk.inj (Except.ok.inj run)
  exact ⟨holdsValue, rfl⟩

theorem Yields.bind {step : Walk α} {next : α → Walk β} {holds : α → Prop} {holdsNext : β → Prop}
    (yields : Yields step holds) (yieldsNext : ∀ value, holds value → Yields (next value) holdsNext) :
    Yields (step >>= next) holdsNext := by
  intro before result after run
  obtain ⟨value, middle, first, second⟩ := exists_of_bind run
  obtain ⟨holdsValue, same⟩ := yields before value middle first
  obtain ⟨holdsResult, sameNext⟩ := yieldsNext value holdsValue middle result after second
  exact ⟨holdsResult, sameNext.trans same⟩

theorem yields_check {check : Except CheckError α} {holds : α → Prop}
    (holdsOk : ∀ value, check = .ok value → holds value) :
    Yields (liftM check) holds := by
  intro before result after run
  cases check with
  | error error => cases run
  | ok value =>
    obtain ⟨rfl, rfl⟩ := Prod.mk.inj (Except.ok.inj run)
    exact ⟨holdsOk value rfl, rfl⟩

theorem yields_report (found : List Finding) : Yields (Walk.report found) fun _ => True := by
  intro before result after run
  obtain ⟨rfl, rfl⟩ := Prod.mk.inj (Except.ok.inj run)
  exact ⟨trivial, rfl⟩

theorem yields_takeDoc (start : Nat) : Yields (Walk.takeDoc file start) fun _ => True := by
  intro before result after run
  rcases takeDoc_cases file start before with isNone | ⟨comment, -, -, isSome⟩
  · rw [isNone] at run
    obtain ⟨rfl, rfl⟩ := Prod.mk.inj (Except.ok.inj run)
    exact ⟨trivial, rfl⟩
  · rw [isSome] at run
    obtain ⟨rfl, rfl⟩ := Prod.mk.inj (Except.ok.inj run)
    exact ⟨trivial, rfl⟩

theorem yields_checkVar (scope : Scope) (start : Nat) (hint : Option Php.Hint) :
    Yields (Walk.checkVar file scope start hint) fun _ => True := by
  refine (yields_takeDoc start).bind fun doc _ => ?_
  cases doc with
  | none => exact yields_pure trivial
  | some doc => exact (yields_check fun _ _ => trivial).bind fun _ _ => yields_report _

/-- Templates change what template names mean, and nothing else. -/
def SameButTemplates (scope other : Scope) : Prop :=
  ∃ templates, other = { scope with templates }

theorem bindTemplate_scope {reader after : Reader} {tag : DocTag} {found : List Finding}
    (isBind : reader.bindTemplate tag = .ok (after, found)) : SameButTemplates reader.scope after.scope := by
  unfold Reader.bindTemplate at isBind
  dsimp only at isBind
  split at isBind
  · obtain ⟨rfl, rfl⟩ := Prod.mk.inj (Except.ok.inj isBind)
    exact ⟨_, rfl⟩
  · obtain ⟨rfl, rfl⟩ := Prod.mk.inj (Except.ok.inj isBind)
    exact ⟨_, rfl⟩
  · obtain ⟨style, -, isOk⟩ := exists_of_bind_ok isBind
    obtain ⟨rfl, rfl⟩ := Prod.mk.inj (Except.ok.inj isOk)
    exact ⟨_, rfl⟩

theorem bindTemplates_scope {reader after : Reader} {tags : List DocTag} {found : List Finding}
    (isBind : reader.bindTemplates tags = .ok (after, found)) : SameButTemplates reader.scope after.scope := by
  induction tags generalizing reader found with
  | nil =>
    obtain ⟨rfl, rfl⟩ := Prod.mk.inj (Except.ok.inj isBind)
    exact ⟨_, rfl⟩
  | cons tag tags ih =>
    obtain ⟨first, isFirst, isBind⟩ := exists_of_bind_ok isBind
    obtain ⟨rest, isRest, isBind⟩ := exists_of_bind_ok isBind
    obtain ⟨rfl, rfl⟩ := Prod.mk.inj (Except.ok.inj isBind)
    obtain ⟨bound, sameFirst⟩ := bindTemplate_scope isFirst
    obtain ⟨templates, sameRest⟩ := ih isRest
    exact ⟨templates, by rw [sameRest, sameFirst]⟩

/-- How the scope inside a node comes from the scope around it. -/
def Derives (around : Scope) (node : Node) (inside : Scope) : Prop :=
  match node with
  | .namespaceBlock _ name _ => inside = Scope.root.inNamespace name
  | .imports items => inside = around.addImports items
  | .classLike head _ _ _ =>
    SameButTemplates (around.inClass (head.name.map around.qualify) (around.parentOf head)) inside
  | .functionLike _ _ _ _ => SameButTemplates around inside
  | _ => inside = around

theorem yields_enterClass (scope : Scope) (head : Php.ClassHead) :
    Yields (Walk.enterClass file scope head)
      (SameButTemplates (scope.inClass (head.name.map scope.qualify) (scope.parentOf head))) := by
  refine (yields_takeDoc _).bind fun doc _ => ?_
  cases doc with
  | none => exact yields_pure ⟨_, rfl⟩
  | some doc =>
    refine (yields_check fun _ => bindTemplates_scope).bind fun templates derives => ?_
    refine (yields_report _).bind fun _ _ => (yields_check fun _ _ => trivial).bind fun _ _ => ?_
    exact (yields_report _).bind fun _ _ => yields_pure derives

theorem yields_enterFunction (scope : Scope) (head : Php.FunctionHead) (parameters : List Php.Parameter) :
    Yields (Walk.enterFunction file scope head parameters) (SameButTemplates scope) := by
  refine (yields_takeDoc _).bind fun doc _ => ?_
  cases doc with
  | none => exact yields_pure ⟨_, rfl⟩
  | some doc =>
    refine (yields_check fun _ => bindTemplates_scope).bind fun templates derives => ?_
    refine (yields_report _).bind fun _ _ => (yields_check fun _ _ => trivial).bind fun _ _ => ?_
    refine (yields_report _).bind fun _ _ => (yields_check fun _ _ => trivial).bind fun _ _ => ?_
    exact (yields_report _).bind fun _ _ => yields_pure derives

theorem yields_enter (part : Part) : Yields (part.enter file) (Derives part.scope part.node) := by
  obtain ⟨scope, node, listed⟩ := part
  cases node with
  | namespaceBlock span name body => exact yields_pure rfl
  | imports items => exact yields_pure rfl
  | classLike head attributes arguments members => exact yields_enterClass scope head
  | functionLike head attributes parameters body => exact yields_enterFunction scope head _
  | parameter head attributes default hooks =>
    unfold Part.enter
    dsimp only
    split
    · exact (yields_checkVar _ _ _).bind fun _ _ => yields_pure rfl
    · exact yields_pure rfl
  | property start hint parts => exact (yields_checkVar _ _ _).bind fun _ _ => yields_pure rfl
  | constant start parts => exact (yields_checkVar _ _ _).bind fun _ _ => yields_pure rfl
  | compound construct parts => exact yields_pure rfl

end Entering

/-- The regions that a walk records are those of its visits. -/
theorem Visits.regions {file : SourceFile} {parts : List Part} {before after : Progress} {visits : List Visit}
    (run : Visits file parts before visits after) :
    after.regions = before.regions ++ visits.filterMap Visit.region? := by
  induction run with
  | nil => simp
  | cons _ enter _ _ outsideRegions withinRegions restRegions =>
    rw [restRegions, Progress.leave, withinRegions, (yields_enter _ _ _ _ enter).2, outsideRegions]
    cases isRegion : Visit.region? _ <;> simp [isRegion]

section Reached

variable {file : SourceFile} {parts : List Part} {before after : Progress} {visits : List Visit}

theorem Visits.covers (run : Visits file parts before visits after) :
    ∀ part ∈ parts, ∃ visit ∈ visits, visit.around = part.scope ∧ visit.node = part.node := by
  induction run with
  | nil => simp
  | cons _ _ _ _ _ _ restCovers =>
    intro part member
    rcases List.mem_cons.mp member with rfl | member
    · exact ⟨_, List.mem_append_right _ List.mem_cons_self, rfl, rfl⟩
    · obtain ⟨visit, isVisit, same⟩ := restCovers part member
      exact ⟨visit, List.mem_append_right _ (List.mem_cons_of_mem _ isVisit), same⟩

/-- A visit among others: it enters a part, and those to what is inside are among the others. -/
def Visit.Made (file : SourceFile) (visits : List Visit) (visit : Visit) : Prop :=
  ∃ listed outerDone entered inner innerDone,
    Part.enter file ⟨visit.around, visit.node, listed⟩ outerDone = .ok (visit.inside, entered) ∧
      Visits file (Part.within ⟨visit.around, visit.node, listed⟩ visit.inside) entered inner innerDone ∧
      ∀ below ∈ inner, below ∈ visits

theorem Visit.Made.mono {visit : Visit} {more : List Visit} (made : visit.Made file visits)
    (subset : ∀ other ∈ visits, other ∈ more) : visit.Made file more := by
  obtain ⟨listed, outerDone, entered, inner, innerDone, enter, run, among⟩ := made
  exact ⟨listed, outerDone, entered, inner, innerDone, enter, run,
    fun below member => subset below (among below member)⟩

theorem Visits.made (run : Visits file parts before visits after) : ∀ visit ∈ visits, visit.Made file visits := by
  induction run with
  | nil => simp
  | @cons part _ inside outer inner others _ _ _ _ _ _ enter within _ outsideMade withinMade restMade =>
    intro visit member
    rcases List.mem_append.mp member with member | member
    · rcases List.mem_append.mp member with member | member
      · exact (outsideMade visit member).mono fun other isOther => by simp [isOther]
      · exact (withinMade visit member).mono fun other isOther => by simp [isOther]
    · rcases List.mem_cons.mp member with rfl | member
      · exact ⟨part.listed, _, _, inner, _, enter, within, fun other isOther => by simp [isOther]⟩
      · exact (restMade visit member).mono fun other isOther => by simp [isOther]

theorem Visits.derives (run : Visits file parts before visits after) :
    ∀ visit ∈ visits, Derives visit.around visit.node visit.inside := by
  intro visit member
  obtain ⟨listed, outerDone, entered, _, _, enter, -⟩ := run.made visit member
  exact (yields_enter ⟨visit.around, visit.node, listed⟩ outerDone visit.inside entered enter).1

end Reached

/-- The visits of the walk over a program, and the progress at its end. -/
structure Tour (file : SourceFile) (statements : List Node) (visits : List Visit) (progress : Progress) : Prop where
  run : walkSequence file .root statements ⟨[], [], []⟩ = .ok (statements.foldl Scope.behind .root, progress)
  visits : Visits file (Part.statements .root statements) ⟨[], [], []⟩ visits progress

/-- The walk over a program completes, and is made of visits. -/
theorem exists_tour (file : SourceFile) (statements : List Node) :
    ∃ visits progress, Tour file statements visits progress := by
  obtain ⟨⟨top, progress⟩, isOk, -⟩ := (keeps_walk file).2.2.2 .root statements _ (sound_start file)
  obtain ⟨rfl, visits, visited⟩ := (tours_walk file).2.2.2 .root statements _ _ _ isOk
  exact ⟨visits, progress, isOk, visited⟩

theorem Tour.regions {file : SourceFile} {statements : List Node} {visits : List Visit} {progress : Progress}
    (tour : Tour file statements visits progress) : progress.regions = visits.filterMap Visit.region? :=
  tour.visits.regions

end Check

end DocTypes
