import DocTypes.Proofs.Inheritance
import DocTypes.Proofs.WalkVisits

namespace DocTypes

open Php (Import ClassHead Node)

namespace Scope

/-- A namespace is empty, or has a backslash in front and none at the end; imports lead to full names. -/
structure WellFormed (scope : Scope) : Prop where
  ns : scope.ns = "" ∨ isFullName scope.ns ∧ scope.ns.toList.getLast? ≠ some '\\'
  imports : ∀ entry ∈ scope.imports.entries, isFullName entry.2

theorem isFullName_append {name : String} (full : isFullName name) (rest : String) : isFullName (name ++ rest) := by
  cases chars : name.toList with
  | nil => simp [isFullName, chars] at full
  | cons c cs => simpa [isFullName, chars] using full

theorem isFullName_backslash (rest : String) : isFullName ("\\" ++ rest) :=
  isFullName_append (by decide) rest

theorem wellFormed_root : root.WellFormed :=
  ⟨Or.inl rfl, by simp [root, NameMap.empty]⟩

/-- A normalized namespace has no backslash at its end. -/
theorem wellFormed_inNamespace (name : String) : (root.inNamespace name).WellFormed := by
  refine ⟨?_, wellFormed_root.imports⟩
  obtain ⟨front, trail, same, slashes, stops⟩ := Text.exists_dropWhileEnd (· == '\\') (Text.trim name.toList)
  have isFront := Text.dropWhileEnd_append_stop slashes stops
  rw [← same] at isFront
  unfold inNamespace normalizeNamespace
  dsimp only
  rw [isFront]
  cases front with
  | nil => exact Or.inl rfl
  | cons c cs =>
    have last : (c :: cs).getLast? ≠ some '\\' := fun isLast => stops '\\' isLast rfl
    refine Or.inr ?_
    by_cases slash : c = '\\'
    · simpa [slash, isFullName] using last
    · simpa [slash, isFullName] using last

theorem isFullName_target (item : Import) : isFullName item.target := by
  unfold Import.target
  cases item.group with
  | none => exact isFullName_backslash _
  | some group => exact isFullName_append (isFullName_append (isFullName_backslash _) _) _

namespace WellFormed

variable {scope : Scope} (wellFormed : scope.WellFormed)

include wellFormed

theorem addImports (items : List Import) : (scope.addImports items).WellFormed := by
  induction items generalizing scope with
  | nil => exact wellFormed
  | cons item items ih =>
    have first : (scope.addImport item.short item.target).WellFormed := by
      refine ⟨wellFormed.ns, fun entry member => ?_⟩
      rcases List.mem_cons.mp member with rfl | member
      · exact isFullName_target item
      · exact wellFormed.imports entry (List.mem_filter.mp member).1
    exact ih first

theorem behind (node : Node) : (scope.behind node).WellFormed := by
  cases node with
  | imports items => exact wellFormed.addImports items
  | _ => exact wellFormed

theorem foldl_behind (nodes : List Node) : (nodes.foldl Scope.behind scope).WellFormed := by
  induction nodes generalizing scope with
  | nil => exact wellFormed
  | cons node nodes ih => exact ih (wellFormed.behind node)

theorem isFullName_qualify (name : String) : isFullName (scope.qualify name) := by
  rcases wellFormed.ns with empty | ⟨full, -⟩
  · rw [qualify, empty]
    exact isFullName_append (by decide) name
  · exact isFullName_append (isFullName_append full _) _

theorem isFullName_resolveCodeName (name : String) : isFullName (scope.resolveCodeName name) := by
  have imported {short target : String} (found : scope.imports.find? short = some target) : isFullName target :=
    wellFormed.imports _ (ClassTable.lookup_mem found)
  unfold resolveCodeName
  split
  · assumption
  · split
    next target found => exact imported found
    next =>
      dsimp only
      split
      next target found => exact isFullName_append (imported found) _
      next => exact wellFormed.isFullName_qualify name

theorem isFullName_parentOf (head : ClassHead) : ∀ name ∈ scope.parentOf head, isFullName name := by
  intro name isParent
  unfold parentOf at isParent
  split at isParent
  · obtain ⟨short, -, rfl⟩ := Option.map_eq_some_iff.mp isParent
    exact wellFormed.isFullName_resolveCodeName short
  · simp at isParent

/-- What a declared class-like inherits from has full names. -/
theorem isFullName_supers (head : ClassHead) : ∀ name ∈ (scope.entryOf head).supers, isFullName name := by
  have resolved (names : List String) : ∀ name ∈ names.map scope.resolveCodeName, isFullName name := by
    intro name member
    obtain ⟨short, -, rfl⟩ := List.mem_map.mp member
    exact wellFormed.isFullName_resolveCodeName short
  intro name member
  unfold entryOf at member
  split at member
  · rcases List.mem_append.mp member with isParent | isInterface
    · exact wellFormed.isFullName_parentOf head name (Option.mem_toList.mp isParent)
    · exact resolved head.implemented name isInterface
  · exact resolved head.extended name member
  · simp [ClassEntry.supers] at member
  · next backed _ =>
    have predefined : isFullName (if backed then "\\BackedEnum" else "\\UnitEnum") := by cases backed <;> decide
    rcases List.mem_append.mp (show name ∈ head.implemented.map scope.resolveCodeName ++ [_] from member) with
      isInterface | isLast
    · exact resolved head.implemented name isInterface
    · rwa [List.mem_singleton.mp isLast]

end WellFormed

end Scope

theorem ClassTable.WellNamed.declare {classes : ClassTable} (named : classes.WellNamed) {scope : Scope}
    (wellFormed : scope.WellFormed) (head : ClassHead) : (classes.declare scope head).WellNamed := by
  unfold ClassTable.declare
  cases head.name with
  | none => exact named
  | some name =>
    refine ⟨fun entry member => ?_, fun entry member => ?_⟩
    · rcases List.mem_cons.mp member with rfl | member
      · exact wellFormed.isFullName_qualify name
      · exact named.keys entry (List.mem_filter.mp member).1
    · rcases List.mem_cons.mp member with rfl | member
      · exact wellFormed.isFullName_supers head
      · exact named.supers entry (List.mem_filter.mp member).1

namespace Check

/-- A node that the collection comes to, and the scope that holds there. -/
structure Site where
  scope : Scope
  node : Node

/-- Adds the class-like of a site, if it is one. -/
def Site.declare (classes : ClassTable) (site : Site) : ClassTable :=
  match site.node with
  | .classLike head _ _ _ => classes.declare site.scope head
  | _ => classes

mutual

/-- The sites of a node: itself and all nodes below it. -/
def sites (scope : Scope) : Node → List Site
  | .namespaceBlock span name body =>
    ⟨scope, .namespaceBlock span name body⟩ :: siteSequence (Scope.root.inNamespace name) body
  | .imports items => [⟨scope, .imports items⟩]
  | .classLike head attributes arguments members =>
    ⟨scope, .classLike head attributes arguments members⟩ ::
      (sitesIn scope attributes ++ sitesIn scope arguments ++ sitesIn scope members)
  | .functionLike head attributes parameters body =>
    ⟨scope, .functionLike head attributes parameters body⟩ ::
      (sitesIn scope attributes ++ sitesIn scope parameters ++ sitesIn scope body)
  | .parameter head attributes default hooks =>
    ⟨scope, .parameter head attributes default hooks⟩ ::
      (sitesIn scope attributes ++ sitesIn scope default ++ sitesIn scope hooks)
  | .property start hint parts => ⟨scope, .property start hint parts⟩ :: sitesIn scope parts
  | .constant start parts => ⟨scope, .constant start parts⟩ :: sitesIn scope parts
  | .compound construct parts => ⟨scope, .compound construct parts⟩ :: sitesIn scope parts

/-- The sites of several nodes, all in one scope. -/
def sitesIn (scope : Scope) : List Node → List Site
  | [] => []
  | node :: nodes => sites scope node ++ sitesIn scope nodes

/-- The sites of consecutive statements, where imports count for what follows. -/
def siteSequence (scope : Scope) : List Node → List Site
  | [] => []
  | node :: nodes => sites scope node ++ siteSequence (scope.behind node) nodes

end

/-- To collect class-likes is to declare them site by site. -/
theorem collect_eq_foldl :
    (∀ scope classes node, collect scope classes node = (sites scope node).foldl Site.declare classes) ∧
      (∀ scope classes nodes, collectAll scope classes nodes = (sitesIn scope nodes).foldl Site.declare classes) ∧
      ∀ scope classes nodes,
        collectSequence scope classes nodes = (siteSequence scope nodes).foldl Site.declare classes := by
  refine collect.mutual_induct _ _ _ ?namespaceBlock ?imports ?classLike ?functionLike ?parameter ?property
    ?constant ?compound ?nil ?cons ?noStatements ?importStatement ?otherStatement
  case namespaceBlock =>
    intro scope classes span name body body_eq
    rw [collect, body_eq]
    rfl
  case imports =>
    intro scope classes items
    rw [collect]
    rfl
  case classLike =>
    intro scope classes head attributes arguments members declared attributes_eq arguments_eq members_eq
    have declared_eq : declared = (sitesIn scope attributes).foldl Site.declare (classes.declare scope head) :=
      attributes_eq
    rw [collect, members_eq, arguments_eq, declared_eq, ← List.foldl_append, ← List.foldl_append,
      ← List.append_assoc]
    rfl
  case functionLike =>
    intro scope classes head attributes parameters body attributes_eq parameters_eq body_eq
    rw [collect, body_eq, parameters_eq, attributes_eq, ← List.foldl_append, ← List.foldl_append,
      ← List.append_assoc]
    rfl
  case parameter =>
    intro scope classes head attributes default hooks attributes_eq default_eq hooks_eq
    rw [collect, hooks_eq, default_eq, attributes_eq, ← List.foldl_append, ← List.foldl_append,
      ← List.append_assoc]
    rfl
  case property =>
    intro scope classes start hint parts parts_eq
    rw [collect, parts_eq]
    rfl
  case constant =>
    intro scope classes start parts parts_eq
    rw [collect, parts_eq]
    rfl
  case compound =>
    intro scope classes construct parts parts_eq
    rw [collect, parts_eq]
    rfl
  case nil =>
    intro scope classes
    rw [collectAll]
    rfl
  case cons =>
    intro scope classes node nodes node_eq nodes_eq
    rw [collectAll, nodes_eq, node_eq, ← List.foldl_append]
    rfl
  case noStatements =>
    intro scope classes
    rw [collectSequence]
    rfl
  case importStatement =>
    intro scope classes items nodes nodes_eq
    rw [collectSequence, nodes_eq]
    rfl
  case otherStatement =>
    intro scope classes node nodes other node_eq nodes_eq
    rw [collectSequence]
    · rw [nodes_eq, node_eq, ← List.foldl_append, siteSequence, Scope.behind_of_ne other]
    · exact other

theorem classTable_eq_foldl (statements : List Node) :
    classTable statements = (siteSequence .root statements).foldl Site.declare .empty :=
  collect_eq_foldl.2.2 .root .empty statements

/-- Every scope that the collection reaches is well formed. -/
theorem wellFormed_sites :
    (∀ scope node, scope.WellFormed → ∀ site ∈ sites scope node, site.scope.WellFormed) ∧
      (∀ scope nodes, scope.WellFormed → ∀ site ∈ sitesIn scope nodes, site.scope.WellFormed) ∧
      ∀ scope nodes, scope.WellFormed → ∀ site ∈ siteSequence scope nodes, site.scope.WellFormed := by
  refine sites.mutual_induct _ _ _ ?namespaceBlock ?imports ?classLike ?functionLike ?parameter ?property ?constant
    ?compound ?nil ?cons ?noStatements ?statement
  case namespaceBlock =>
    intro scope span name body ofBody wellFormed
    rw [sites, List.forall_mem_cons]
    exact ⟨wellFormed, ofBody (Scope.wellFormed_inNamespace name)⟩
  case imports =>
    intro scope items wellFormed
    rw [sites, List.forall_mem_cons]
    exact ⟨wellFormed, by simp⟩
  case classLike | functionLike | parameter =>
    intro scope head first second third ofFirst ofSecond ofThird wellFormed
    rw [sites, List.forall_mem_cons, List.forall_mem_append, List.forall_mem_append]
    exact ⟨wellFormed, ⟨ofFirst wellFormed, ofSecond wellFormed⟩, ofThird wellFormed⟩
  case property =>
    intro scope start hint parts ofParts wellFormed
    rw [sites, List.forall_mem_cons]
    exact ⟨wellFormed, ofParts wellFormed⟩
  case constant | compound =>
    intro scope kind parts ofParts wellFormed
    rw [sites, List.forall_mem_cons]
    exact ⟨wellFormed, ofParts wellFormed⟩
  case nil | noStatements =>
    intro scope wellFormed
    simp [sitesIn, siteSequence]
  case cons =>
    intro scope node nodes ofNode ofNodes wellFormed
    rw [sitesIn, List.forall_mem_append]
    exact ⟨ofNode wellFormed, ofNodes wellFormed⟩
  case statement =>
    intro scope node nodes ofNode ofNodes wellFormed
    rw [siteSequence, List.forall_mem_append]
    exact ⟨ofNode wellFormed, ofNodes (wellFormed.behind node)⟩

theorem wellNamed_foldl {places : List Site} (wellFormed : ∀ site ∈ places, site.scope.WellFormed)
    {classes : ClassTable} (named : classes.WellNamed) : (places.foldl Site.declare classes).WellNamed := by
  induction places generalizing classes with
  | nil => exact named
  | cons site places ih =>
    obtain ⟨atSite, others⟩ := List.forall_mem_cons.mp wellFormed
    refine ih others ?_
    unfold Site.declare
    split
    · exact named.declare atSite _
    · exact named

/-- The scope inside a node is well formed if the one around it is. -/
theorem Derives.wellFormed {around inside : Scope} {node : Node} (derives : Derives around node inside)
    (wellFormed : around.WellFormed) : inside.WellFormed := by
  cases node with
  | namespaceBlock span name body =>
    obtain rfl : inside = _ := derives
    exact Scope.wellFormed_inNamespace name
  | imports items =>
    obtain rfl : inside = _ := derives
    exact wellFormed.addImports items
  | classLike head attributes arguments members =>
    obtain ⟨templates, rfl⟩ := derives
    exact ⟨wellFormed.ns, wellFormed.imports⟩
  | functionLike head attributes parameters body =>
    obtain ⟨templates, rfl⟩ := derives
    exact ⟨wellFormed.ns, wellFormed.imports⟩
  | _ =>
    obtain rfl : inside = around := derives
    exact wellFormed

theorem Part.wellFormed_statements {scope : Scope} (wellFormed : scope.WellFormed) (nodes : List Node) :
    ∀ part ∈ Part.statements scope nodes, part.scope.WellFormed := by
  induction nodes generalizing scope with
  | nil => simp [Part.statements]
  | cons node nodes ih => exact List.forall_mem_cons.mpr ⟨wellFormed, ih (wellFormed.behind node)⟩

theorem Part.wellFormed_outside {part : Part} (wellFormed : part.scope.WellFormed) :
    ∀ other ∈ part.outside, other.scope.WellFormed := by
  intro other member
  unfold Part.outside at member
  split at member
  · obtain ⟨node, -, rfl⟩ := List.mem_map.mp member
    exact wellFormed
  · simp at member

theorem Part.wellFormed_within {part : Part} {inside : Scope} (wellFormed : inside.WellFormed) :
    ∀ other ∈ part.within inside, other.scope.WellFormed := by
  have among (nodes : List Node) : ∀ other ∈ Part.among inside nodes, other.scope.WellFormed := by
    intro other member
    obtain ⟨node, -, rfl⟩ := List.mem_map.mp member
    exact wellFormed
  unfold Part.within
  split
  · exact Part.wellFormed_statements wellFormed _
  · simp
  · exact among _
  · refine List.forall_mem_append.mpr ⟨?_, Part.wellFormed_statements wellFormed _⟩
    intro other member
    obtain ⟨node, -, rfl⟩ := List.mem_map.mp member
    exact wellFormed
  all_goals exact among _

/-- Every scope that the walk reaches is well formed, around a node and inside it. -/
theorem Visits.wellFormed {file : SourceFile} {parts : List Part} {before after : Progress} {visits : List Visit}
    (run : Visits file parts before visits after) (wellFormed : ∀ part ∈ parts, part.scope.WellFormed) :
    ∀ visit ∈ visits, visit.around.WellFormed ∧ visit.inside.WellFormed := by
  induction run with
  | nil => simp
  | cons _ enter _ _ ofOutside ofWithin ofRest =>
    obtain ⟨atPart, others⟩ := List.forall_mem_cons.mp wellFormed
    have inside := (yields_enter _ _ _ _ enter).1.wellFormed atPart
    have outer := ofOutside (Part.wellFormed_outside atPart)
    have inner := ofWithin (Part.wellFormed_within inside)
    exact List.forall_mem_append.mpr ⟨List.forall_mem_append.mpr ⟨outer, inner⟩,
      List.forall_mem_cons.mpr ⟨⟨atPart, inside⟩, ofRest others⟩⟩

/-- The region of a visit has the scope inside it, with the imports of a namespace. -/
theorem Visit.wellFormed_region {visit : Visit} (wellFormed : visit.inside.WellFormed) :
    ∀ region ∈ visit.region?, region.scope.WellFormed := by
  intro region isRegion
  unfold Visit.region? at isRegion
  split at isRegion
  · obtain rfl := Option.some.inj isRegion
    exact wellFormed.foldl_behind _
  · obtain rfl := Option.some.inj isRegion
    exact wellFormed
  · obtain rfl := Option.some.inj isRegion
    exact wellFormed
  · cases isRegion

/-- The table that is collected from a program holds full names only. Both passes over a program reach scopes
only where the namespace is empty or has a backslash in front and none at the end, and where every import leads
to a full name. -/
theorem collected_names_full (statements : List Node) :
    (classTable statements).WellNamed ∧ (∀ site ∈ siteSequence .root statements, site.scope.WellFormed) ∧
      ∀ file, ∃ visits progress, Tour file statements visits progress ∧
        (∀ visit ∈ visits, visit.around.WellFormed ∧ visit.inside.WellFormed) ∧
        (∀ region ∈ progress.regions, region.scope.WellFormed) ∧
        (statements.foldl Scope.behind .root).WellFormed := by
  have atSites := wellFormed_sites.2.2 .root statements Scope.wellFormed_root
  refine ⟨?_, atSites, fun file => ?_⟩
  · rw [classTable_eq_foldl]
    exact wellNamed_foldl atSites (by decide)
  · obtain ⟨visits, progress, tour⟩ := exists_tour file statements
    have atVisits := tour.visits.wellFormed (Part.wellFormed_statements Scope.wellFormed_root statements)
    refine ⟨visits, progress, tour, atVisits, fun region member => ?_,
      Scope.wellFormed_root.foldl_behind statements⟩
    rw [tour.regions] at member
    obtain ⟨visit, isVisit, isRegion⟩ := List.mem_filterMap.mp member
    exact visit.wellFormed_region (atVisits visit isVisit).2 region isRegion

end Check

end DocTypes
