import DocTypes.Proofs.GatheredClasses

namespace DocTypes

open Php (ClassHead Node)

namespace NameMap

variable {α : Type}

theorem find?_insert_of_ne {name key : String} (different : key ≠ name) (m : NameMap α) (value : α) :
    (m.insert name value).find? key = m.find? key := by
  obtain ⟨entries⟩ := m
  have others : (entries.filter (·.1 != name)).lookup key = entries.lookup key := by
    induction entries with
    | nil => rfl
    | cons entry entries ih =>
      by_cases same : entry.1 = name
      · have notKey : (key == entry.1) = false := by simpa [same] using different
        rw [List.filter_cons_of_neg (by simp [same]), ih, List.lookup_cons, notKey]
      · rw [List.filter_cons_of_pos (by simpa using same), List.lookup_cons, List.lookup_cons, ih]
  have notFirst : (key == name) = false := by simpa using different
  simp [find?, insert, List.lookup_cons, notFirst, others]

/-- Of several insertions under one name the last one counts. -/
theorem find?_foldl_insert (pairs : List (String × α)) (m : NameMap α) (key : String) :
    (pairs.foldl (fun m pair => m.insert pair.1 pair.2) m).find? key =
      (pairs.reverse.lookup key).or (m.find? key) := by
  induction pairs generalizing m with
  | nil => rfl
  | cons pair pairs ih =>
    obtain ⟨name, value⟩ := pair
    have inserted : (m.insert name value).find? key = (List.lookup key [(name, value)]).or (m.find? key) := by
      by_cases same : key = name
      · subst same
        simp
      · have notKey : (key == name) = false := by simpa using same
        simp [find?_insert_of_ne same, List.lookup_cons, notKey]
    rw [List.foldl_cons, ih, inserted, List.reverse_cons, List.lookup_append, Option.or_assoc]

end NameMap

/-- A pair whose name no other pair has is the one that is found. -/
theorem eq_of_count_eq_one {α : Type} {pairs : List (String × α)} {key : String} {first second : α}
    (once : (pairs.map Prod.fst).count key = 1) (isFirst : (key, first) ∈ pairs)
    (isSecond : (key, second) ∈ pairs) :
    first = second := by
  have length : (pairs.filter (·.1 == key)).length = 1 := by
    rw [← List.countP_eq_length_filter, ← once, List.count, List.countP_map]
    rfl
  obtain ⟨pair, only⟩ := List.length_eq_one_iff.mp length
  have among {value : α} (member : (key, value) ∈ pairs) : (key, value) = pair := by
    have kept : (key, value) ∈ pairs.filter (·.1 == key) := List.mem_filter.mpr ⟨member, by simp⟩
    simpa [only] using kept
  exact congrArg Prod.snd ((among isFirst).trans (among isSecond).symm)

namespace Scope

/-- The part of a scope that names of class-likes depend on in code. -/
def bare (scope : Scope) : Scope :=
  { scope with templates := .empty, className := none, parentName := none }

theorem bare_addImports (scope : Scope) (items : List Php.Import) :
    (scope.addImports items).bare = scope.bare.addImports items := by
  induction items generalizing scope with
  | nil => rfl
  | cons item items ih => exact ih _

theorem bare_behind (scope : Scope) (node : Node) : (scope.behind node).bare = scope.bare.behind node := by
  cases node with
  | imports items => exact scope.bare_addImports items
  | _ => rfl

theorem ns_behind (scope : Scope) (node : Node) : (scope.behind node).ns = scope.ns := by
  cases node with
  | imports items =>
    show (scope.addImports items).ns = scope.ns
    induction items generalizing scope with
    | nil => rfl
    | cons item items ih => exact ih _
  | _ => rfl

theorem parent_entryOf (scope : Scope) (head : ClassHead) : (scope.entryOf head).parent = scope.parentOf head := by
  obtain ⟨kind, span, name, extended, implemented⟩ := head
  cases kind <;> rfl

end Scope

namespace Check

mutual

/-- Whether no import stands in a node, but for those at the top of a namespace in it. -/
def importFree : Node → Bool
  | .namespaceBlock _ _ body => importsOnTop body
  | .imports _ => false
  | .classLike _ attributes arguments members =>
    importFreeIn attributes && importFreeIn arguments && importFreeIn members
  | .functionLike _ attributes parameters body =>
    importFreeIn attributes && importFreeIn parameters && importFreeIn body
  | .parameter _ attributes default hooks =>
    importFreeIn attributes && importFreeIn default && importFreeIn hooks
  | .property _ _ parts => importFreeIn parts
  | .constant _ parts => importFreeIn parts
  | .compound _ parts => importFreeIn parts

/-- Whether this is so of several nodes. -/
def importFreeIn : List Node → Bool
  | [] => true
  | node :: nodes => importFree node && importFreeIn nodes

/-- Whether imports stand only at the top of the statements, and of namespaces. -/
def importsOnTop : List Node → Bool
  | [] => true
  | .imports _ :: nodes => importsOnTop nodes
  | node :: nodes => importFree node && importsOnTop nodes

end

mutual

/-- The full names of the class-likes that a node in a namespace declares, wherever they stand. -/
def declaredNames (ns : String) : Node → List String
  | .namespaceBlock _ name body => declaredNamesIn (Scope.normalizeNamespace name) body
  | .imports _ => []
  | .classLike head attributes arguments members =>
    (head.name.map (ns ++ "\\" ++ ·)).toList ++
      (declaredNamesIn ns attributes ++ declaredNamesIn ns arguments ++ declaredNamesIn ns members)
  | .functionLike _ attributes parameters body =>
    declaredNamesIn ns attributes ++ declaredNamesIn ns parameters ++ declaredNamesIn ns body
  | .parameter _ attributes default hooks =>
    declaredNamesIn ns attributes ++ declaredNamesIn ns default ++ declaredNamesIn ns hooks
  | .property _ _ parts => declaredNamesIn ns parts
  | .constant _ parts => declaredNamesIn ns parts
  | .compound _ parts => declaredNamesIn ns parts

/-- Those of several nodes. -/
def declaredNamesIn (ns : String) : List Node → List String
  | [] => []
  | node :: nodes => declaredNames ns node ++ declaredNamesIn ns nodes

end

/-- The name and entry of the class-like at a site, unless it has no name. -/
def Site.declared? (site : Site) : Option (String × ClassEntry) :=
  match site.node with
  | .classLike head _ _ _ => head.name.map fun name => (site.scope.qualify name, site.scope.entryOf head)
  | _ => none

/-- The names and entries of the class-likes at sites. -/
def Site.declarations (places : List Site) : List (String × ClassEntry) :=
  places.filterMap Site.declared?

theorem foldl_declare (places : List Site) (classes : ClassTable) :
    places.foldl Site.declare classes =
      (Site.declarations places).foldl (fun classes pair => classes.insert pair.1 pair.2) classes := by
  induction places generalizing classes with
  | nil => rfl
  | cons site places ih =>
    have first : Site.declare classes site =
        site.declared?.toList.foldl (fun classes pair => classes.insert pair.1 pair.2) classes := by
      unfold Site.declare Site.declared? ClassTable.declare
      cases site.node with
      | classLike head attributes arguments members =>
        dsimp only
        cases head.name <;> rfl
      | _ => rfl
    have pairs : Site.declarations (site :: places) = site.declared?.toList ++ Site.declarations places := by
      unfold Site.declarations
      cases isDeclared : site.declared? <;> simp [isDeclared]
    rw [List.foldl_cons, ih, first, pairs, List.foldl_append]

theorem Site.declarations_append (first second : List Site) :
    declarations (first ++ second) = declarations first ++ declarations second :=
  List.filterMap_append

/-- The sites of a node declare the names that are declared in it. -/
theorem names_declarations :
    (∀ scope node, (Site.declarations (sites scope node)).map Prod.fst = declaredNames scope.ns node) ∧
      (∀ scope nodes, (Site.declarations (sitesIn scope nodes)).map Prod.fst = declaredNamesIn scope.ns nodes) ∧
      ∀ scope nodes, (Site.declarations (siteSequence scope nodes)).map Prod.fst =
        declaredNamesIn scope.ns nodes := by
  refine sites.mutual_induct _ _ _ ?namespaceBlock ?imports ?classLike ?functionLike ?parameter ?property ?constant
    ?compound ?nil ?cons ?noStatements ?statement
  case namespaceBlock =>
    intro scope span name body ofBody
    exact ofBody
  case imports =>
    intro scope items
    rfl
  case classLike =>
    intro scope head attributes arguments members ofAttributes ofArguments ofMembers
    have below :
        (Site.declarations (sitesIn scope attributes ++ sitesIn scope arguments ++ sitesIn scope members)).map
        Prod.fst = declaredNamesIn scope.ns attributes ++ declaredNamesIn scope.ns arguments ++
          declaredNamesIn scope.ns members := by
      rw [Site.declarations_append, Site.declarations_append, List.map_append, List.map_append, ofAttributes,
        ofArguments, ofMembers]
    rw [declaredNames, ← below, sites]
    cases isNamed : head.name <;> simp [Site.declarations, Site.declared?, isNamed, Scope.qualify]
  case functionLike =>
    intro scope head attributes parameters body ofAttributes ofParameters ofBody
    rw [declaredNames, ← ofAttributes, ← ofParameters, ← ofBody, ← List.map_append, ← List.map_append,
      ← Site.declarations_append, ← Site.declarations_append]
    rfl
  case parameter =>
    intro scope head attributes default hooks ofAttributes ofDefault ofHooks
    rw [declaredNames, ← ofAttributes, ← ofDefault, ← ofHooks, ← List.map_append, ← List.map_append,
      ← Site.declarations_append, ← Site.declarations_append]
    rfl
  case property =>
    intro scope start hint parts ofParts
    exact ofParts
  case constant =>
    intro scope start parts ofParts
    exact ofParts
  case compound =>
    intro scope construct parts ofParts
    exact ofParts
  case nil =>
    intro scope
    rfl
  case cons =>
    intro scope node nodes ofNode ofNodes
    rw [sitesIn, Site.declarations_append, List.map_append, ofNode, ofNodes]
    rfl
  case noStatements =>
    intro scope
    rfl
  case statement =>
    intro scope node nodes ofNode ofNodes
    rw [siteSequence, Site.declarations_append, List.map_append, ofNode, ofNodes, scope.ns_behind]
    rfl

/-- A class-like with a name at a site of a program is in the table that is collected, and with this entry if
no other one has its name. -/
theorem find?_classTable {statements : List Node} {site : Site} {key : String} {entry : ClassEntry}
    (member : site ∈ siteSequence .root statements) (declared : site.declared? = some (key, entry)) :
    ∃ found, (classTable statements).find? key = some found ∧
      ((declaredNamesIn "" statements).count key = 1 → found = entry) := by
  have isPair : (key, entry) ∈ Site.declarations (siteSequence .root statements) :=
    List.mem_filterMap.mpr ⟨site, member, declared⟩
  have lookup : (classTable statements).find? key =
      (Site.declarations (siteSequence .root statements)).reverse.lookup key := by
    rw [classTable_eq_foldl, foldl_declare]
    exact (NameMap.find?_foldl_insert _ .empty key).trans Option.or_none
  cases isFound : (Site.declarations (siteSequence .root statements)).reverse.lookup key with
  | none =>
    have absent := List.lookup_eq_none_iff.mp isFound (key, entry) (List.mem_reverse.mpr isPair)
    simp at absent
  | some found =>
    refine ⟨found, lookup.trans isFound, fun once => ?_⟩
    have isOther : (key, found) ∈ Site.declarations (siteSequence .root statements) :=
      List.mem_reverse.mp (ClassTable.lookup_mem isFound)
    have names := names_declarations.2.2 .root statements
    exact eq_of_count_eq_one (names ▸ once) isOther isPair

section Together

variable {scope : Scope} {nodes : List Node}

theorem mem_sitesIn {node : Node} {site : Site} (member : node ∈ nodes) (isSite : site ∈ sites scope node) :
    site ∈ sitesIn scope nodes := by
  induction nodes with
  | nil => cases member
  | cons first nodes ih =>
    rw [sitesIn, List.mem_append]
    rcases List.mem_cons.mp member with rfl | member
    · exact Or.inl isSite
    · exact Or.inr (ih member)

theorem importFree_of_mem (free : importFreeIn nodes) : ∀ node ∈ nodes, importFree node := by
  induction nodes with
  | nil => simp
  | cons first nodes ih =>
    obtain ⟨freeFirst, freeNodes⟩ := Bool.and_eq_true_iff.mp free
    exact List.forall_mem_cons.mpr ⟨freeFirst, ih freeNodes⟩

theorem behind_of_importFree {node : Node} (free : importFree node) : scope.behind node = scope := by
  refine Scope.behind_of_ne fun items isImports => ?_
  subst isImports
  simp [importFree] at free

/-- Statements without imports are walked in one scope. -/
theorem Part.statements_of_importFree (free : importFreeIn nodes) :
    Part.statements scope nodes = Part.among scope nodes := by
  induction nodes with
  | nil => rfl
  | cons node nodes ih =>
    obtain ⟨freeNode, freeNodes⟩ := Bool.and_eq_true_iff.mp free
    rw [Part.statements, behind_of_importFree freeNode, ih freeNodes]
    rfl

/-- A part below which imports stand only on top of namespaces. -/
def Part.Tidy (part : Part) : Prop :=
  (∃ items, part.node = .imports items) ∨ importFree part.node

/-- A part whose sites are among others. -/
def Part.SitesAmong (part : Part) (places : List Site) : Prop :=
  part.Tidy ∧ ∀ site ∈ sites part.scope.bare part.node, site ∈ places

theorem Part.SitesAmong.mono {part : Part} {places more : List Site} (among : part.SitesAmong places)
    (subset : ∀ site ∈ places, site ∈ more) : part.SitesAmong more :=
  ⟨among.1, fun site isSite => subset site (among.2 site isSite)⟩

theorem Part.sitesAmong_among (free : importFreeIn nodes) :
    ∀ part ∈ Part.among scope nodes, part.SitesAmong (sitesIn scope.bare nodes) := by
  intro part member
  obtain ⟨node, isNode, rfl⟩ := List.mem_map.mp member
  exact ⟨Or.inr (importFree_of_mem free node isNode), fun site isSite => mem_sitesIn isNode isSite⟩

/-- Nodes that are walked in another scope with the same names are collected all the same. -/
theorem Part.sitesAmong_same {inside : Scope} (same : inside.bare = scope.bare) (free : importFreeIn nodes)
    {places : List Site} (subset : ∀ site ∈ sitesIn scope.bare nodes, site ∈ places) :
    ∀ part ∈ Part.among inside nodes, part.SitesAmong places := by
  intro part member
  have among := Part.sitesAmong_among free part member
  rw [same] at among
  exact among.mono subset

theorem Part.sitesAmong_parameters (free : importFreeIn nodes) :
    ∀ part ∈ Part.parameters scope nodes, part.SitesAmong (sitesIn scope.bare nodes) := by
  intro part member
  obtain ⟨node, isNode, rfl⟩ := List.mem_map.mp member
  exact ⟨Or.inr (importFree_of_mem free node isNode), fun site isSite => mem_sitesIn isNode isSite⟩

theorem importsOnTop_cons {node : Node} (onTop : importsOnTop (node :: nodes)) :
    ((∃ items, node = .imports items) ∨ importFree node) ∧ importsOnTop nodes := by
  cases node with
  | imports items => exact ⟨Or.inl ⟨items, rfl⟩, onTop⟩
  | _ =>
    obtain ⟨freeNode, onTopNodes⟩ := Bool.and_eq_true_iff.mp onTop
    exact ⟨Or.inr freeNode, onTopNodes⟩

theorem Part.sitesAmong_statements (onTop : importsOnTop nodes) :
    ∀ part ∈ Part.statements scope nodes, part.SitesAmong (siteSequence scope.bare nodes) := by
  induction nodes generalizing scope with
  | nil => simp [Part.statements]
  | cons node nodes ih =>
    obtain ⟨tidy, onTopNodes⟩ := importsOnTop_cons onTop
    rw [siteSequence, Part.statements, List.forall_mem_cons]
    refine ⟨⟨tidy, fun site isSite => List.mem_append_left _ isSite⟩, fun part member => ?_⟩
    have among := ih onTopNodes part member
    rw [Scope.bare_behind] at among
    exact among.mono fun site isSite => List.mem_append_right _ isSite

end Together

theorem self_mem_sites (scope : Scope) (node : Node) : ⟨scope, node⟩ ∈ sites scope node := by
  cases node <;> exact List.mem_cons_self

/-- Neither templates nor the class around matter to the collection. -/
theorem Derives.bare_eq {around inside : Scope} {node : Node} (derives : Derives around node inside)
    (free : importFree node) (notNamespace : ∀ span name body, node ≠ .namespaceBlock span name body) :
    inside.bare = around.bare := by
  cases node with
  | namespaceBlock span name body => exact (notNamespace span name body rfl).elim
  | imports items => simp [importFree] at free
  | classLike head attributes arguments members =>
    obtain ⟨templates, rfl⟩ := derives
    rfl
  | functionLike head attributes parameters body =>
    obtain ⟨templates, rfl⟩ := derives
    rfl
  | _ =>
    obtain rfl : inside = around := derives
    rfl

/-- What is walked before a part and inside it is collected with the part. -/
theorem Part.sitesAmong_below {part : Part} {inside : Scope} (tidy : part.Tidy)
    (derives : Derives part.scope part.node inside) :
    ∀ other ∈ part.outside ++ part.within inside, other.SitesAmong (sites part.scope.bare part.node) := by
  obtain ⟨scope, node, listed⟩ := part
  rcases tidy with ⟨items, rfl⟩ | free
  · simp [Part.outside, Part.within]
  · intro other member
    cases node with
    | imports items => simp [importFree] at free
    | namespaceBlock span name body =>
      obtain rfl : inside = Scope.root.inNamespace name := derives
      exact (Part.sitesAmong_statements free other member).mono fun site isSite => List.mem_cons_of_mem _ isSite
    | classLike head attributes arguments members =>
      have same : inside.bare = scope.bare := derives.bare_eq free (by simp)
      simp only [importFree, Bool.and_eq_true] at free
      rcases List.mem_append.mp member with isArgument | isMember
      · exact (Part.sitesAmong_among free.1.2 other isArgument).mono fun site isSite => by simp [sites, isSite]
      · exact Part.sitesAmong_same same free.2 (fun site isSite => by simp [sites, isSite]) other isMember
    | functionLike head attributes parameters body =>
      have same : inside.bare = scope.bare := derives.bare_eq free (by simp)
      simp only [importFree, Bool.and_eq_true] at free
      rcases List.mem_append.mp
          (show other ∈ Part.parameters inside parameters ++ Part.statements inside body from member)
        with isParameter | isStatement
      · have among := Part.sitesAmong_parameters free.1.2 other isParameter
        rw [same] at among
        exact among.mono fun site isSite => by simp [sites, isSite]
      · rw [Part.statements_of_importFree free.2] at isStatement
        exact Part.sitesAmong_same same free.2 (fun site isSite => by simp [sites, isSite]) other isStatement
    | parameter head attributes default hooks =>
      have same : inside.bare = scope.bare := derives.bare_eq free (by simp)
      simp only [importFree, Bool.and_eq_true] at free
      obtain ⟨below, isBelow, rfl⟩ := List.mem_map.mp member
      have isPart : below ∈ attributes ∨ below ∈ default ∨ below ∈ hooks := by
        cases listed
        · simpa using isBelow
        · exact Or.inr (Or.inl isBelow)
      have among {nodes : List Node} (isNode : below ∈ nodes) : ⟨inside, below, false⟩ ∈ Part.among inside nodes :=
        List.mem_map_of_mem isNode
      rcases isPart with isAttribute | isDefault | isHook
      · exact Part.sitesAmong_same same free.1.1 (fun site isSite => by simp [sites, isSite]) _ (among isAttribute)
      · exact Part.sitesAmong_same same free.1.2 (fun site isSite => by simp [sites, isSite]) _ (among isDefault)
      · exact Part.sitesAmong_same same free.2 (fun site isSite => by simp [sites, isSite]) _ (among isHook)
    | _ =>
      have same : inside.bare = scope.bare := derives.bare_eq free (by simp)
      exact Part.sitesAmong_same same free (fun site isSite => List.mem_cons_of_mem _ isSite) other member

/-- Wherever the walk comes to, the collection comes to in the same namespace and with the same imports. -/
theorem Visits.mem_sites {file : SourceFile} {parts : List Part} {before after : Progress} {visits : List Visit}
    (run : Visits file parts before visits after) {places : List Site}
    (among : ∀ part ∈ parts, part.SitesAmong places) :
    ∀ visit ∈ visits, ⟨visit.around.bare, visit.node⟩ ∈ places := by
  induction run with
  | nil => simp
  | cons _ enter _ _ ofOutside ofWithin ofRest =>
    obtain ⟨⟨tidy, subset⟩, others⟩ := List.forall_mem_cons.mp among
    have below := Part.sitesAmong_below tidy (yields_enter _ _ _ _ enter).1
    have outer := ofOutside fun part member => (below part (List.mem_append_left _ member)).mono subset
    have inner := ofWithin fun part member => (below part (List.mem_append_right _ member)).mono subset
    have own := subset _ (self_mem_sites _ _)
    exact List.forall_mem_append.mpr ⟨List.forall_mem_append.mpr ⟨outer, inner⟩,
      List.forall_mem_cons.mpr ⟨own, ofRest others⟩⟩

/-- Provided that imports stand only at the top of the file and of namespaces, every class-like with a name that
the walk enters is in the collected table under the name that its scope has for it, and if no other class-like has
that name, then with the parent that its scope has. -/
theorem class_identities_agree {statements : List Node} (onTop : importsOnTop statements) (file : SourceFile) :
    ∃ visits progress, Tour file statements visits progress ∧
      ∀ visit ∈ visits, ∀ head attributes arguments members name,
        visit.node = .classLike head attributes arguments members → head.name = some name →
          ∃ key entry, key = visit.around.qualify name ∧ visit.inside.className = some key ∧
            (classTable statements).find? key = some entry ∧
            ((declaredNamesIn "" statements).count key = 1 → entry.parent = visit.inside.parentName) := by
  obtain ⟨visits, progress, tour⟩ := exists_tour file statements
  refine ⟨visits, progress, tour, fun visit member head attributes arguments members name isClass named => ?_⟩
  have isSite := tour.visits.mem_sites (Part.sitesAmong_statements onTop) visit member
  have derives := tour.visits.derives visit member
  rw [isClass] at derives isSite
  obtain ⟨templates, inside⟩ := derives
  have declared : Site.declared? ⟨visit.around.bare, .classLike head attributes arguments members⟩ =
      some (visit.around.qualify name, visit.around.entryOf head) := by
    show head.name.map _ = _
    rw [named]
    rfl
  obtain ⟨entry, found, once⟩ := find?_classTable isSite declared
  refine ⟨_, entry, rfl, ?_, found, fun alone => ?_⟩
  · rw [inside, named]
    rfl
  · rw [once alone, inside, Scope.parent_entryOf]
    rfl

/-- A class in a namespace whose parent is imported under another name. -/
theorem class_identities_agree_imported :
    ∃ statements, importsOnTop statements ∧ ∃ visits progress, Tour ⟨[], [], .empty⟩ statements visits progress ∧
      ∃ visit ∈ visits, visit.inside.className = some "\\App\\Child" ∧
        visit.inside.parentName = some "\\Lib\\Base" ∧
        (classTable statements).find? "\\App\\Child" = some ⟨some "\\Lib\\Base", []⟩ := by
  let child : Node := .classLike ⟨.plain, ⟨40, 64⟩, some "Child", ["B"], []⟩ [] [] []
  let body : List Node := [.imports [⟨none, "Lib\\Base", some "B"⟩], child]
  let block : Node := .namespaceBlock ⟨6, 64⟩ "App" body
  have onTop : importsOnTop [block] := by decide
  have table : (classTable [block]).find? "\\App\\Child" = some ⟨some "\\Lib\\Base", []⟩ := by decide
  have once : (declaredNamesIn "" [block]).count "\\App\\Child" = 1 := by decide
  obtain ⟨visits, progress, tour, agree⟩ := class_identities_agree onTop ⟨[], [], .empty⟩
  refine ⟨[block], onTop, visits, progress, tour, ?_⟩
  obtain ⟨outer, isOuter, -, isBlock⟩ := tour.visits.covers ⟨.root, block, false⟩ List.mem_cons_self
  have derives := tour.visits.derives outer isOuter
  obtain ⟨listed, _, _, inner, _, -, run, among⟩ := tour.visits.made outer isOuter
  rw [isBlock] at derives run
  have inside : outer.inside = Scope.root.inNamespace "App" := derives
  rw [inside] at run
  obtain ⟨visit, isVisit, around, isChild⟩ := run.covers _ (List.mem_cons_of_mem _ List.mem_cons_self)
  obtain ⟨key, entry, isKey, named, found, alone⟩ := agree visit (among visit isVisit) _ _ _ _ _ isChild rfl
  have keyName : key = "\\App\\Child" := by
    rw [isKey, around]
    decide
  subst keyName
  obtain rfl := Option.some.inj (found.symm.trans table)
  exact ⟨visit, among visit isVisit, named, (alone once).symm, table⟩

end Check

end DocTypes
