import DocTypes.Hierarchy.SuperTypes

namespace DocTypes

namespace ClassTable

/-- What a search has yet to do. -/
inductive Search where
  | supers (atom : String)
  | walk (queue found : List String)

/-- Searches that come to an end, with what they find. -/
inductive Searches (classes : ClassTable) : Search → List String → Prop
  | word {atom : String} {supers : List String} (view : Atom.view atom = .word supers) :
      Searches classes (.supers atom) supers
  | unknown {atom : String} (view : Atom.view atom = .unknown) : Searches classes (.supers atom) []
  | boundStatic {atom name : String} {result : List String} (view : Atom.view atom = .boundStatic name)
      (walks : Searches classes (.walk [name] staticWords) result) : Searches classes (.supers atom) result
  | className {atom : String} {result : List String} (view : Atom.view atom = .className)
      (walks : Searches classes (.walk ((classes.edges? atom).getD []) ["object"]) result) :
      Searches classes (.supers atom) result
  | done (found : List String) : Searches classes (.walk [] found) found
  | skip {name : String} {queue found result : List String} (known : name = "" ∨ name ∈ found)
      (walks : Searches classes (.walk queue found) result) : Searches classes (.walk (name :: queue) found) result
  | edges {name : String} {queue found next result : List String} (fresh : ¬ (name = "" ∨ name ∈ found))
      (leads : classes.edges? name = some next)
      (walks : Searches classes (.walk (queue ++ next) (found ++ [name])) result) :
      Searches classes (.walk (name :: queue) found) result
  | leaf {name : String} {queue found extras result : List String} (fresh : ¬ (name = "" ∨ name ∈ found))
      (ends : classes.edges? name = none) (searches : Searches classes (.supers name) extras)
      (walks : Searches classes (.walk queue (appendNew (found ++ [name]) extras)) result) :
      Searches classes (.walk (name :: queue) found) result

/-- What becomes of a search. -/
def Search.outcome? (classes : ClassTable) : Search → Option (List String)
  | supers atom => classes.search? atom
  | walk queue found => classes.reach? queue found

variable {classes : ClassTable} {search : Search} {result : List String}

theorem Searches.outcome? (searches : classes.Searches search result) : search.outcome? classes = some result := by
  induction searches with
  | word view | unknown view => simp only [Search.outcome?, search?, view]
  | boundStatic view _ ih | className view _ ih => simpa only [Search.outcome?, search?, view] using ih
  | done => simp only [Search.outcome?, reach?]
  | skip known _ ih =>
    simp only [Search.outcome?, reach?, if_pos known]
    exact ih
  | edges fresh leads _ ih =>
    simp only [Search.outcome?, reach?, if_neg fresh, leads]
    exact ih
  | leaf fresh ends _ _ ihSearch ihWalk =>
    have isSearch : classes.search? _ = some _ := ihSearch
    simp only [Search.outcome?, reach?, if_neg fresh, ends, isSearch]
    exact ihWalk

/-- The function that runs gives what a finite search finds, and gives nothing only if there is none. It is the
least one to satisfy its equations, so its induction is on the calls it makes. -/
theorem searches_iff_outcome : classes.Searches search result ↔ search.outcome? classes = some result := by
  refine ⟨Searches.outcome?, ?_⟩
  have both := search?.mutual_partial_correctness classes (fun atom found => classes.Searches (.supers atom) found)
    (fun queue found result => classes.Searches (.walk queue found) result) ?supers ?walk
  case supers =>
    intro walk walks atom result isResult
    split at isResult
    next supers view =>
      cases isResult
      exact .word view
    next name view => exact .boundStatic view (walks _ _ _ isResult)
    next view => exact .className view (walks _ _ _ isResult)
    next view =>
      cases isResult
      exact .unknown view
  case walk =>
    intro supers walk searches walks queue found result isResult
    split at isResult
    next =>
      cases isResult
      exact .done found
    next name queue =>
      split at isResult
      next known => exact .skip known (walks _ _ _ isResult)
      next fresh =>
        split at isResult
        next next leads => exact .edges fresh leads (walks _ _ _ isResult)
        next ends =>
          obtain ⟨extras, isSearch, isWalk⟩ := Option.bind_eq_some_iff.mp isResult
          exact .leaf fresh ends (searches _ _ isSearch) (walks _ _ _ isWalk)
  cases search with
  | supers atom => exact both.1 atom result
  | walk queue found => exact both.2 queue found result

end ClassTable

end DocTypes
