namespace DocTypes

inductive ParseError where
  | unexpectedEnd
  | expected (wanted found : String)
  | expectedType
  | unrecognised (token : String)
  | unionInIntersection
  | intersectionNonObject (member : String)
  | intRangeBound (bound found : String)
  | invalidIntMask (mask : String)
  | classStringNotClass (type : String)
  | listWithKey
  | invalidArrayKey (key : String)
  | nonEmptyShape
  | invalidObjectKey
  | notIterable (type : String)
  | trailingBackslash (name : String)
  | noSpaceAfterType
  | noSpaceAfterName
  | expectedVariable (found : String)
  | expectedTemplateName (found : String)
  | tooDeep (limit : Nat)
deriving DecidableEq, Repr

/-- The text shown for an error. -/
def ParseError.message : ParseError → String
  | .unexpectedEnd => "unexpected end of type"
  | .expected wanted found => "expected \"" ++ wanted ++ "\", saw \"" ++ found ++ "\""
  | .expectedType => "expected type, saw end"
  | .unrecognised token => "unrecognised type \"" ++ token ++ "\""
  | .unionInIntersection => "union inside an intersection is not in disjunctive normal form"
  | .intersectionNonObject member =>
    "intersection can only be used with objects, saw \"" ++ member ++ "\""
  | .intRangeBound bound found => "expected int " ++ bound ++ ", saw \"" ++ found ++ "\""
  | .invalidIntMask mask => "invalid int mask \"" ++ mask ++ "\""
  | .classStringNotClass type => "class-string type \"" ++ type ++ "\" isn't a class"
  | .listWithKey => "lists cannot have keys specified"
  | .invalidArrayKey key => "invalid array key \"" ++ key ++ "\""
  | .nonEmptyShape => "non-empty arrays cannot have shapes"
  | .invalidObjectKey => "invalid object key"
  | .notIterable type => "can't get key or value of non-iterable \"" ++ type ++ "\""
  | .trailingBackslash name => "class name \"" ++ name ++ "\" has a trailing backslash"
  | .noSpaceAfterType => "no space after type"
  | .noSpaceAfterName => "no space after name"
  | .expectedVariable found => "expected variable, saw \"" ++ found ++ "\""
  | .expectedTemplateName found => "expected template name, saw \"" ++ found ++ "\""
  | .tooDeep limit => "type nested more than " ++ toString limit ++ " levels deep"

end DocTypes
