import DocTypes.Check.Walk
import DocTypes.Php.Statement

namespace DocTypes.Check

/-- What parses sources. It gives no program where it panics. -/
abbrev FrontEnd := List Char → Option Php.Program

/-- The front end that the program runs with. -/
def frontEnd : FrontEnd :=
  fun source => some (.ofSource source)

/-- A source with its comments and class-likes. -/
def sourceFile (source : List Char) (program : Php.Program) : SourceFile :=
  ⟨source, program.comments, classTable program.statements⟩

/-- The class-likes declared in a source. -/
def sourceClasses (parse : FrontEnd) (source : List Char) : Except CheckError ClassTable :=
  match parse source with
  | some program => .ok (classTable program.statements)
  | none => .error .parserPanicked

/-- The verdicts on a parsed source, in source order. -/
def checkProgram (source : List Char) (program : Php.Program) : Except CheckError (List Diagnostic) := do
  let found ← findings (sourceFile source program) program.statements
  return Diagnostic.inSourceOrder (found.map (Finding.locate source))

def completeCheck (parse : FrontEnd) (source : List Char) : Except CheckError (List Diagnostic) :=
  match parse source with
  | some program => checkProgram source program
  | none => .error .parserPanicked

/-- The verdicts on a source. Unless `strict`, a check that cannot be completed gives one verdict
on the whole file. -/
def checkSource (parse : FrontEnd) (strict : Bool) (source : List Char) :
    Except CheckError (List Diagnostic) :=
  match completeCheck parse source with
  | .ok diagnostics => .ok diagnostics
  | .error error => if strict then .error error else .ok [.fileLevel]

/-- The source with all fixes made, and the verdicts on it before. -/
def fixSource (parse : FrontEnd) (strict : Bool) (source : List Char) :
    Except CheckError (List Char × List Diagnostic) := do
  let diagnostics ← checkSource parse strict source
  return (Diagnostic.applyFixes source diagnostics, diagnostics)

end DocTypes.Check
