import DocTypes.Diagnostic
import DocTypes.Report.Json

namespace DocTypes

/-- The verdicts on one file. -/
structure FileReport where
  path : String
  diagnostics : List Diagnostic
deriving DecidableEq, Repr

namespace FileReport

def errorCount (report : FileReport) : Nat :=
  report.diagnostics.countP Diagnostic.isError

/-- One line: place, severity, code and message. -/
def line (path : String) (d : Diagnostic) : String :=
  path ++ ":" ++ toString d.position.line ++ ":" ++ toString d.position.column ++ ": " ++
    d.severity.name ++ "[" ++ d.code.name ++ "]: " ++ d.message ++ "\n"

def text (report : FileReport) : String :=
  String.join (report.diagnostics.map (line report.path))

end FileReport

def Edit.toJson (edit : Edit) : Json :=
  .object [("offset", .number edit.offset), ("len", .number edit.len),
    ("replacement", .text edit.replacement)]

def Diagnostic.toJson (d : Diagnostic) : Json :=
  .object <|
    [("code", .text d.code.name), ("severity", .text d.severity.name), ("message", .text d.message),
      ("offset", .number d.offset), ("line", .number d.position.line),
      ("column", .number d.position.column)] ++
    match d.fix with
    | some edits => [("fix", .array (edits.map Edit.toJson))]
    | none => []

namespace FileReport

def toJson (report : FileReport) : Json :=
  .object [("path", .text report.path),
    ("diagnostics", .array (report.diagnostics.map Diagnostic.toJson))]

/-- The JSON text of several reports. -/
def jsonText (reports : List FileReport) : String :=
  (Json.array (reports.map toJson)).pretty 0

end FileReport

end DocTypes
