import DocTypes.Edit
import DocTypes.Position

namespace DocTypes

inductive Severity where
  | warning
  | error
deriving DecidableEq, Repr

def Severity.name : Severity → String
  | warning => "warning"
  | error => "error"

/-- What a verdict is about. -/
inductive Code where
  | unchecked
  | propertyType
  | propertyName
  | propertyStyle
  | templateName
  | templateType
  | templateStyle
  | paramCount
  | paramType
  | paramName
  | paramNameMismatch
  | paramTypeMismatch
  | paramStyle
  | paramSplatMismatch
  | returnMultiple
  | returnType
  | returnTypeMismatch
  | returnStyle
  | varType
  | varTypeMismatch
  | varStyle
deriving DecidableEq, Repr

namespace Code

def all : List Code :=
  [unchecked, propertyType, propertyName, propertyStyle, templateName, templateType, templateStyle,
    paramCount, paramType, paramName, paramNameMismatch, paramTypeMismatch, paramStyle,
    paramSplatMismatch, returnMultiple, returnType, returnTypeMismatch, returnStyle, varType,
    varTypeMismatch, varStyle]

/-- The stable name of a code. -/
def name : Code → String
  | unchecked => "phpdoc_type_parse"
  | propertyType => "phpdoc_class_prop_type"
  | propertyName => "phpdoc_class_prop_name"
  | propertyStyle => "phpdoc_class_prop_type_style"
  | templateName => "phpdoc_template_name"
  | templateType => "phpdoc_template_type"
  | templateStyle => "phpdoc_template_type_style"
  | paramCount => "phpdoc_fun_param_count"
  | paramType => "phpdoc_fun_param_type"
  | paramName => "phpdoc_fun_param_name"
  | paramNameMismatch => "phpdoc_fun_param_name_mismatch"
  | paramTypeMismatch => "phpdoc_fun_param_type_mismatch"
  | paramStyle => "phpdoc_fun_param_type_style"
  | paramSplatMismatch => "phpdoc_fun_param_pass_splat_mismatch"
  | returnMultiple => "phpdoc_fun_ret_multiple"
  | returnType => "phpdoc_fun_ret_type"
  | returnTypeMismatch => "phpdoc_fun_ret_type_mismatch"
  | returnStyle => "phpdoc_fun_ret_type_style"
  | varType => "phpdoc_var_type"
  | varTypeMismatch => "phpdoc_var_type_mismatch"
  | varStyle => "phpdoc_var_type_style"

def ofName? (name : String) : Option Code :=
  all.find? fun code => code.name == name

/-- Matters of style, and a splat that only one side has, are warnings. -/
def severity : Code → Severity
  | propertyStyle | templateStyle | paramStyle | paramSplatMismatch | returnStyle | varStyle =>
    .warning
  | _ => .error

theorem ofName?_name (code : Code) : ofName? code.name = some code := by
  cases code <;> decide

end Code

/-- A verdict on a place in the source. -/
structure Finding where
  code : Code
  offset : Nat
  message : String
  /-- The edits that resolve a verdict on style. -/
  fix : Option (List Edit)
deriving DecidableEq, Repr

/-- A verdict with the line and column of its place. -/
structure Diagnostic extends Finding where
  position : Position
deriving DecidableEq, Repr

/-- The verdict with its place looked up in the source. -/
def Finding.locate (source : List Char) (finding : Finding) : Diagnostic :=
  { finding with position := Position.ofOffset source finding.offset }

namespace Diagnostic

def severity (diagnostic : Diagnostic) : Severity :=
  diagnostic.code.severity

def isError (diagnostic : Diagnostic) : Bool :=
  diagnostic.severity == .error

/-- Verdicts in the order of the source; those at one place stay in the order they were made. -/
def inSourceOrder (diagnostics : List Diagnostic) : List Diagnostic :=
  diagnostics.mergeSort fun a b => a.offset ≤ b.offset

/-- The single verdict on a file whose checks could not be completed. -/
def fileLevel : Diagnostic where
  code := .unchecked
  message := "The PHPDoc type checker failed to parse the file.  " ++
    "PHPDoc type checks were not performed."
  offset := 0
  position := ⟨1, 1⟩
  fix := none

/-- The source with all fixes made. -/
def applyFixes (source : List Char) (diagnostics : List Diagnostic) : List Char :=
  Edit.applyAll source (diagnostics.flatMap fun d => d.fix.getD [])

end Diagnostic

end DocTypes
