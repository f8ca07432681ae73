import Persona.Decimal.Text
import Persona.Syntax

/-! What an analysis has to say about a program. -/
namespace Persona

inductive Severity where
  | error | warning | suggestion
deriving DecidableEq

def Severity.name : Severity → String
  | error => "error"
  | warning => "warning"
  | suggestion => "suggestion"

inductive Finding where
  | syntacticError (message : String)
  | unresolvedIdentifier (name function : String)
  | traitOutOfRange (key : Trait) (value : Float)
  | duplicateTrait (key : Trait)
  | unreachableCode (after : String)
  | traitOverridden (key : Trait) (line : Nat)
  | unusedParameter (name function : String)
  | unknownReturnType (type function : String)
  | missingReturnValue (function type : String)
  | mainNotCalled
  | emptyFunctionBody (function : String)
  | infiniteLoop
deriving DecidableEq

namespace Finding

def severity : Finding → Severity
  | syntacticError _ | unresolvedIdentifier .. | traitOutOfRange .. | duplicateTrait _ => .error
  | unreachableCode _ | traitOverridden .. | unusedParameter .. | unknownReturnType ..
  | missingReturnValue .. => .warning
  | mainNotCalled | emptyFunctionBody _ | infiniteLoop => .suggestion

def kind : Finding → String
  | syntacticError _ => "syntax_error"
  | unresolvedIdentifier .. => "unresolved_identifier"
  | traitOutOfRange .. => "trait_out_of_range"
  | duplicateTrait _ => "duplicate_trait"
  | unreachableCode _ => "unreachable_code"
  | traitOverridden .. => "trait_overridden"
  | unusedParameter .. => "unused_parameter"
  | unknownReturnType .. => "unknown_return_type"
  | missingReturnValue .. => "missing_return_value"
  | mainNotCalled => "main_not_called"
  | emptyFunctionBody _ => "empty_function_body"
  | infiniteLoop => "infinite_loop"

def message : Finding → String
  | syntacticError m => m
  | unresolvedIdentifier name function => s!"Unresolved identifier '{name}' in function '{function}'"
  | traitOutOfRange key value =>
    s!"Trait '{key.name}' value {Decimal.number value} is outside [0, 1]"
  | duplicateTrait key =>
    s!"Trait '{key.name}' appears more than once in the same personality block"
  | unreachableCode after => s!"Unreachable code after '{after}'"
  | traitOverridden key line =>
    s!"Trait '{key.name}' set by an earlier personality block (line {line}) is overridden"
  | unusedParameter name function => s!"Parameter '{name}' of function '{function}' is never used"
  | unknownReturnType type function => s!"Unknown return type '{type}' for function '{function}'"
  | missingReturnValue function type =>
    s!"Function '{function}' declares return type '{type}' but never returns a value"
  | mainNotCalled =>
    "Function 'main' is declared but never called; add 'main()' at the end of the program"
  | emptyFunctionBody function => s!"Function '{function}' has an empty body"
  | infiniteLoop => "'while true' loop has no 'break' and only ends by returning or timing out"

end Finding

/-- A finding and where it was made. -/
structure Diagnostic where
  finding : Finding
  place : Coordinate
deriving DecidableEq

namespace Diagnostic

def severity (d : Diagnostic) : Severity := d.finding.severity

def message (d : Diagnostic) : String := d.finding.message

/-- The message behind its place. -/
def text (d : Diagnostic) : String := s!"[{d.place.text}] {d.message}"

end Diagnostic

/-- Diagnostics in the order in which they were made. -/
structure Report where
  diagnostics : List Diagnostic

namespace Report

def ofSeverity (r : Report) (s : Severity) : List Diagnostic :=
  r.diagnostics.filter (·.severity = s)

def errors (r : Report) : List Diagnostic := r.ofSeverity .error

def warnings (r : Report) : List Diagnostic := r.ofSeverity .warning

def suggestions (r : Report) : List Diagnostic := r.ofSeverity .suggestion

def hasErrors (r : Report) : Bool := !r.errors.isEmpty

end Report

end Persona
