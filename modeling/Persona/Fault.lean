import Persona.Instruction.Decode
import Persona.Profile
import Persona.Value

/-! Why a run stops before its end. -/
namespace Persona

/-- What an option of a built-in must be. -/
inductive OptionKind where
  | number | string | bool
deriving DecidableEq

def OptionKind.text : OptionKind → String
  | number => "a number"
  | string => "a string"
  | bool => "a bool"

/-- A value of the wrong kind or out of an operation's domain. -/
inductive TypeFault where
  | operands (op : BinaryOp) (left right : Kind)
  | negation (got : Kind)
  | repetition
  | unordered
  | mapKey (got : Kind)
  | indexed (got : Kind)
  | indexKey (got : Kind)
  | iterated (got : Kind)
  | argument (b : Builtin) (got : Kind)
  | options (b : Builtin) (got : Kind)
  | option (key : String) (expected : OptionKind) (got : Kind)
  | limitOption (x : Float)
  | timeoutOption (x : Float)
deriving DecidableEq

/-- A bound on what a run may hold. -/
inductive LimitFault where
  | stringBytes (size limit : Nat)
  | arrayLength (size limit : Nat)
  | stackSize (limit : Nat)
deriving DecidableEq

/-- What the instructions of a program must not do. -/
inductive CodeFault where
  | decoding (e : DecodeError)
  | constantIndex (index : Nat)
  | notAName (index : Nat)
  | notANumber (got : Kind)
  | underflow
  | noIterator
  | extension (head tail : Kind)
  | logicalOperator (op : BinaryOp)
  | jumpTarget
  | noCompiledBody (name : String)
  | notInterpretable (name : String)
deriving DecidableEq

inductive Fault where
  | type (f : TypeFault)
  | undefinedVariable (name : String)
  | divisionByZero
  | stackOverflow (limit : Nat)
  | indexOutOfBounds (index : Int) (length : Nat)
  | arityMismatch (name : String) (expected : Arity) (got : Nat)
  | notCallable (got : Kind)
  | personality (e : ProfileError)
  | service (message : String)
  | limit (f : LimitFault)
  | code (f : CodeFault)
  | timeout (budget : Nat)
deriving DecidableEq

/-- How a message says what the argument of a built-in must be. -/
def Builtin.expectation : Builtin → String
  | trait | describe => "trait names are strings"
  | len => "len() expects a string, array or map"
  | push => "push() expects an array"
  | keys => "keys() expects a map"
  | range => "range() expects integer arguments"
  | b => s!"{b.name}() expects a string"

def TypeFault.message : TypeFault → String
  | operands op l r => s!"unsupported operand types for '{op.symbol}': {l.name} and {r.name}"
  | negation got => s!"cannot negate a value of type {got.name}"
  | repetition => "string repetition count must be a non-negative integer"
  | unordered => "cannot compare NaN"
  | mapKey got => s!"map keys are strings, got {got.name}"
  | indexed got => s!"cannot index a value of type {got.name}"
  | indexKey got => s!"index must be an integer, got {got.name}"
  | iterated got => s!"cannot iterate over a value of type {got.name}"
  | argument b got => s!"{b.expectation}, got {got.name}"
  | options b got => s!"{b.name}() options must be a map, got {got.name}"
  | option key expected got => s!"option '{key}' must be {expected.text}, got {got.name}"
  | limitOption x => s!"option 'limit' must be a non-negative integer, got {Decimal.positional x}"
  | timeoutOption x => s!"option 'timeout_ms' must be non-negative, got {Decimal.positional x}"

def LimitFault.message : LimitFault → String
  | stringBytes size limit => s!"string of {size} bytes exceeds the {limit} byte limit"
  | arrayLength size limit => s!"array of {size} elements exceeds the {limit} element limit"
  | stackSize limit => s!"operand stack exceeded {limit} values"

def CodeFault.message : CodeFault → String
  | decoding e => e.message
  | constantIndex index => s!"constant index {index} out of range"
  | notAName index => s!"constant {index} is not a name"
  | notANumber got => s!"trait value must be a number, got {got.name}"
  | underflow => "operand stack underflow"
  | noIterator => "FOR_NEXT without an iterator"
  | extension head tail => s!"cannot extend {head.name} with {tail.name}"
  | logicalOperator op => s!"'{op.symbol}' must be compiled as a jump"
  | jumpTarget => "jump target outside the code stream"
  | noCompiledBody name => s!"function '{name}' has no compiled body"
  | notInterpretable name => s!"compiled function '{name}' cannot run in the interpreter"

namespace Fault

def message : Fault → String
  | type f => s!"Type error: {f.message}"
  | undefinedVariable name => s!"Undefined variable '{name}'"
  | divisionByZero => "Division by zero"
  | stackOverflow bound => s!"Stack overflow: call depth exceeded {bound}"
  | indexOutOfBounds index length => s!"Index {index} out of bounds for length {length}"
  | arityMismatch name expected got =>
    s!"Function '{name}' expects {expected.text} argument(s), got {got}"
  | notCallable got => s!"Value of type {got.name} is not callable"
  | personality e => s!"Personality error: {e.message}"
  | service message => s!"Service error: {message}"
  | limit f => s!"Limit exceeded: {f.message}"
  | code f => s!"Invalid bytecode: {f.message}"
  | timeout budget => s!"Execution timed out after {budget} ms"

def category : Fault → String
  | type _ => "type_error"
  | undefinedVariable _ => "undefined_variable"
  | divisionByZero => "division_by_zero"
  | stackOverflow _ => "stack_overflow"
  | indexOutOfBounds .. => "index_out_of_bounds"
  | arityMismatch .. => "arity_mismatch"
  | notCallable _ => "not_callable"
  | personality _ => "personality"
  | service _ => "service"
  | limit _ => "limit_exceeded"
  | code _ => "invalid_bytecode"
  | timeout _ => "timeout"

end Fault

end Persona
