import Persona.Analysis.Diagnostic
import Persona.Bytecode.Image
import Persona.Compilation
import Persona.Document
import Persona.Session
import Persona.Syntax.Parser
import Persona.Token.Lexer

/-! Everything that can go wrong between a source and the end of its run, and how it
is reported. -/
namespace Persona

/-! ### Words for the kinds of causes -/

def LexicalFault.kind : LexicalFault → String
  | invalidChar _ => "InvalidChar"
  | unterminatedString => "UnterminatedString"
  | unterminatedComment => "UnterminatedComment"
  | invalidEscape _ => "InvalidEscape"
  | invalidNumber _ => "InvalidNumber"

def SyntaxFault.kind : SyntaxFault → String
  | unexpectedToken .. => "UnexpectedToken"
  | invalidNumber _ => "InvalidNumberFormat"
  | missingParen => "MissingRightParen"
  | missingBracket => "MissingRightBracket"
  | missingBrace => "MissingRightCurly"
  | unexpectedEnd => "UnexpectedEndOfInput"
  | expectedName _ => "ExpectedIdentifier"
  | invalidTarget => "InvalidAssignmentTarget"
  | unknownTrait _ => "UnknownTrait"
  | misplacedPersonality => "PersonalityNotTopLevel"
  | expectedTraitValue _ => "ExpectedTraitValue"
  | breakOutsideLoop => "BreakOutsideLoop"
  | continueOutsideLoop => "ContinueOutsideLoop"
  | nestingTooDeep _ => "NestingTooDeep"

/-- The kind of a finding where it keeps a program from running. -/
def Finding.errorKind : Finding → String
  | syntacticError _ => "SyntaxError"
  | unresolvedIdentifier .. => "UnresolvedIdentifier"
  | traitOutOfRange .. => "TraitOutOfRange"
  | duplicateTrait _ => "DuplicateTrait"
  | unreachableCode _ => "UnreachableCode"
  | traitOverridden .. => "TraitOverridden"
  | unusedParameter .. => "UnusedParameter"
  | unknownReturnType .. => "UnknownReturnType"
  | missingReturnValue .. => "MissingReturnValue"
  | mainNotCalled => "MainNotCalled"
  | emptyFunctionBody _ => "EmptyFunctionBody"
  | infiniteLoop => "InfiniteLoop"

def FormatError.kind : FormatError → String
  | badMagic => "BadMagic"
  | unsupportedVersion _ => "UnsupportedVersion"
  | truncated _ => "Truncated"
  | trailingBytes _ => "TrailingBytes"
  | invalidUtf8 _ => "InvalidUtf8"
  | unknownTag .. => "UnknownTag"

def Corruption.kind : Corruption → String
  | checksum .. => "ChecksumMismatch"
  | decoding _ => "Decode"
  | poolIndex .. => "PoolIndex"
  | constantType .. => "ConstantType"
  | jumpTarget .. => "JumpTarget"
  | entry _ => "Entry"
  | functionEntry .. => "FunctionEntry"

def LoadError.kind : LoadError → String
  | format e => e.kind
  | corruption e => e.kind

def ProfileError.kind : ProfileError → String
  | unknownTrait _ | outOfRange .. => "InvalidTrait"
  | unknownTemplate _ => "UnknownTemplate"
  | invalidWeights .. => "InvalidWeights"
  | invalidRate _ => "InvalidEvolution"
  | duplicateTrait _ => "DuplicateTrait"

def Fault.kind : Fault → String
  | type _ => "TypeError"
  | undefinedVariable _ => "UndefinedVariable"
  | divisionByZero => "DivisionByZero"
  | stackOverflow _ => "StackOverflow"
  | indexOutOfBounds .. => "IndexOutOfBounds"
  | arityMismatch .. => "ArityMismatch"
  | notCallable _ => "NotCallable"
  | personality _ => "Personality"
  | service _ => "Service"
  | limit _ => "LimitExceeded"
  | code _ => "InvalidBytecode"
  | timeout _ => "Timeout"

/-! ### Failures -/

/-- Why a source, an image or a run has not succeeded. -/
inductive Failure where
  | sourceTooLarge (size limit : Nat)
  | lexical (e : LexicalError)
  | syntactic (e : SyntaxError)
  | analysis (errors : List Diagnostic)
  | compilation (e : CompileError)
  | loading (e : LoadError)
  | personality (e : ProfileError)
  | runtime (f : Fault)
  | timeout (ms : Nat)
deriving DecidableEq

namespace Failure

/-- The failure that an outcome tells of. -/
def ofOutcome? (o : Outcome) : Option Failure :=
  match o.ending with
  | .halted => none
  | .faulted f => some (runtime f)
  | .timedOut ms => some (timeout ms)

def phase : Failure → String
  | sourceTooLarge .. => "source"
  | lexical _ => "lexer"
  | syntactic _ => "parser"
  | analysis _ => "analyzer"
  | compilation _ => "compiler"
  | loading _ => "loader"
  | personality _ => "personality"
  | runtime _ | timeout _ => "runtime"

/-- Failures of a run are told apart further than by their phase. -/
def category : Failure → String
  | runtime f => f.category
  | timeout ms => (Fault.timeout ms).category
  | e => e.phase

def kind : Failure → String
  | sourceTooLarge .. => "SourceTooLarge"
  | lexical e => e.fault.kind
  | syntactic e => e.fault.kind
  | analysis errors => (errors.head?.map (·.finding.errorKind)).getD "Analysis"
  | compilation _ => "CompileError"
  | loading e => e.kind
  | personality e => e.kind
  | runtime f => f.kind
  | timeout ms => (Fault.timeout ms).kind

/-- Where in the source it is, if it is in the source. -/
def place? : Failure → Option Coordinate
  | lexical e => some e.position.coordinate
  | syntactic e => e.place
  | analysis errors => errors.head?.map (·.place)
  | _ => none

/-- The whole message. -/
def text : Failure → String
  | sourceTooLarge size limit => s!"Source of {size} bytes exceeds the {limit} byte limit"
  | lexical e => e.text
  | syntactic e => e.text
  | analysis errors =>
    let first := (errors.head?.map Diagnostic.text).getD ""
    s!"Analysis found {errors.length} error(s): {first}"
  | compilation e => s!"Compiler error: {e.message}"
  | loading e => s!"Load error: {e.message}"
  | personality e => e.message
  | runtime f => s!"Runtime error: {f.message}"
  | timeout ms => (Fault.timeout ms).message

end Failure

/-! ### Reports -/

/-- A failure as it is shown: its place apart from its message. -/
structure ErrorReport where
  phase : String
  place : Option Coordinate
  kind : String
  message : String
deriving DecidableEq

/-- The place stands beside the message and is left out of it, but a syntax error's message
keeps it. -/
def Failure.report (e : Failure) : ErrorReport where
  phase := e.phase
  place := e.place?
  kind := e.kind
  message := match e with
    | .lexical e => e.message
    | .analysis errors => (errors.head?.map Diagnostic.message).getD ""
    | e => e.text

namespace ErrorReport

def text (r : ErrorReport) : String :=
  match r.place with
  | some place => s!"[{place.text}] {r.phase} error: {r.message}"
  | none => s!"[{r.phase}] {r.phase} error: {r.message}"

def short (r : ErrorReport) : String := s!"{r.phase}: {r.message}"

def document (r : ErrorReport) : Document :=
  .object [("phase", .string r.phase),
    ("line", .ofOption (.natural ·.line) r.place),
    ("column", .ofOption (.natural ·.column) r.place),
    ("error_kind", .string r.kind),
    ("message", .string r.message)]

end ErrorReport

end Persona
