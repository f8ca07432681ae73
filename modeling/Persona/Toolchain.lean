import Persona.Analysis
import Persona.Evaluation
import Persona.Failure
import Persona.Machine
import Persona.Profile.Template

/-! From source text or image to outcome, under given settings. -/
namespace Persona

/-- Whether a program is run by walking its tree or as bytecode. -/
inductive Mode where
  | interpreted
  | compiled
deriving DecidableEq

structure Settings where
  mode : Mode := .interpreted
  verifyImages : Bool := true
  limits : Limits := {}
  profile : Profile := .default
  analyzeFirst : Bool := false

namespace Settings

def parse (s : Settings) (source : String) : Except Failure Program := do
  if s.limits.maxSourceBytes < source.utf8ByteSize then
    throw (.sourceTooLarge source.utf8ByteSize s.limits.maxSourceBytes)
  let tokens ← (tokenize source).mapError .lexical
  (Persona.parse s.limits.maxNestingDepth tokens).mapError .syntactic

/-- What analysis says of a source; one that is not a program has that one error. -/
def analyze (s : Settings) (source : String) : Report :=
  match s.parse source with
  | .ok p => Persona.analyze p
  | .error e =>
    let r := e.report
    ⟨[⟨.syntacticError r.message, r.place.getD ⟨0, 0⟩⟩]⟩

/-- The image of a program. -/
def imageOf (p : Program) : Except Failure (List UInt8) :=
  (Bytecode.image <$> compile p).mapError .compilation

def load (image : List UInt8) : Except Failure Bytecode := (Bytecode.load image).mapError .loading

/-- The bytecode of a program, as it is read back from its image. -/
def bytecodeOf (p : Program) : Except Failure Bytecode := imageOf p >>= load

def compile (s : Settings) (source : String) : Except Failure (List UInt8) := do
  let image ← imageOf (← s.parse source)
  if s.verifyImages then discard (load image)
  return image

def host (s : Settings) (services : Services) : Host := ⟨s.limits, services⟩

def runProgram (s : Settings) (services : Services) (p : Program) : Except Failure Outcome := do
  if s.analyzeFirst then
    let errors := (Persona.analyze p).errors
    unless errors.isEmpty do throw (.analysis errors)
  match s.mode with
  | .interpreted => return p.interpret (s.host services) s.profile
  | .compiled => return (← bytecodeOf p).execute (s.host services) s.profile

def run (s : Settings) (services : Services) (source : String) : Except Failure Outcome :=
  s.parse source >>= s.runProgram services

def runImage (s : Settings) (services : Services) (image : List UInt8) : Except Failure Outcome := do
  return (← load image).execute (s.host services) s.profile

end Settings

/-! ### Summaries -/

/-- A run in short. -/
structure RunSummary where
  output : String
  success : Bool
  error : Option String
  category : Option String
  isTruncated : Bool

def RunSummary.ofResult : Except Failure Outcome → RunSummary
  | .ok o => ⟨o.output, o.isSuccess, o.ending.message?, o.ending.category?, o.isTruncated⟩
  | .error e => ⟨"", false, some e.text, some e.category, false⟩

/-- A compilation in short: the size of the image, and how many times smaller it is than
the source. -/
structure BuildSummary where
  success : Bool
  size : Nat
  ratio : Float
  error : Option String

def sizeRatio (source : String) (image : List UInt8) : Float :=
  source.utf8ByteSize.toFloat / image.length.toFloat

def BuildSummary.ofResult (source : String) : Except Failure (List UInt8) → BuildSummary
  | .ok image => ⟨true, image.length, sizeRatio source image, none⟩
  | .error e => ⟨false, 0, 0.0, some e.text⟩

end Persona
