import Persona.Command.Arguments
import Persona.Command.Config
import Persona.Command.Path
import Persona.Text.Lines

/-! The commands of the command line.

A command is carried out in *surroundings*: files, the standard streams and
nothing else. They are a record of operations in some monad, so that a command
is as well a program over real files as a function on a table of them.

A command ends in one of three ways: it succeeds, the program that it was given
fails, or the command itself cannot be carried out. -/
namespace Persona.Command

/-- Operations on files refuse with a message. -/
structure Surroundings (m : Type → Type) where
  exists? : String → m Bool
  read : String → m (Except String (List UInt8))
  write : String → List UInt8 → m (Except String Unit)
  /-- Opens a file for more text at its end; one that is not there is made. -/
  openLog : String → m (Except String Unit)
  print : String → m Unit
  warn : String → m Unit
  /-- All of the standard input. -/
  input : m String

/-- A step of a command; its error is a message for the user. -/
abbrev Step (m : Type → Type) (α : Type) := ExceptT String m α

variable {m : Type → Type} [Monad m]

def orRefuse (describe : ε → String) : Except ε α → Step m α
  | .ok x => return x
  | .error e => throw (describe e)

/-- An operation on files, with its refusal told in full. -/
def attempt (describe : String → String) (act : m (Except String α)) : Step m α :=
  ExceptT.mk do return (← act).mapError describe

/-- What a file that should be text has as its error where it is none. -/
def notText : String := "stream did not contain valid UTF-8"

def readBytes (w : Surroundings m) (path : String) : Step m (List UInt8) :=
  attempt (fun e => s!"Cannot read '{path}': {e}") (w.read path)

def readText (w : Surroundings m) (what path : String) : Step m String := do
  let refuse (e : String) := s!"Cannot read {what}'{path}': {e}"
  let bytes ← attempt refuse (w.read path)
  match String.fromUTF8? ⟨bytes.toArray⟩ with
  | some s => return s
  | none => throw (refuse notText)

/-! ### Settings -/

def defaultConfig : String := "nexus.json"

/-- The configuration of a file. Only the default file may be missing. -/
def readConfig (w : Surroundings m) (path : Option String) : Step m Config := do
  let file := path.getD defaultConfig
  if ← w.exists? file then
    let text ← readText w "" file
    let refuse (e : String) := s!"Invalid config '{file}': {e}"
    match Document.parse? text with
    | none => throw (refuse "not a JSON document")
    | some d =>
      let c ← orRefuse refuse (Config.ofDocument d)
      return { c with knowledge := c.knowledge.map (beside file) }
  else if path.isSome then throw s!"Config file '{file}' not found"
  else return {}

/-- Nothing is logged; that the settings for it are sound, and that the file can be
opened, is checked. -/
def checkLog (w : Surroundings m) (i : Invocation) (l : LogSection) : Step m Unit := do
  orRefuse id l.check
  orRefuse id (i.logLevel.forM checkLevel)
  if i.logFormat.isNone then orRefuse id (l.format.forM checkFormat)
  match i.logFile.or l.file with
  | some file => attempt (fun e => s!"Cannot open log file '{file}': {e}") (w.openLog file)
  | none => return

def applyOptions (s : Settings) (o : RunOptions) : Except ProfileError Settings := do
  let limits := { s.limits with
    executionTimeoutMs := o.timeoutMs.getD s.limits.executionTimeoutMs
    maxOutputBytes := o.maxOutput.getD s.limits.maxOutputBytes }
  let profile ← match o.template with
    | some name => Profile.ofTemplate name
    | none => pure s.profile
  return { s with limits, profile }

/-- The settings of a run and its knowledge, if it has any. -/
def runSettings (w : Surroundings m) (c : Config) (s : Settings) (o : RunOptions) :
    Step m (Settings × Option (List KnowledgeEntry)) := do
  let s ← orRefuse ProfileError.message (applyOptions s o)
  match o.knowledge.or c.knowledge with
  | none => return (s, none)
  | some file =>
    let text ← readText w "knowledge file " file
    let refuse (e : String) := s!"Invalid knowledge file '{file}': {e}"
    match Document.parse? text with
    | none => throw (refuse "not a JSON document")
    | some d => return (s, some (← orRefuse refuse (knowledgeOf d)))

/-! ### Failures in their source -/

/-- How many lines are shown before and after the one in question. -/
def contextLines : Nat := 2

/-- The lines around a place, and a mark below the place. -/
def sourceContext (source : String) (place : Coordinate) : String :=
  let lines := Text.lines source
  if place.line = 0 ∨ lines.length < place.line then ""
  else
    let first := max 1 (place.line - contextLines)
    let last := min lines.length (place.line + contextLines)
    let width := (toString last).length
    let border := String.ofList (List.replicate (width + 1) '-') ++ "|--\n"
    let shown := ((lines.drop (first - 1)).take (last + 1 - first)).mapIdx fun i line =>
      let number := first + i
      let row := s!"{Text.padLeft width (toString number)} | {line}\n"
      let mark := s!"{Text.blanks width} | {Text.blanks (place.column - 1)}^\n"
      if number = place.line then row ++ mark else row
    border ++ String.join shown ++ border

def failureText (e : Failure) : String := s!"error: {e.report.text}\n"

def failureInSource (e : Failure) (source : String) : String :=
  failureText e ++ ((e.place?.map (sourceContext source)).getD "")

/-! ### The voice of a terminal -/

/-- Nobody answers in no time. Otherwise an answer is the next line of the input, and
empty when there is none left. -/
def terminalVoice (input : List String) (before : List ServiceCall) (options : ListenOptions) :
    Except String String :=
  let answered := before.countP fun
    | .listen _ => true
    | _ => false
  if options.timeoutMs = 0 then .error "no input within 0 ms" else .ok (input.getD answered "")

/-- Nobody is asked. -/
def noVoice (_ : List ServiceCall) (_ : ListenOptions) : Except String String :=
  .error "nobody is asked"

def terminalServices (listen : List ServiceCall → ListenOptions → Except String String)
    (knowledge : Option (List KnowledgeEntry)) : Services :=
  let voice := { Services.silent with listen }
  match knowledge with
  | some entries => voice.withKnowledge entries
  | none => voice

/-- What a terminal shows of a call. -/
def callText : ServiceCall → String
  | .search .. => ""
  | .speak text options =>
    let voice := options.voice.getD "default"
    s!"[say:{voice}] {text}\n"
  | .listen options => (options.prompt.map (s!"{·} ")).getD ""

def listens (o : Outcome) : Bool :=
  o.calls.any fun
    | .listen _ => true
    | _ => false

/-- A run with a terminal. The input is read only for a program that listens: a first run ends
where it listens first, and a second one has the input. -/
def runAtTerminal (w : Surroundings m) (knowledge : Option (List KnowledgeEntry))
    (run : Services → Except Failure Outcome) : Step m (Except Failure Outcome) := do
  let result := run (terminalServices noVoice knowledge)
  match result with
  | .ok o =>
    if listens o then
      let input ← w.input
      return run (terminalServices (terminalVoice (Text.bareLines input)) knowledge)
    else return result
  | .error _ => return result

/-! ### Commands -/

/-- Shows what a run has left, and tells whether it succeeded. -/
def showOutcome (w : Surroundings m) (s : Settings) (o : Outcome) : Step m Bool := do
  w.warn (String.join (o.calls.map callText))
  w.print o.output
  unless o.output.isEmpty || o.output.endsWith "\n" do w.print "\n"
  if o.isTruncated then w.warn s!"warning: output truncated at {s.limits.maxOutputBytes} bytes\n"
  match Failure.ofOutcome? o with
  | some e =>
    w.warn (failureText e)
    return false
  | none => return true

def showFailure (w : Surroundings m) (e : Failure) (source : String) : Step m Bool := do
  w.warn (failureInSource e source)
  return false

/-- The listing of a source's bytecode. -/
def listingOf (s : Settings) (source : String) : Except Failure String := do
  return (← s.parse source >>= Settings.bytecodeOf).listing

def run (w : Surroundings m) (s : Settings) (knowledge : Option (List KnowledgeEntry))
    (input : String) (dump : Bool) : Step m Bool := do
  let source ← readText w "" input
  if dump then
    match listingOf s source with
    | .ok listing => w.print (listing ++ "\n")
    | .error e => return ← showFailure w e source
  match ← runAtTerminal w knowledge (s.run · source) with
  | .ok o => showOutcome w s o
  | .error e => showFailure w e source

/-- The extension of images. -/
def imageExtension : String := "nxb"

def compile (w : Surroundings m) (s : Settings) (input : String) (output : Option String)
    (dump : Bool) : Step m Bool := do
  let source ← readText w "" input
  match s.compile source with
  | .error e => showFailure w e source
  | .ok image =>
    if dump then
      let p ← orRefuse LoadError.message (Bytecode.load image)
      w.print (p.listing ++ "\n")
    let output := output.getD (withExtension input imageExtension)
    attempt (fun e => s!"Cannot write '{output}': {e}") (w.write output image)
    let ratio := Decimal.fixed 2 (sizeRatio source image)
    w.print s!"Compiled {input} -> {output} ({image.length} bytes, ratio {ratio})\n"
    return true

def exec (w : Surroundings m) (s : Settings) (knowledge : Option (List KnowledgeEntry))
    (input : String) : Step m Bool := do
  let image ← readBytes w input
  match ← runAtTerminal w knowledge (s.runImage · image) with
  | .ok o => showOutcome w s o
  | .error e =>
    w.warn (failureText e)
    return false

def diagnosticDocument (d : Diagnostic) : Document :=
  .object [("severity", .string d.severity.name), ("kind", .string d.finding.kind),
    ("message", .string d.message), ("line", .natural d.place.line), ("column", .natural d.place.column)]

def reportDocument (r : Report) : Document :=
  .object [("errors", .array (r.errors.map diagnosticDocument)),
    ("warnings", .array (r.warnings.map diagnosticDocument)),
    ("suggestions", .array (r.suggestions.map diagnosticDocument))]

/-- A line for each diagnostic, errors first, and one that counts them. -/
def reportText (input : String) (r : Report) : String :=
  let line (d : Diagnostic) := s!"{d.severity.name}: {input}:{d.place.line} {d.message}\n"
  String.join ((r.errors ++ r.warnings ++ r.suggestions).map line) ++
    s!"{r.errors.length} error(s), {r.warnings.length} warning(s), " ++
    s!"{r.suggestions.length} suggestion(s)\n"

def analyze (w : Surroundings m) (s : Settings) (input : String) (json : Bool) : Step m Bool := do
  let source ← readText w "" input
  let r := s.analyze source
  if json then w.print ((reportDocument r).pretty 0 ++ "\n") else w.print (reportText input r)
  return !r.hasErrors

/-- Lists an image or the bytecode of a source. -/
def disasm (w : Surroundings m) (s : Settings) (input : String) : Step m Bool := do
  if extension? input = some imageExtension then
    match Settings.load (← readBytes w input) with
    | .ok p =>
      w.print p.listing
      return true
    | .error e =>
      w.warn (failureText e)
      return false
  else
    let source ← readText w "" input
    match listingOf s source with
    | .ok listing =>
      w.print listing
      return true
    | .error e => showFailure w e source

def profileDocument (p : Profile) : Document :=
  .object (p.toList.map fun (t, value) => (t.name, .number value))

/-- A line for each trait: its category, its value and how strongly it shows. -/
def profileText (p : Profile) : String :=
  String.join <| p.toList.map fun (t, value) =>
    s!"{Text.padRight 22 t.name} {Text.padRight 11 t.category.name} " ++
      s!"{Decimal.fixed 2 value}  {(p.level t).name}\n"

def mixedProfile (template mix : Option String) (weight : Float) : Except ProfileError Profile := do
  let base ← match template with
    | some name => Profile.ofTemplate name
    | none => pure .default
  match mix with
  | some name => base.mix (← Profile.ofTemplate name) (1.0 - weight) weight
  | none => return base

def personality (w : Surroundings m) (template mix : Option String) (weight : Float)
    (templates json : Bool) : Step m Bool := do
  if templates then
    w.print (String.join (Template.all.map fun t => t.name ++ "\n"))
  else
    let p ← orRefuse ProfileError.message (mixedProfile template mix weight)
    if json then w.print ((profileDocument p).pretty 0 ++ "\n") else w.print (profileText p)
  return true

/-- The version of the tool, behind its name or a command's. -/
def versionText (command : Option String) : String :=
  "-".intercalate ("nexus" :: command.toList) ++ " 0.1.0\n"

/-- Carries out an invocation: whether the program it was about succeeded. -/
def perform (w : Surroundings m) (i : Invocation) : Step m Bool := do
  if let .version command := i.request then
    w.print (versionText command)
    return true
  let c ← readConfig w i.config
  checkLog w i c.log
  let s ← orRefuse ProfileError.message c.settings
  match i.request with
  | .run input mode analyze dump options =>
    let s := { s with mode := mode.getD s.mode, analyzeFirst := s.analyzeFirst || analyze }
    let (s, knowledge) ← runSettings w c s options
    run w s knowledge input dump
  | .compile input output dump => compile w s input output dump
  | .exec input options =>
    let (s, knowledge) ← runSettings w c s options
    exec w s knowledge input
  | .analyze input json => analyze w s input json
  | .disasm input => disasm w s input
  | .personality template mix weight templates json => personality w template mix weight templates json
  | .version _ => return true

/-- Carries out a command line. The exit code is 0 for success, 1 for a program that
failed and 2 for a command that could not be carried out. -/
def carryOut (w : Surroundings m) (words : List String) : m UInt32 := do
  let step : Step m Bool := do
    perform w (← orRefuse id (Invocation.parse words))
  match ← step.run with
  | .ok true => return 0
  | .ok false => return 1
  | .error message =>
    w.warn s!"error: {message}\n"
    return 2

end Persona.Command
