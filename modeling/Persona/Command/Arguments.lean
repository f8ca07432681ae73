import Persona.Decimal.Reading
import Persona.Toolchain

/-! The command line: its words, and what they ask for.

An option is `--name value`, `--name=value` or, for a switch, `--name`. Options of
the tool itself may stand anywhere, those of a command behind its name. Of an
option of the tool that stands before and behind that name, the latter counts. -/
namespace Persona.Command

/-- Changes to the settings for one run. -/
structure RunOptions where
  timeoutMs : Option Nat
  maxOutput : Option Nat
  template : Option String
  knowledge : Option String

inductive Request where
  | run (input : String) (mode : Option Mode) (analyze dump : Bool) (options : RunOptions)
  | compile (input : String) (output : Option String) (dump : Bool)
  | exec (input : String) (options : RunOptions)
  | analyze (input : String) (json : Bool)
  | disasm (input : String)
  | personality (template mix : Option String) (weight : Float) (templates json : Bool)
  /-- The version of the tool or of one of its commands. -/
  | version (command : Option String)

/-- The program's log is not written; its options are checked nevertheless. -/
structure Invocation where
  config : Option String
  logLevel : Option String
  logFormat : Option String
  logFile : Option String
  request : Request

/-! ### Words -/

/-- The names of the options with a value and of the switches of a command. -/
structure Grammar where
  name : String
  valued : List String
  switches : List String

def globalOptions : List String := ["config", "log-level", "log-format", "log-file"]

def runOptionNames : List String := ["timeout-ms", "max-output", "template", "knowledge"]

def grammars : List Grammar :=
  [⟨"run", "mode" :: runOptionNames, ["analyze", "dump-bytecode"]⟩,
   ⟨"compile", ["output"], ["dump-bytecode"]⟩,
   ⟨"exec", runOptionNames, []⟩,
   ⟨"analyze", [], ["json"]⟩,
   ⟨"disasm", [], []⟩,
   ⟨"personality", ["template", "mix", "weight"], ["templates", "json"]⟩]

/-- The words of a command line, sorted; the values of options last first. -/
structure Words where
  grammar : Option Grammar := none
  values : List (String × String) := []
  switches : List String := []
  inputs : List String := []
  asksVersion : Bool := false

namespace Words

def takesValue (w : Words) (name : String) : Bool :=
  globalOptions.contains name || w.grammar.any (·.valued.contains name)

def isSwitch (w : Words) (name : String) : Bool := w.grammar.any (·.switches.contains name)

def value? (w : Words) (name : String) : Option String := w.values.lookup name

def has (w : Words) (name : String) : Bool := w.switches.contains name

/-- A word that is no option: the command, and then its input. -/
def addPlain (w : Words) (word : String) : Except String Words :=
  match w.grammar with
  | some _ => .ok { w with inputs := w.inputs ++ [word] }
  | none =>
    match grammars.find? (·.name == word) with
    | some g => .ok { w with grammar := some g }
    | none => .error s!"unrecognized subcommand '{word}'"

/-- An option spelled out, and its value where that is in the same word. -/
def longOption? (word : String) : Option (String × Option String) :=
  match word.toList with
  | '-' :: '-' :: cs =>
    if cs.isEmpty then none
    else
      let name := cs.takeWhile (· != '=')
      let value := match cs.drop name.length with
        | _ :: v => some (String.ofList v)
        | [] => none
      some (String.ofList name, value)
  | _ => none

/-- The one short option, `-o`. -/
def shortOption? (word : String) : Option (String × Option String) :=
  match word.toList with
  | '-' :: 'o' :: '=' :: v => some ("output", some (String.ofList v))
  | ['-', 'o'] => some ("output", none)
  | '-' :: 'o' :: v => some ("output", some (String.ofList v))
  | _ => none

def addValue (w : Words) (name value : String) : Words := { w with values := (name, value) :: w.values }

/-- Sorts words. Nothing behind a question for the version is looked at. -/
def read (w : Words) : List String → Except String Words
  | [] => .ok w
  | "--" :: rest => rest.foldlM addPlain w
  | "--version" :: _ | "-V" :: _ => .ok { w with asksVersion := true }
  | word :: rest =>
    match (longOption? word).or (shortOption? word) with
    | none => do
      read (← w.addPlain word) rest
    | some (name, value) =>
      if w.takesValue name then
        match value, rest with
        | some v, rest => read (w.addValue name v) rest
        | none, v :: rest => read (w.addValue name v) rest
        | none, [] => .error s!"a value is required for '--{name}' but none was supplied"
      else if w.isSwitch name && value.isNone then
        read { w with switches := w.switches ++ [name] } rest
      else .error s!"unexpected argument '{word}' found"

end Words

/-! ### Meaning -/

def invalid (name value : String) : String := s!"invalid value '{value}' for '--{name}'"

/-- A natural number of a machine word. -/
def natural? (s : String) : Option Nat :=
  let ds := match s.toList with
    | '+' :: ds => ds
    | ds => ds
  if ds.isEmpty || !ds.all Decimal.isDecimalDigit then none
  else
    let n := Decimal.digitsValue ds
    if n ≤ Decimal.wordMax then some n else none

/-- The value of an option, read by `parse`. -/
def valueOf (parse : String → Option α) (w : Words) (name : String) : Except String (Option α) :=
  match w.value? name with
  | none => .ok none
  | some v =>
    match parse v with
    | some x => .ok (some x)
    | none => .error (invalid name v)

def mode? (s : String) : Option Mode :=
  if s = "interpreted" then some .interpreted else if s = "compiled" then some .compiled else none

def logFormats : List String := ["pretty", "compact", "json"]

def runOptions (w : Words) : Except String RunOptions := do
  return ⟨← valueOf natural? w "timeout-ms", ← valueOf natural? w "max-output", w.value? "template",
    w.value? "knowledge"⟩

def onlyInput (w : Words) : Except String String :=
  match w.inputs with
  | [input] => .ok input
  | [] => .error "the following required arguments were not provided: <INPUT>"
  | _ :: word :: _ => .error s!"unexpected argument '{word}' found"

def requestOf (w : Words) : Except String Request := do
  if w.asksVersion then return .version (w.grammar.map (·.name))
  match w.grammar.map (·.name) with
  | some "run" =>
    return .run (← onlyInput w) (← valueOf mode? w "mode") (w.has "analyze") (w.has "dump-bytecode")
      (← runOptions w)
  | some "compile" => return .compile (← onlyInput w) (w.value? "output") (w.has "dump-bytecode")
  | some "exec" => return .exec (← onlyInput w) (← runOptions w)
  | some "analyze" => return .analyze (← onlyInput w) (w.has "json")
  | some "disasm" => return .disasm (← onlyInput w)
  | some _ =>
    match w.inputs with
    | word :: _ => throw s!"unexpected argument '{word}' found"
    | [] =>
      let weight ← valueOf Decimal.parse? w "weight"
      if weight.isSome && (w.value? "mix").isNone then
        throw "the following required arguments were not provided: --mix <NAME>"
      return .personality (w.value? "template") (w.value? "mix") (weight.getD 0.5) (w.has "templates")
        (w.has "json")
  | none => throw "a subcommand is required"

/-- What a command line asks for. -/
def Invocation.parse (words : List String) : Except String Invocation := do
  let w ← Words.read {} words
  let logFormat ← valueOf (fun s => if logFormats.contains s then some s else none) w "log-format"
  return ⟨w.value? "config", w.value? "log-level", logFormat, w.value? "log-file", ← requestOf w⟩

end Persona.Command
