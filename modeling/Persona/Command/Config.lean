import Persona.Document.Reader
import Persona.Service.Knowledge
import Persona.Text.Case
import Persona.Toolchain

/-! The configuration file and the knowledge file.

Both are JSON. A record is an object, or an array of its first fields. What a
configuration leaves out keeps its default. Unknown members are passed over in
the limits, the compiler's section and the entries of knowledge, and are an error
elsewhere. -/
namespace Persona.Command

/-! ### Reading documents -/

/-- A value of the expected kind, or what is wrong. -/
abbrev Decoded (α : Type) := Except String α

def wrongType (expected : String) : Decoded α := .error s!"invalid type, expected {expected}"

def boolOf : Document → Decoded Bool
  | .bool b => .ok b
  | _ => wrongType "a boolean"

def naturalOf : Document → Decoded Nat
  | .natural n => .ok n
  | _ => wrongType "an unsigned integer"

def numberOf : Document → Decoded Float
  | .natural n => .ok (Float.ofNat n)
  | .number x => .ok x
  | _ => wrongType "a number"

def stringOf : Document → Decoded String
  | .string s => .ok s
  | _ => wrongType "a string"

def optional (read : Document → Decoded α) : Document → Decoded (Option α)
  | .null => .ok none
  | d => some <$> read d

/-- A map from names; of members with one name the last counts. -/
def mapOf (read : Document → Decoded α) : Document → Decoded (List (String × α))
  | .object ms => do
    return Keyed.ofList (← ms.mapM fun (key, d) => do return (key, ← read d))
  | _ => wrongType "an object"

/-- The first of the fields that more than one member is for. -/
def duplicate? (fields : List String) (ms : List (String × Document)) : Option String :=
  fields.find? fun field => 1 < ms.countP fun (key, _) => key == field

/-- The members of a record: those of an object, or the items of an array, which are for the
fields in turn. -/
def membersOf (fields : List String) : Document → Decoded (List (String × Document))
  | .object ms =>
    match duplicate? fields ms with
    | some field => .error s!"duplicate field '{field}'"
    | none => .ok ms
  | .array ds =>
    if fields.length < ds.length then .error s!"{ds.length} items for {fields.length} fields"
    else .ok (fields.zip ds)
  | _ => wrongType "an object"

/-- Reads members one after the other into a record. -/
def record (fields : List String) (start : α) (read : α → String → Document → Decoded α)
    (d : Document) : Decoded α := do
  (← membersOf fields d).foldlM (fun r (key, d) => read r key d) start

def unknownMember (key : String) : Decoded α := .error s!"unknown field '{key}'"

/-! ### The configuration -/

structure LogSection where
  level : Option String := none
  format : Option String := none
  file : Option String := none
  phases : List (String × String) := []

structure PersonalitySection where
  template : Option String := none
  traits : List (String × Float) := []

structure Config where
  mode : Mode := .interpreted
  analyzeFirst : Bool := false
  verifyImages : Bool := true
  limits : Limits := {}
  personality : PersonalitySection := {}
  log : LogSection := {}
  knowledge : Option String := none

def limitFields : List String :=
  ["max_call_depth", "max_stack_size", "execution_timeout_ms", "max_output_bytes",
   "max_source_bytes", "max_string_bytes", "max_array_len", "max_nesting_depth"]

def limitsOf : Document → Decoded Limits :=
  record limitFields {} fun l key d =>
    match key with
    | "max_call_depth" => do return { l with maxCallDepth := ← naturalOf d }
    | "max_stack_size" => do return { l with maxStackSize := ← naturalOf d }
    | "execution_timeout_ms" => do return { l with executionTimeoutMs := ← naturalOf d }
    | "max_output_bytes" => do return { l with maxOutputBytes := ← naturalOf d }
    | "max_source_bytes" => do return { l with maxSourceBytes := ← naturalOf d }
    | "max_string_bytes" => do return { l with maxStringBytes := ← naturalOf d }
    | "max_array_len" => do return { l with maxArrayLength := ← naturalOf d }
    | "max_nesting_depth" => do return { l with maxNestingDepth := ← naturalOf d }
    | _ => .ok l

def verifyOf : Document → Decoded Bool :=
  record ["verify_binary"] true fun verify key d =>
    if key = "verify_binary" then boolOf d else .ok verify

def personalityOf : Document → Decoded PersonalitySection :=
  record ["template", "traits"] {} fun p key d =>
    match key with
    | "template" => do return { p with template := ← optional stringOf d }
    | "traits" => do return { p with traits := ← mapOf numberOf d }
    | _ => unknownMember key

def logOf : Document → Decoded LogSection :=
  record ["level", "format", "file", "phases"] {} fun l key d =>
    match key with
    | "level" => do return { l with level := ← optional stringOf d }
    | "format" => do return { l with format := ← optional stringOf d }
    | "file" => do return { l with file := ← optional stringOf d }
    | "phases" => do return { l with phases := ← mapOf stringOf d }
    | _ => unknownMember key

def modeNamed : String → Decoded Mode
  | "interpreted" => .ok .interpreted
  | "compiled" => .ok .compiled
  | s => .error s!"unknown variant '{s}', expected 'interpreted' or 'compiled'"

/-- A mode is its name, by itself or as the one member of an object, with nothing in it. -/
def modeOf : Document → Decoded Mode
  | .string s | .object [(s, .null)] => modeNamed s
  | _ => wrongType "a mode"

namespace Config

def fields : List String :=
  ["mode", "analyze_before_run", "compiler", "limits", "personality", "log", "knowledge"]

def ofDocument : Document → Decoded Config :=
  record fields {} fun c key d =>
    match key with
    | "mode" => do return { c with mode := ← modeOf d }
    | "analyze_before_run" => do return { c with analyzeFirst := ← boolOf d }
    | "compiler" => do return { c with verifyImages := ← verifyOf d }
    | "limits" => do return { c with limits := ← limitsOf d }
    | "personality" => do return { c with personality := ← personalityOf d }
    | "log" => do return { c with log := ← logOf d }
    | "knowledge" => do return { c with knowledge := ← optional stringOf d }
    | _ => unknownMember key

/-- The template's profile with single traits changed, in the order of their names. -/
def profile (c : Config) : Except ProfileError Profile := do
  let base ← match c.personality.template with
    | some name => Profile.ofTemplate name
    | none => pure .default
  base.setAll c.personality.traits

def settings (c : Config) : Except ProfileError Settings := do
  return ⟨c.mode, c.verifyImages, c.limits, ← c.profile, c.analyzeFirst⟩

end Config

/-! ### Log settings -/

/-- What can be logged about. -/
def logPhases : List String := ["lexer", "parser", "analyzer", "compiler", "loader", "vm"]

def logLevels : List String := ["silent", "off", "error", "warn", "info", "debug", "trace", ""]

/-- A level is a word in any letter case or its number. -/
def checkLevel (s : String) : Except String Unit :=
  let isNumber := match s.toList with
    | '+' :: ds => isLevelNumber ds
    | ds => isLevelNumber ds
  if logLevels.contains (Text.lower s) || isNumber then .ok () else .error s!"Unknown log level '{s}'"
where
  isLevelNumber (ds : List Char) : Bool :=
    !ds.isEmpty && ds.all Decimal.isDecimalDigit && Decimal.digitsValue ds ≤ 5

def LogSection.check (l : LogSection) : Except String Unit := do
  l.level.forM checkLevel
  l.phases.forM fun (name, level) => do
    unless logPhases.contains name do throw s!"Unknown log phase '{name}'"
    checkLevel level

def checkFormat (name : String) : Except String Unit :=
  let name := Text.lower name
  if ["pretty", "compact", "json"].contains name then .ok () else .error s!"Unknown log format '{name}'"

/-! ### Knowledge -/

def entryFields : List String := ["topic", "title", "summary", "confidence", "verified"]

def entryOf (d : Document) : Decoded KnowledgeEntry := do
  let ms ← membersOf entryFields d
  let required (key : String) : Decoded Document :=
    match ms.lookup key with
    | some d => .ok d
    | none => .error s!"missing field '{key}'"
  return ⟨← required "topic" >>= stringOf, ← required "title" >>= stringOf,
    ← required "summary" >>= stringOf, ← required "confidence" >>= numberOf,
    ← ((ms.lookup "verified").map boolOf).getD (.ok false)⟩

def knowledgeOf : Document → Decoded (List KnowledgeEntry)
  | .array ds => ds.mapM entryOf
  | _ => wrongType "an array"

end Persona.Command
