import Persona.Session
import Persona.Value.Operation

/-! What the built-in functions do. -/
namespace Persona

/-- The number of search results that a talkative, a moderate and a terse profile asks
for. -/
def Level.searchLimit : Level → Nat
  | .high => 5
  | .moderate => 3
  | .low => 1

def KnowledgeRow.value (r : KnowledgeRow) : Value :=
  .map [("confidence", .number r.confidence), ("summary", .string r.summary),
    ("title", .string r.title), ("verified", .bool r.verified)]

namespace Builtin

/-! ### Options -/

abbrev Options := List (String × Value)

/-- No options are the same as empty ones. -/
def readOptions (b : Builtin) : Option Value → Except Fault Options
  | none | some .null => .ok []
  | some (.map entries) => .ok entries
  | some v => .error (.type (.options b v.kind))

/-- An option that is there and not null, if `read` accepts it. -/
def readOption (expected : OptionKind) (read : Value → Option α) (options : Options) (key : String) :
    Except Fault (Option α) :=
  match Keyed.get? key options with
  | none | some .null => .ok none
  | some v =>
    match read v with
    | some x => .ok (some x)
    | none => .error (.type (.option key expected v.kind))

def numberOption : Options → String → Except Fault (Option Float) :=
  readOption .number fun
    | .number x => some x
    | _ => none

def stringOption : Options → String → Except Fault (Option String) :=
  readOption .string Value.string?

def boolOption : Options → String → Except Fault (Option Bool) :=
  readOption .bool fun
    | .bool b => some b
    | _ => none

/-- The filters of a search; a limit is a natural number. -/
def searchFilters (profile : Profile) (options : Options) : Except Fault SearchFilters := do
  let limit ← match ← numberOption options "limit" with
    | none => pure (profile.level .verbosity).searchLimit
    | some x =>
      match Decimal.integer? x with
      | some (.ofNat n) => pure (min n Decimal.wordMax)
      | _ => throw (.type (.limitOption x))
  let verifiedOnly := (← boolOption options "verified_only").getD false
  let minConfidence := (← numberOption options "min_confidence").getD 0.0
  return ⟨limit, minConfidence, verifiedOnly⟩

def speakOptions (options : Options) : Except Fault SpeakOptions := do
  return ⟨← stringOption options "voice", ← numberOption options "rate"⟩

/-- Nobody waits longer than the budget lasts. -/
def listenOptions (remainingMs : Nat) (options : Options) : Except Fault ListenOptions := do
  let timeoutMs ← match ← numberOption options "timeout_ms" with
    | none => pure remainingMs
    | some x =>
      if 0.0 ≤ x then pure (min (Decimal.toWord x) remainingMs)
      else throw (.type (.timeoutOption x))
  return ⟨← stringOption options "prompt", timeoutMs⟩

/-! ### Arguments -/

def integerArgument (b : Builtin) (v : Value) : Except Fault Int :=
  match v.integer? with
  | some i => .ok i
  | none => .error (.type (.argument b v.kind))

def stringArgument (b : Builtin) (v : Value) : Except Fault String :=
  match v with
  | .string s => .ok s
  | v => .error (.type (.argument b v.kind))

def traitArgument (b : Builtin) (v : Value) : Except Fault Trait := do
  let name ← stringArgument b v
  match Trait.ofName? name with
  | some t => return t
  | none => throw (.personality (.unknownTrait name))

/-! ### Functions of values alone -/

def length : Value → Except Fault Value
  | .string s => .ok (.number s.length.toFloat)
  | .array items => .ok (.number items.size.toFloat)
  | .map entries => .ok (.number entries.length.toFloat)
  | v => .error (.type (.argument .len v.kind))

/-- The integers from one up to another, without the latter. -/
def integers (limits : Limits) (start stop : Int) : Except Fault Value := do
  let count := (stop - start).toNat
  Value.checkArrayLength count limits
  return .array ((Array.range count).map fun (i : Nat) => .number (Float.ofInt (start + i)))

def append (limits : Limits) : Value → Value → Except Fault Value
  | .array items, v => do
    Value.checkArrayLength (items.size + 1) limits
    return .array (items.push v)
  | v, _ => .error (.type (.argument .push v.kind))

def keysOf : Value → Except Fault Value
  | .map entries => .ok (.array (entries.toArray.map fun (key, _) => .string key))
  | v => .error (.type (.argument .keys v.kind))

/-! ### Services -/

def searchFor (h : Host) (topic : Value) (options : Option Value) : Action Value := do
  let topic ← Action.orFault (stringArgument knowledge topic)
  let profile := (← get).profile
  let filters ← Action.orFault (readOptions knowledge options >>= searchFilters profile)
  let rows ← Action.service h (.search topic filters) (h.services.search · topic filters)
  return .array ((rows.take filters.limit).map KnowledgeRow.value).toArray

def speak (h : Host) (v : Value) (options : Option Value) : Action Value := do
  let options ← Action.orFault (readOptions say options >>= speakOptions)
  Action.service h (.speak v.text options) (h.services.speak · v.text options)
  return .bool true

def hear (h : Host) (options : Option Value) : Action Value := do
  let options ← Action.orFault (readOptions listen options)
  let options ← Action.orFault (listenOptions (← Action.remainingMs h) options)
  return .string (← Action.service h (.listen options) (h.services.listen · options))

/-- Calls a built-in; any other number of arguments than the listed ones is a fault. -/
def call (h : Host) : Builtin → List Value → Action Value
  | print, vs => do
    modify fun s => (s.print (" ".intercalate (vs.map Value.text))).print "\n"
    return .null
  | len, [v] => Action.orFault (length v)
  | range, [stop] => do
    let stop ← Action.orFault (integerArgument range stop)
    Action.orFault (integers h.limits 0 stop)
  | range, [start, stop] => do
    let start ← Action.orFault (integerArgument range start)
    let stop ← Action.orFault (integerArgument range stop)
    Action.orFault (integers h.limits start stop)
  | push, [items, v] => Action.orFault (append h.limits items v)
  | str, [v] => return .string v.text
  | type, [v] => return .string v.kind.name
  | keys, [v] => Action.orFault (keysOf v)
  | trait, [name] => do
    let t ← Action.orFault (traitArgument trait name)
    return .number ((← get).profile.get t)
  | describe, [name] => do
    let t ← Action.orFault (traitArgument describe name)
    return .string ((← get).profile.level t).name
  | knowledge, [topic] => searchFor h topic none
  | knowledge, [topic, options] => searchFor h topic (some options)
  | say, [v] => speak h v none
  | say, [v, options] => speak h v (some options)
  | listen, [] => hear h none
  | listen, [options] => hear h (some options)
  | b, vs => throw (.arityMismatch b.name b.arity vs.length)

end Builtin

end Persona
