import Persona.Fault
import Persona.Limits
import Persona.Service
import Persona.Session.Output

/-! The state of a run, and the small steps that both ways of running a program are
made of.

Time is counted by looking at it: a clock says how many more looks find the
budget unspent. A run looks at the clock before every round of a loop, before
every call of a function of the program and around every call of a service. -/
namespace Persona

/-- What a run can use and cannot change. -/
structure Host where
  limits : Limits := {}
  services : Services := .silent

/-- How many more looks find the budget unspent; without a number all of them do. -/
abbrev Clock := Option Nat

namespace Clock

/-- How often a run looks at the clock within a millisecond. -/
def looksPerMs : Nat := 10000

def ofBudget (ms : Nat) : Clock := some (ms * looksPerMs)

/-- A look: the clock after it, unless the budget is spent. -/
def look? : Clock → Option Clock
  | none => some none
  | some 0 => none
  | some (n + 1) => some (some n)

def isSpent (c : Clock) : Bool := c == some 0

end Clock

/-- Variables and their values, by name. -/
abbrev Scope := List (String × Value)

/-- Every call has a scope of its own, the innermost first in `frames`. -/
structure Session where
  globals : Scope := []
  frames : List Scope := []
  profile : Profile
  output : Output
  clock : Clock
  calls : List ServiceCall := []
  made : Nat := 0

namespace Session

/-- Before anything has run. -/
def start (h : Host) (profile : Profile) (clock : Clock) : Session where
  profile
  output := ⟨h.limits.maxOutputBytes, "", false⟩
  clock

/-! ### Variables -/

/-- The scope of the innermost call, or the global one. -/
def scope (s : Session) : Scope := s.frames.headD s.globals

/-- The value of a name: in the current scope, in the global one, or a built-in. -/
def lookup? (s : Session) (name : String) : Option Value :=
  (Keyed.get? name s.scope).or <| (Keyed.get? name s.globals).or <|
    (Builtin.ofName? name).map Value.builtin

/-- Binds a name in the current scope. -/
def define (s : Session) (name : String) (value : Value) : Session :=
  match s.frames with
  | [] => { s with globals := Keyed.insert name value s.globals }
  | f :: rest => { s with frames := Keyed.insert name value f :: rest }

/-- Changes a name where it is bound; one that is bound nowhere is bound in the current
scope. -/
def assign (s : Session) (name : String) (value : Value) : Session :=
  if (Keyed.get? name s.scope).isNone && (Keyed.get? name s.globals).isSome then
    { s with globals := Keyed.insert name value s.globals }
  else s.define name value

def defineAll (s : Session) (bindings : List (String × Value)) : Session :=
  bindings.foldl (fun s (name, value) => s.define name value) s

/-- The number of calls that have not returned. -/
def depth (s : Session) : Nat := s.frames.length

/-- Ends the innermost call. -/
def pop (s : Session) : Session := { s with frames := s.frames.tail }

def print (s : Session) (text : String) : Session := { s with output := s.output.write text }

end Session

/-! ### Actions -/

/-- What can fault; what it did before stays done. -/
abbrev Action (α : Type) := ExceptT Fault (StateM Session) α

namespace Action

def orFault : Except Fault α → Action α
  | .ok x => return x
  | .error f => throw f

def lookup (name : String) : Action Value := do
  match (← get).lookup? name with
  | some v => return v
  | none => throw (.undefinedVariable name)

/-- Looks at the clock. -/
def checkBudget (h : Host) : Action Unit := do
  match (← get).clock.look? with
  | some clock => modify fun s => { s with clock }
  | none => throw (.timeout h.limits.executionTimeoutMs)

/-- Begins a call with an empty scope. -/
def push (h : Host) : Action Unit := do
  checkBudget h
  if h.limits.maxCallDepth ≤ (← get).depth then throw (.stackOverflow h.limits.maxCallDepth)
  modify fun s => { s with frames := [] :: s.frames }

/-- A function with an identity that no other has. -/
def makeFunction (name : String) (params : List String) (body : FunctionBody) : Action Value := do
  let serial := (← get).made
  modify fun s => { s with made := serial + 1 }
  return .function ⟨⟨serial, name⟩, params, body⟩

def applyPersonality (entries : List (Trait × Float)) : Action Unit := do
  match (← get).profile.applyBlock entries with
  | .ok profile => modify fun s => { s with profile }
  | .error e => throw (.personality e)

/-- The time left of the budget. -/
def remainingMs (h : Host) : Action Nat := do
  return if (← get).clock.isSpent then 0 else h.limits.executionTimeoutMs

/-- Makes a call of a service between two looks at the clock. `answer` gets the calls
before it. -/
def service (h : Host) (call : ServiceCall) (answer : List ServiceCall → Except String α) :
    Action α := do
  checkBudget h
  let before := (← get).calls
  modify fun s => { s with calls := call :: s.calls }
  match answer before with
  | .error message => throw (.service message)
  | .ok x =>
    checkBudget h
    return x

end Action

/-! ### Outcomes -/

/-- How a run ended. -/
inductive Ending where
  | halted
  | faulted (f : Fault)
  | timedOut (budget : Nat)
deriving DecidableEq

/-- What is left of a run: its service calls in order, and the output. -/
structure Outcome where
  ending : Ending
  output : String
  isTruncated : Bool
  calls : List ServiceCall

namespace Ending

/-- A spent budget is no fault of the program. -/
def ofResult : Except Fault Unit → Ending
  | .ok () => halted
  | .error (.timeout budget) => timedOut budget
  | .error f => faulted f

def category? : Ending → Option String
  | halted => none
  | faulted f => some f.category
  | timedOut budget => some (Fault.timeout budget).category

def message? : Ending → Option String
  | halted => none
  | faulted f => some f.message
  | timedOut budget => some (Fault.timeout budget).message

end Ending

namespace Outcome

def isSuccess (o : Outcome) : Bool := o.ending = .halted

end Outcome

def Session.finish (s : Session) (result : Except Fault Unit) : Outcome :=
  ⟨.ofResult result, s.output.text, s.output.isTruncated, s.calls.reverse⟩

end Persona
