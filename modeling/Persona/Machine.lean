import Persona.Builtin.Call
import Persona.Bytecode
import Persona.Machine.Stack

/-! The machine that runs bytecode.

A step fetches the instruction at the instruction pointer, moves the pointer
behind it and carries it out. The machine takes nothing for granted: bytes that
are no instruction, missing operands and jumps out of the code are faults. -/
namespace Persona

/-- A program as the machine reads it. -/
structure Code where
  fetch : Nat → Except DecodeError (Instruction × Nat)
  constant? : Nat → Option Value
  length : Nat

def Constant.value : Constant → Value
  | number bits => .number (Float.ofBits bits)
  | string s => .string s

/-- Instructions are decoded once, constants become values once. -/
def Code.ofBytecode (p : Bytecode) : Code :=
  let table := Instruction.table p.code
  let constants := (p.constants.map Constant.value).toArray
  ⟨fun offset => table.getD offset (.error (.truncated offset .halt)), fun i => constants[i]?,
    p.code.length⟩

/-- Where a call goes on when it returns, what the stack held below it, and whether its
result is dropped. -/
structure CallFrame where
  returnTo : Nat
  base : Nat
  discard : Bool

structure Machine where
  pointer : Nat
  stack : Stack := {}
  frames : List CallFrame := []
  session : Session

inductive Progress where
  | running
  | halted
deriving DecidableEq

/-- What the machine can do in a step. -/
abbrev Exec (α : Type) := ExceptT Fault (StateM Machine) α

namespace Machine

/-- An action on the machine's session. -/
def act (a : Action α) : Exec α := fun ⟨pointer, stack, frames, session⟩ =>
  let (result, session) := a session
  (result, ⟨pointer, stack, frames, session⟩)

/-! ### Operands -/

def push (h : Host) (v : Value) : Exec Unit := do
  let stack := (← get).stack
  if h.limits.maxStackSize ≤ stack.height then throw (.limit (.stackSize h.limits.maxStackSize))
  modify fun m => { m with stack := stack.push v }

def pop : Exec Value := do
  match (← get).stack.pop? with
  | some (v, stack) =>
    modify fun m => { m with stack }
    return v
  | none => throw (.code .underflow)

def popMany (count : Nat) : Exec (List Value) := do
  match (← get).stack.popMany? count with
  | some (vs, stack) =>
    modify fun m => { m with stack }
    return vs
  | none => throw (.code .underflow)

def constant (c : Code) (idx : Nat) : Exec Value := do
  match c.constant? idx with
  | some v => return v
  | none => throw (.code (.constantIndex idx))

def name (c : Code) (idx : Nat) : Exec String := do
  match (c.constant? idx).bind Value.string? with
  | some s => return s
  | none => throw (.code (.notAName idx))

def names (c : Code) : List Nat → Exec (List String)
  | [] => return []
  | idx :: rest => do
    let s ← name c idx
    return s :: (← names c rest)

/-! ### Control -/

def goto (offset : Nat) : Exec Unit := modify fun m => { m with pointer := offset }

/-- Jumps from behind an instruction; the end of the code is the last target. -/
def jump (c : Code) (next : Nat) (distance : Int) : Exec Unit :=
  match Instruction.jumpTarget? next distance with
  | some target => if target ≤ c.length then goto target else throw (.code .jumpTarget)
  | none => throw (.code .jumpTarget)

/-- Calls a value with arguments from the stack and goes on behind the call or at the
function's entry. -/
def call (h : Host) (next argc : Nat) (discard : Bool) : Exec Unit := do
  let vs ← popMany argc
  match ← pop with
  | .builtin b =>
    let result ← act (b.call h vs)
    unless discard do push h result
  | .function f =>
    match f.body with
    | .script _ => throw (.code (.noCompiledBody f.id.name))
    | .compiled entry =>
      if f.params.length ≠ vs.length then
        throw (.arityMismatch f.id.name (.exactly f.params.length) vs.length)
      act (Action.push h)
      modify fun m => { m with
        session := m.session.defineAll (f.params.zip vs)
        frames := ⟨next, m.stack.height, discard⟩ :: m.frames
        pointer := entry }
  | v => throw (.notCallable v.kind)

/-- Returns the top of the stack from the innermost call; outside of calls the run ends. -/
def ret (h : Host) : Exec Progress := do
  let v ← pop
  match (← get).frames with
  | [] => return .halted
  | f :: rest =>
    modify fun m => { m with
      stack := m.stack.truncate f.base
      frames := rest
      session := m.session.pop
      pointer := f.returnTo }
    unless f.discard do push h v
    return .running

/-! ### Compound values -/

/-- Keys and values in turn as the entries of a map. -/
def mapOf : List (String × Value) → List Value → Except Fault Value
  | entries, .string key :: v :: rest => mapOf (Keyed.insert key v entries) rest
  | _, key :: _ :: _ => .error (.type (.mapKey key.kind))
  | entries, _ => .ok (.map entries)

/-- The trait values of a personality instruction. -/
def traitValues (c : Code) : List (Trait × Nat) → Exec (List (Trait × Float))
  | [] => return []
  | (t, idx) :: rest => do
    match ← constant c idx with
    | .number x => return (t, x) :: (← traitValues c rest)
    | v => throw (.code (.notANumber v.kind))

/-- The items and the number of those already used, from the top two values. -/
def iterator? : List Value → Option (Array Value × Nat)
  | .number x :: .array items :: _ => some (items, Decimal.toWord x)
  | _ => none

/-- Pushes the next item of the iterator at the top, or drops it and jumps when there is
none. -/
def forNext (h : Host) (c : Code) (next : Nat) (distance : Int) : Exec Unit := do
  let stack := (← get).stack
  match iterator? stack.values with
  | none => throw (.code .noIterator)
  | some (items, used) =>
    match items[used]? with
    | some item =>
      act (Action.checkBudget h)
      modify fun m => { m with stack := (stack.drop 1).push (.number (used + 1).toFloat) }
      push h item
    | none =>
      modify fun m => { m with stack := stack.drop 2 }
      jump c next distance

/-! ### Steps -/

/-- Carries out an instruction; the pointer is already at `next`, behind it. -/
def execute (h : Host) (c : Code) (next : Nat) : Instruction → Exec Progress
  | .halt => return .halted
  | .pushConst idx => do
    push h (← constant c idx)
    return .running
  | .pushNull => do
    push h .null
    return .running
  | .pushTrue => do
    push h (.bool true)
    return .running
  | .pushFalse => do
    push h (.bool false)
    return .running
  | .pop => do
    let _ ← pop
    return .running
  | .loadVar idx => do
    let s ← name c idx
    push h (← act (Action.lookup s))
    return .running
  | .storeVar idx => do
    let s ← name c idx
    match (← get).stack.values with
    | [] => throw (.code .underflow)
    | v :: _ =>
      modify fun m => { m with session := m.session.assign s v }
      return .running
  | .defineVar idx => do
    let s ← name c idx
    let v ← pop
    modify fun m => { m with session := m.session.define s v }
    return .running
  | .loadBuiltin b => do
    push h (.builtin b)
    return .running
  | .call argc discard => do
    call h next argc discard
    return .running
  | .ret => ret h
  | .jump d => do
    if d < 0 then act (Action.checkBudget h)
    jump c next d
    return .running
  | .jumpIfFalse d => do
    let v ← pop
    unless v.isTruthy do jump c next d
    return .running
  | .binOp op => do
    let b ← pop
    let a ← pop
    push h (← act (Action.orFault (Value.binary h.limits op a b)))
    return .running
  | .unOp op => do
    let v ← pop
    push h (← act (Action.orFault (Value.unary op v)))
    return .running
  | .index => do
    let key ← pop
    let object ← pop
    push h (← act (Action.orFault (Value.index object key)))
    return .running
  | .makeArray count => do
    act (Action.orFault (Value.checkArrayLength count h.limits))
    let vs ← popMany count
    push h (.array vs.toArray)
    return .running
  | .makeMap count => do
    let vs ← popMany (2 * count)
    push h (← act (Action.orFault (mapOf [] vs)))
    return .running
  | .extend => do
    let tail ← pop
    let head ← pop
    push h (← act (Action.orFault (Value.extend h.limits head tail)))
    return .running
  | .makeFunction fn params entry => do
    let s ← name c fn
    let ps ← names c params
    push h (← act (Action.makeFunction s ps (.compiled entry)))
    return .running
  | .iterInit => do
    let v ← pop
    let items ← act (Action.orFault v.items)
    push h (.array items)
    push h (.number 0.0)
    return .running
  | .forNext d => do
    forNext h c next d
    return .running
  | .personality entries => do
    act (Action.applyPersonality (← traitValues c entries))
    return .running

def step (h : Host) (c : Code) : Exec Progress := do
  match c.fetch (← get).pointer with
  | .error e => throw (.code (.decoding e))
  | .ok (i, next) =>
    goto next
    execute h c next i

/-- Steps up to the end of the run, or as many as there is fuel; the result is missing if
the run goes on. -/
def run (h : Host) (c : Code) : (fuel : Nat) → Machine → Option (Except Fault Unit) × Machine
  | 0, m => (none, m)
  | fuel + 1, m =>
    match step h c m with
    | (.ok .running, m) => run h c fuel m
    | (.ok .halted, m) => (some (.ok ()), m)
    | (.error f, m) => (some (.error f), m)

/-- The machine before the first step of a program. -/
def start (p : Bytecode) (s : Session) : Machine := { pointer := p.entry, session := s }

end Machine

/-- The outcome of a program, unless it needs more fuel. -/
def Bytecode.execute? (h : Host) (fuel : Nat) (p : Bytecode) (s : Session) : Option Outcome :=
  match Machine.run h (.ofBytecode p) fuel (.start p s) with
  | (some result, m) => some (m.session.finish result)
  | (none, _) => none

/-- More steps than a machine takes in any budget. -/
def Machine.stepLimit : Nat := 1 <<< 62

/-- The outcome of a program under the budget of its limits. -/
def Bytecode.execute (h : Host) (profile : Profile) (p : Bytecode) : Outcome :=
  let budget := h.limits.executionTimeoutMs
  let s := Session.start h profile (.ofBudget budget)
  (p.execute? h Machine.stepLimit s).getD (s.finish (.error (.timeout budget)))

end Persona
