import Persona.Builtin.Call
import Persona.Syntax.Walk

/-! Running a program by walking its tree.

Expressions and statements are walked by recursion on the tree. Two things are
not bounded by it, the rounds of a `while` loop and the calls of the program's
own functions; both take from a supply of *fuel*, and a run that needs more than
there is stays unfinished. Every round and every call looks at the clock, so that
a budget that ends bounds the fuel that a run can need. -/
namespace Persona

/-- Why an evaluation has no result. A literal that is longer than an array may be is told
apart from the other faults: it stops the walk before any of its elements is evaluated. -/
inductive Stop where
  | fault (f : Fault)
  | longLiteral (size : Nat)
  | unfinished

/-- The fault that ends the run, unless it is only unfinished. -/
def Stop.fault? (limits : Limits) : Stop → Option Fault
  | fault f => some f
  | longLiteral size => some (.limit (.arrayLength size limits.maxArrayLength))
  | unfinished => none

abbrev Eval (α : Type) := ExceptT Stop (StateM Session) α

/-- How a statement hands on control. -/
inductive Flow where
  | next
  | leave
  | again
  | giveBack (v : Value)

/-- How a callee is applied to arguments. -/
abbrev Caller := Value → List Value → Eval Value

namespace Evaluation

/-- An action, which always finishes. -/
def act (a : Action α) : Eval α := fun s =>
  match a s with
  | (.ok x, s) => (.ok x, s)
  | (.error f, s) => (.error (.fault f), s)

/-! ### Expressions -/

mutual

def expr (h : Host) (call : Caller) : Expr → Eval Value
  | .literal l => return .ofLiteral l
  | .identifier i => act (Action.lookup i.name)
  | .binary op l r => do
    let a ← expr h call l
    match op with
    | .and => if a.isTruthy then expr h call r else return .bool false
    | .or => if a.isTruthy then return .bool true else expr h call r
    | op => do
      let b ← expr h call r
      act (Action.orFault (Value.binary h.limits op a b))
  | .unary op e => do
    let v ← expr h call e
    act (Action.orFault (Value.unary op v))
  | .assign target value => do
    let v ← expr h call value
    modify fun s => s.assign target.name v
    return v
  | .call _ callee arguments => do
    let f ← expr h call callee
    let vs ← exprs h call #[] arguments
    call f vs.toList
  | .array elements => do
    if h.limits.maxArrayLength < elements.length then throw (.longLiteral elements.length)
    return .array (← exprs h call #[] elements)
  | .map es => do
    return .map (← entries h call [] es)
  | .index object key => do
    let o ← expr h call object
    let k ← expr h call key
    act (Action.orFault (Value.index o k))
termination_by structural e => e

/-- The values of expressions in order, behind those before. -/
def exprs (h : Host) (call : Caller) (before : Array Value) : List Expr → Eval (Array Value)
  | [] => return before
  | e :: rest => do
    let v ← expr h call e
    exprs h call (before.push v) rest
termination_by structural es => es

def entries (h : Host) (call : Caller) (before : List (String × Value)) :
    List (String × Expr) → Eval (List (String × Value))
  | [] => return before
  | (key, e) :: rest => do
    let v ← expr h call e
    entries h call (Keyed.insert key v before) rest
termination_by structural es => es

end

/-! ### Loops -/

/-- Rounds of a body as long as a test holds, at most as many as there is fuel. -/
def whileLoop (h : Host) (test : Eval Value) (body : Eval Flow) : (fuel : Nat) → Eval Flow
  | 0 => throw .unfinished
  | fuel + 1 => do
    act (Action.checkBudget h)
    let v ← test
    if v.isTruthy then
      match ← body with
      | .next | .again => whileLoop h test body fuel
      | .leave => return .next
      | .giveBack v => return .giveBack v
    else return .next

/-- A round of a body for every item. -/
def forLoop (h : Host) (body : Value → Eval Flow) : List Value → Eval Flow
  | [] => return .next
  | item :: rest => do
    act (Action.checkBudget h)
    match ← body item with
    | .next | .again => forLoop h body rest
    | .leave => return .next
    | .giveBack v => return .giveBack v

/-! ### Statements -/

mutual

def stmt (h : Host) (call : Caller) (fuel : Nat) : Stmt → Eval Flow
  | .expr _ e => do
    let _ ← expr h call e
    return .next
  | .bind _ name value => do
    let v ← expr h call value
    modify fun s => s.define name v
    return .next
  | .function ⟨_, name, params, _, body⟩ => do
    let f ← act (Action.makeFunction name (params.map (·.name)) (.script body))
    modify fun s => s.define name f
    return .next
  | .cond _ test yes no => do
    let v ← expr h call test
    if v.isTruthy then block h call fuel yes else otherwise h call fuel no
  | .whileLoop _ test body => whileLoop h (expr h call test) (block h call fuel body) fuel
  | .forEach _ name iterable body => do
    let v ← expr h call iterable
    let items ← act (Action.orFault v.items)
    let round (item : Value) : Eval Flow := do
      modify fun s => s.define name item
      block h call fuel body
    forLoop h round items.toList
  | .block _ body => block h call fuel body
  | .personality .. => return .next
  | .giveBack _ none => return .giveBack .null
  | .giveBack _ (some e) => do
    return .giveBack (← expr h call e)
  | .leave _ => return .leave
  | .again _ => return .again
termination_by structural s => s

/-- Statements up to the first that does not go on to the next. -/
def block (h : Host) (call : Caller) (fuel : Nat) : List Stmt → Eval Flow
  | [] => return .next
  | s :: rest => do
    match ← stmt h call fuel s with
    | .next => block h call fuel rest
    | flow => return flow
termination_by structural ss => ss

def otherwise (h : Host) (call : Caller) (fuel : Nat) : Option Stmt → Eval Flow
  | none => return .next
  | some s => stmt h call fuel s
termination_by structural no => no

end

/-! ### Calls -/

/-- The value of a call whose body is run in the innermost frame; the frame ends with it,
also where it faults. -/
def inFrame (body : Eval Flow) : Eval Value := fun s =>
  match body s with
  | (.ok (.giveBack v), s) => (.ok v, s.pop)
  | (.ok _, s) => (.ok .null, s.pop)
  | (.error e, s) => (.error e, s.pop)

/-- Applies a callee; `runBody` runs the body of a function of the program. -/
def applyWith (h : Host) (runBody : List Stmt → Eval Flow) : Caller
  | .builtin b, vs => act (b.call h vs)
  | .function f, vs =>
    match f.body with
    | .compiled _ => throw (.fault (.code (.notInterpretable f.id.name)))
    | .script body =>
      if f.params.length ≠ vs.length then
        throw (.fault (.arityMismatch f.id.name (.exactly f.params.length) vs.length))
      else do
        act (Action.push h)
        modify fun s => s.defineAll (f.params.zip vs)
        inFrame (runBody body)
  | v, _ => throw (.fault (.notCallable v.kind))

/-- Calls inside the body of a function have one unit of fuel less. -/
def call (h : Host) : (fuel : Nat) → Caller
  | 0 => applyWith h fun _ => throw .unfinished
  | fuel + 1 => applyWith h (block h (call h fuel) fuel)

/-! ### Programs -/

/-- Statements outside of functions: only a `return` ends them before the last. -/
def topLevel (run : Stmt → Eval Flow) : List Stmt → Eval Unit
  | [] => return
  | s :: rest => do
    match ← run s with
    | .giveBack _ => return
    | _ => topLevel run rest

def applyBlocks : List (List TraitEntry) → Eval Unit
  | [] => return
  | block :: rest => do
    act (Action.applyPersonality (block.map fun e => (e.key, e.value)))
    applyBlocks rest

/-- The personality blocks take effect before anything else. -/
def program (h : Host) (fuel : Nat) (p : Program) : Eval Unit := do
  applyBlocks p.personalityBlocks
  topLevel (stmt h (call h fuel) fuel) p.statements

end Evaluation

/-- The outcome of a program, unless it needs more fuel. -/
def Program.interpret? (h : Host) (fuel : Nat) (p : Program) (s : Session) : Option Outcome :=
  match (Evaluation.program h fuel p) s with
  | (.ok (), s) => some (s.finish (.ok ()))
  | (.error e, s) => (e.fault? h.limits).map fun f => s.finish (.error f)

/-- Fuel for a run that may take this many looks at the clock: each unit comes with a
look. -/
def Clock.fuel (looks : Nat) : Nat := looks + 2

/-- The outcome of a program under the budget of its limits. -/
def Program.interpret (h : Host) (profile : Profile) (p : Program) : Outcome :=
  let budget := h.limits.executionTimeoutMs
  let s := Session.start h profile (.ofBudget budget)
  (p.interpret? h (Clock.fuel (budget * Clock.looksPerMs)) s).getD
    (s.finish (.error (.timeout budget)))

end Persona
