import Persona.Evaluation

/-! The moments of a run.

A run begins with the statements of the program, and whatever it is about to do leads to other
things that it is about to do: an operator to its operands, a loop to its rounds, a call to the
body of the function. A moment is such a thing to do and all there is when its turn comes. What
leads to a moment has ended with the results and in the session that the evaluation itself gives. -/
namespace Persona

/-- Whether an operator goes on with its right operand. -/
def BinaryOp.goesOn : BinaryOp → Value → Bool
  | .and, a => a.isTruthy
  | .or, a => !a.isTruthy
  | _, _ => true

/-- Whether a loop goes on to its next round. -/
def Flow.repeats : Flow → Bool
  | next | again => true
  | _ => false

namespace Evaluation

/-- What a run is about to do. -/
inductive Task where
  | expr (e : Expr)
  | exprs (before : Array Value) (es : List Expr)
  | entries (before : List (String × Value)) (es : List (String × Expr))
  | apply (f : Value) (vs : List Value)
  | stmt (s : Stmt)
  | block (ss : List Stmt)
  | otherwise (no : Option Stmt)
  | rounds (test : Expr) (body : List Stmt) (left : Nat)
  | each (name : String) (body : List Stmt) (items : List Value)
  | topLevel (ss : List Stmt)

/-- A task, the session it finds, and the functions whose calls have not returned, the innermost
first. -/
structure Moment where
  fuel : Nat
  calls : List Function
  task : Task
  session : Session

variable (h : Host) (call : Caller) (fuel : Nat)

/-- The session that a task leaves, however it ends. -/
def Task.after : Task → Session → Session
  | .expr e, s => (Evaluation.expr h call e s).2
  | .exprs before es, s => (Evaluation.exprs h call before es s).2
  | .entries before es, s => (Evaluation.entries h call before es s).2
  | .apply f vs, s => (call f vs s).2
  | .stmt st, s => (Evaluation.stmt h call fuel st s).2
  | .block ss, s => (Evaluation.block h call fuel ss s).2
  | .otherwise no, s => (Evaluation.otherwise h call fuel no s).2
  | .rounds test body left, s =>
    (whileLoop h (Evaluation.expr h call test) (Evaluation.block h call fuel body) left s).2
  | .each name body items, s =>
    let round (item : Value) : Eval Flow := do
      modify fun s => s.define name item
      Evaluation.block h call fuel body
    (forLoop h round items s).2
  | .topLevel ss, s => (Evaluation.topLevel (Evaluation.stmt h call fuel) ss s).2

def Moment.after (m : Moment) : Session := m.task.after h (Evaluation.call h m.fuel) m.fuel m.session

/-- What a task leads to in the same call. -/
inductive Part : Task → Session → Task → Session → Prop
  | left {s op l r} : Part (.expr (.binary op l r)) s (.expr l) s
  | right {s t op l r a} : Evaluation.expr h call l s = (.ok a, t) → op.goesOn a = true →
    Part (.expr (.binary op l r)) s (.expr r) t
  | operand {s op e} : Part (.expr (.unary op e)) s (.expr e) s
  | assigned {s target e} : Part (.expr (.assign target e)) s (.expr e) s
  | callee {s place callee arguments} : Part (.expr (.call place callee arguments)) s (.expr callee) s
  | arguments {s t place callee arguments f} : Evaluation.expr h call callee s = (.ok f, t) →
    Part (.expr (.call place callee arguments)) s (.exprs #[] arguments) t
  | application {s t u place callee arguments f vs} : Evaluation.expr h call callee s = (.ok f, t) →
    Evaluation.exprs h call #[] arguments t = (.ok vs, u) →
    Part (.expr (.call place callee arguments)) s (.apply f vs.toList) u
  | elements {s elements} : elements.length ≤ h.limits.maxArrayLength →
    Part (.expr (.array elements)) s (.exprs #[] elements) s
  | values {s entries} : Part (.expr (.map entries)) s (.entries [] entries) s
  | object {s object key} : Part (.expr (.index object key)) s (.expr object) s
  | key {s t object key o} : Evaluation.expr h call object s = (.ok o, t) →
    Part (.expr (.index object key)) s (.expr key) t
  | element {s before e es} : Part (.exprs before (e :: es)) s (.expr e) s
  | nextElement {s t before e es v} : Evaluation.expr h call e s = (.ok v, t) →
    Part (.exprs before (e :: es)) s (.exprs (before.push v) es) t
  | entry {s before key e es} : Part (.entries before ((key, e) :: es)) s (.expr e) s
  | nextEntry {s t before key e es v} : Evaluation.expr h call e s = (.ok v, t) →
    Part (.entries before ((key, e) :: es)) s (.entries (Keyed.insert key v before) es) t
  | expression {s place e} : Part (.stmt (.expr place e)) s (.expr e) s
  | bound {s place name e} : Part (.stmt (.bind place name e)) s (.expr e) s
  | test {s place test yes no} : Part (.stmt (.cond place test yes no)) s (.expr test) s
  | yes {s t place test yes no v} : Evaluation.expr h call test s = (.ok v, t) → v.isTruthy = true →
    Part (.stmt (.cond place test yes no)) s (.block yes) t
  | no {s t place test yes no v} : Evaluation.expr h call test s = (.ok v, t) → v.isTruthy = false →
    Part (.stmt (.cond place test yes no)) s (.otherwise no) t
  | other {s st} : Part (.otherwise (some st)) s (.stmt st) s
  | loop {s place test body} : Part (.stmt (.whileLoop place test body)) s (.rounds test body fuel) s
  | iterable {s place name iterable body} : Part (.stmt (.forEach place name iterable body)) s (.expr iterable) s
  | items {s t place name iterable body v items} : Evaluation.expr h call iterable s = (.ok v, t) →
    v.items = .ok items → Part (.stmt (.forEach place name iterable body)) s (.each name body items.toList) t
  | inner {s place body} : Part (.stmt (.block place body)) s (.block body) s
  | given {s place e} : Part (.stmt (.giveBack place (some e))) s (.expr e) s
  | first {s st rest} : Part (.block (st :: rest)) s (.stmt st) s
  | rest {s t st rest} : Evaluation.stmt h call fuel st s = (.ok .next, t) → Part (.block (st :: rest)) s (.block rest) t
  | roundTest {s t test body left} : act (Action.checkBudget h) s = (.ok (), t) →
    Part (.rounds test body (left + 1)) s (.expr test) t
  | roundBody {s t u test body left v} : act (Action.checkBudget h) s = (.ok (), t) →
    Evaluation.expr h call test t = (.ok v, u) → v.isTruthy = true →
    Part (.rounds test body (left + 1)) s (.block body) u
  | nextRound {s t u w test body left v flow} : act (Action.checkBudget h) s = (.ok (), t) →
    Evaluation.expr h call test t = (.ok v, u) → v.isTruthy = true →
    Evaluation.block h call fuel body u = (.ok flow, w) → flow.repeats = true →
    Part (.rounds test body (left + 1)) s (.rounds test body left) w
  | itemBody {s t name body item items} : act (Action.checkBudget h) s = (.ok (), t) →
    Part (.each name body (item :: items)) s (.block body) (t.define name item)
  | nextItem {s t u name body item items flow} : act (Action.checkBudget h) s = (.ok (), t) →
    Evaluation.block h call fuel body (t.define name item) = (.ok flow, u) → flow.repeats = true →
    Part (.each name body (item :: items)) s (.each name body items) u
  | topFirst {s st rest} : Part (.topLevel (st :: rest)) s (.stmt st) s
  | topRest {s t st rest flow} : Evaluation.stmt h call fuel st s = (.ok flow, t) →
    (∀ v, flow ≠ .giveBack v) → Part (.topLevel (st :: rest)) s (.topLevel rest) t

/-- What a moment leads to: another one in the same call, or the body of a function in a call of
its own. -/
inductive Moment.Leads : Moment → Moment → Prop
  | part {fuel calls task task' s s'} : Part h (Evaluation.call h fuel) fuel task s task' s' →
    Leads ⟨fuel, calls, task, s⟩ ⟨fuel, calls, task', s'⟩
  | enter {fuel calls f body vs s t} : f.body = .script body → f.params.length = vs.length →
    Action.push h s = (.ok (), t) →
    Leads ⟨fuel + 1, calls, .apply (.function f) vs, s⟩ ⟨fuel, f :: calls, .block body, t.defineAll (f.params.zip vs)⟩

/-- The moments of a run of a program: its statements once the personality blocks are applied, and
what they lead to. -/
inductive Reaches (h : Host) (fuel : Nat) (p : Program) (s : Session) : Moment → Prop
  | start {t} : applyBlocks p.personalityBlocks s = (.ok (), t) → Reaches h fuel p s ⟨fuel, [], .topLevel p.statements, t⟩
  | leads {m m'} : Reaches h fuel p s m → m.Leads h m' → Reaches h fuel p s m'

end Evaluation

end Persona
