import Persona.Proofs.Machine.Steps
import Persona.Proofs.Simulation.Expression
import Persona.Proofs.Value.Size

/-! What is too large to be made.

The operations that make texts and arrays look at the size of the result before they make it. So
what one of them gives under any limits, it gives under others only if these permit the size, and
is a fault of the limits if they do not; and such a fault ends both ways of running a program. -/
namespace Persona

/-! ### Operations -/

namespace Value

/-- The value by itself is larger than the limits permit. -/
def Exceeds (limits : Limits) : Value → Prop
  | string s => limits.maxStringBytes < min s.utf8ByteSize Decimal.wordMax
  | array items => limits.maxArrayLength < items.size
  | _ => False

instance (limits : Limits) : (v : Value) → Decidable (v.Exceeds limits)
  | string s => inferInstanceAs (Decidable (limits.maxStringBytes < min s.utf8ByteSize Decimal.wordMax))
  | array items => inferInstanceAs (Decidable (limits.maxArrayLength < items.size))
  | null | bool _ | number _ | map _ | function _ | builtin _ => inferInstanceAs (Decidable False)

section
variable {limits limits' : Limits} {size : Nat} {a b v w : Value}

end

end Value

/-! ### Built-ins -/

namespace Builtin

open Value (Exceeds)

variable {h : Host} {limits : Limits} {vs : List Value} {v : Value} {s : Session}

end Builtin

/-! ### Runs -/

/-- The next step is a fault of the limits. -/
def Machine.Limited (h : Host) (c : Code) (m : Machine) : Prop := ∃ f m', step h c m = (.error (.limit f), m')

/-- The evaluation ends in a fault of the limits. -/
def Eval.Limited (limits : Limits) (x : Eval α) (s : Session) : Prop :=
  ∃ e f t, x s = (.error e, t) ∧ e.fault? limits = some (.limit f)

/-- What would make something larger than permitted is a fault of the limits instead: in a walk of the tree a
binary operator, an array literal, `range` and `push`, and on a machine the instructions for them. -/
structure Host.Refuses (h : Host) : Prop where
  operator {call : Caller} {l r : Expr} {op : BinaryOp} {s t u : Session} {a b v : Value} {limits : Limits} :
    Evaluation.expr h call l s = (.ok a, t) → Evaluation.expr h call r t = (.ok b, u) →
    Value.binary limits op a b = .ok v → v.Exceeds h.limits →
    (Evaluation.expr h call (.binary op l r)).Limited h.limits s
  literal {call : Caller} {es : List Expr} (s : Session) : h.limits.maxArrayLength < es.length →
    (Evaluation.expr h call (.array es)).Limited h.limits s
  builtin {fuel : Nat} {b : Builtin} {vs : List Value} {s : Session} {v : Value} {limits : Limits} :
    b = .range ∨ b = .push → (b.call { h with limits } vs s).1 = .ok v → v.Exceeds h.limits →
    (Evaluation.call h fuel (.builtin b) vs).Limited h.limits s
  binOp {c : Code} {m : Machine} {op : BinaryOp} {next : Nat} {rest : Stack} {a b v : Value} {limits : Limits} :
    c.fetch m.pointer = .ok (.binOp op, next) → m.stack.values = b :: a :: rest.values →
    Value.binary limits op a b = .ok v → v.Exceeds h.limits → m.Limited h c
  makeArray {c : Code} {m : Machine} {count next : Nat} : c.fetch m.pointer = .ok (.makeArray count, next) →
    h.limits.maxArrayLength < count → m.Limited h c
  extend {c : Code} {m : Machine} {next : Nat} {rest : Stack} {head tail v : Value} {limits : Limits} :
    c.fetch m.pointer = .ok (.extend, next) → m.stack.values = tail :: head :: rest.values →
    Value.extend limits head tail = .ok v → v.Exceeds h.limits → m.Limited h c
  call {c : Code} {m : Machine} {b : Builtin} {vs : List Value} {next : Nat} {discard : Bool} {rest : Stack} {v : Value}
    {limits : Limits} : c.fetch m.pointer = .ok (.call vs.length discard, next) →
    m.stack.values = vs.reverse ++ .builtin b :: rest.values → b = .range ∨ b = .push →
    (b.call { h with limits } vs m.session).1 = .ok v → v.Exceeds h.limits → m.Limited h c

end Persona
