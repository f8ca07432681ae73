import Persona.Proofs.Builtin.Call
import Persona.Proofs.Evaluation.Closed
import Persona.Proofs.Value.Operation

/-! Evaluations with other function bodies.

An expression looks into a function only where it calls one. If calls do with other bodies what they do
with the bodies as they are, then so do expressions, loops and all else that is made of these. -/
namespace Persona

open Persona.Action (Natural natural_pure natural_throw natural_modify natural_orFault)

variable {f : Function → FunctionBody}

/-- The flow with other bodies in what it gives back. -/
def Flow.mapBodies (f : Function → FunctionBody) : Flow → Flow
  | giveBack v => giveBack (v.mapBodies f)
  | flow => flow

/-- The body with changed statements. -/
def FunctionBody.mapScript (change : List Stmt → List Stmt) : FunctionBody → FunctionBody
  | script body => script (change body)
  | compiled entry => compiled entry

namespace Evaluation

variable {h : Host} {call call' : Caller}

theorem natural_act {g : α → β} {a : Action α} {b : Action β} (hab : Natural f g a b) : Natural f g (act a) (act b) := by
  intro s
  unfold act
  rw [hab s]
  cases a s with
  | mk r t =>
    cases r with
    | error e => rfl
    | ok x => rfl

theorem natural_ite {g : α → β} {x y : Eval α} {x' y' : Eval β} (v : Value) (hx : Natural f g x x')
    (hy : Natural f g y y') :
    Natural f g (if v.isTruthy then x else y) (if (v.mapBodies f).isTruthy then x' else y') := by
  rw [Value.isTruthy_mapBodies]
  split
  · exact hx
  · exact hy

/-- The second caller does with other bodies what the first one does. -/
def Agree (f : Function → FunctionBody) (call call' : Caller) : Prop :=
  ∀ v vs, Natural f (Value.mapBodies f) (call v vs) (call' (v.mapBodies f) (vs.map (Value.mapBodies f)))

/-! ### Expressions -/

mutual

theorem natural_expr (hcall : Agree f call call') : ∀ e : Expr,
    Natural f (Value.mapBodies f) (expr h call e) (expr h call' e)
  | .literal l => by
    have hpure : Natural f (Value.mapBodies f) (pure (.ofLiteral l) : Eval Value) _ := natural_pure _
    cases l with
    | _ => exact hpure
  | .identifier i => natural_act (Action.natural_lookup i.name)
  | .binary op l r => by
    have hr := natural_expr hcall r
    refine (natural_expr hcall l).bind fun a => ?_
    cases op with
    | and => exact natural_ite a hr (natural_pure _)
    | or => exact natural_ite a (natural_pure _) hr
    | _ => exact hr.bind fun b => natural_act (natural_orFault (Value.binary_mapBodies ..))
  | .unary op e =>
    (natural_expr hcall e).bind fun v => natural_act (natural_orFault (Value.unary_mapBodies ..))
  | .assign target value =>
    (natural_expr hcall value).bind fun v =>
      (natural_modify fun s => s.assign_mapBodies target.name v).bind fun _ => natural_pure v
  | .call _ callee arguments => by
    have harguments := natural_exprs hcall arguments #[]
    rw [Array.map_empty] at harguments
    refine (natural_expr hcall callee).bind fun v => harguments.bind fun vs => ?_
    rw [Array.toList_map]
    exact hcall v vs.toList
  | .array elements => by
    have helements := natural_exprs hcall elements #[]
    rw [Array.map_empty] at helements
    rw [expr, expr]
    simp only
    split
    · exact natural_throw _
    · refine helements.bind fun vs => ?_
      rw [← Value.mapBodies_array]
      exact natural_pure _
  | .map es => by
    refine (natural_entries hcall es []).bind fun entries => ?_
    rw [← Value.mapBodies_map]
    exact natural_pure _
  | .index object key =>
    (natural_expr hcall object).bind fun o =>
      (natural_expr hcall key).bind fun k => natural_act (natural_orFault (Value.index_mapBodies ..))
termination_by structural e => e

theorem natural_exprs (hcall : Agree f call call') : ∀ (es : List Expr) (before : Array Value),
    Natural f (Array.map (Value.mapBodies f)) (exprs h call before es)
      (exprs h call' (before.map (Value.mapBodies f)) es)
  | [], before => natural_pure before
  | e :: es, before => by
    refine (natural_expr hcall e).bind fun v => ?_
    rw [← Array.map_push]
    exact natural_exprs hcall es (before.push v)
termination_by structural es => es

theorem natural_entries (hcall : Agree f call call') :
    ∀ (es : List (String × Expr)) (before : List (String × Value)),
      Natural f (Keyed.mapValues (Value.mapBodies f)) (entries h call before es)
        (entries h call' (Keyed.mapValues (Value.mapBodies f) before) es)
  | [], before => natural_pure before
  | (key, e) :: es, before => by
    refine (natural_expr hcall e).bind fun v => ?_
    rw [Keyed.insert_mapValues]
    exact natural_entries hcall es (Keyed.insert key v before)
termination_by structural es => es

end

/-! ### Loops -/

theorem natural_afterRound {more more' : Eval Flow} (hmore : Natural f (Flow.mapBodies f) more more') (flow : Flow) :
    Natural f (Flow.mapBodies f) (afterRound more flow) (afterRound more' (flow.mapBodies f)) := by
  cases flow with
  | next => exact hmore
  | again => exact hmore
  | leave => exact natural_pure _
  | giveBack v => exact natural_pure (Flow.giveBack v)

theorem natural_whileLoop {test test' : Eval Value} {body body' : Eval Flow}
    (htest : Natural f (Value.mapBodies f) test test') (hbody : Natural f (Flow.mapBodies f) body body') (left : Nat) :
    Natural f (Flow.mapBodies f) (whileLoop h test body left) (whileLoop h test' body' left) := by
  induction left with
  | zero => exact natural_throw _
  | succ left ih =>
    rw [whileLoop_succ, whileLoop_succ]
    refine (natural_act (Action.natural_checkBudget h)).bind fun _ => htest.bind fun v => ?_
    exact natural_ite v (hbody.bind fun flow => natural_afterRound ih flow) (natural_pure _)

theorem natural_forLoop {body body' : Value → Eval Flow}
    (hbody : ∀ v, Natural f (Flow.mapBodies f) (body v) (body' (v.mapBodies f))) (items : List Value) :
    Natural f (Flow.mapBodies f) (forLoop h body items) (forLoop h body' (items.map (Value.mapBodies f))) := by
  induction items with
  | nil => exact natural_pure _
  | cons item rest ih =>
    rw [List.map_cons, forLoop_cons, forLoop_cons]
    refine (natural_act (Action.natural_checkBudget h)).bind fun _ => (hbody item).bind fun flow => ?_
    exact natural_afterRound ih flow

/-! ### Calls -/

section
variable {change : List Stmt → List Stmt}

end

end Evaluation

end Persona
