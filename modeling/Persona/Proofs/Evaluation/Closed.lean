import Persona.Evaluation
import Persona.Proofs.Builtin.Effect

/-! Properties of evaluations that hold of whole programs.

A property of evaluations that single steps have, and that is not lost where evaluations are
put together, is a property of every expression and of every statement. What a loop does
about its fuel and what a call does are left to the property. The same goes for what relates
two evaluations, as those of one program with two hosts that differ in their services: the
services matter in calls only. -/
namespace Persona

/-- What relates every single step to itself, and sequences if it relates their parts. -/
structure Eval.Related (R : ∀ α : Type, Eval α → Eval α → Prop) : Prop where
  pure : ∀ {α : Type} (x : α), R α (pure x) (pure x)
  longLiteral : ∀ {α : Type} (size : Nat), R α (throw (.longLiteral size)) (throw (.longLiteral size))
  bind : ∀ {α β : Type} {x y : Eval α} {k l : α → Eval β}, R α x y → (∀ a, R β (k a) (l a)) → R β (x >>= k) (y >>= l)
  define : ∀ name v, R PUnit (modify fun s => s.define name v) (modify fun s => s.define name v)
  assign : ∀ name v, R PUnit (modify fun s => s.assign name v) (modify fun s => s.assign name v)
  act : ∀ {α : Type} {a : Action α}, a.IsTame → R α (Evaluation.act a) (Evaluation.act a)

/-- A property that single steps have and sequences keep. -/
structure Eval.Closed (P : ∀ α : Type, Eval α → Prop) : Prop where
  pure : ∀ {α : Type} (x : α), P α (pure x)
  longLiteral : ∀ {α : Type} (size : Nat), P α (throw (.longLiteral size))
  bind : ∀ {α β : Type} {x : Eval α} {k : α → Eval β}, P α x → (∀ a, P β (k a)) → P β (x >>= k)
  define : ∀ name v, P PUnit (modify fun s => s.define name v)
  assign : ∀ name v, P PUnit (modify fun s => s.assign name v)
  act : ∀ {α : Type} {a : Action α}, a.IsTame → P α (Evaluation.act a)

/-- A property is a relation that looks at one evaluation only. -/
theorem Eval.Closed.related {P : ∀ α : Type, Eval α → Prop} (hP : Closed P) : Related fun α x _ => P α x where
  pure := hP.pure
  longLiteral := hP.longLiteral
  bind := hP.bind
  define := hP.define
  assign := hP.assign
  act := hP.act

namespace Evaluation

open Eval (Closed Related)

section
variable {s t : Session}

/-! ### Equations -/

theorem act_ok {a : Action α} {x : α} (ha : a s = (.ok x, t)) : act a s = (.ok x, t) := by
  unfold act
  rw [ha]

theorem act_error {a : Action α} {f : Fault} (ha : a s = (.error f, t)) : act a s = (.error (.fault f), t) := by
  unfold act
  rw [ha]

/-- What a body hands to its caller. -/
def given : Flow → Value
  | .giveBack v => v
  | _ => .null

theorem inFrame_ok {body : Eval Flow} {flow : Flow} (hbody : body s = (.ok flow, t)) :
    inFrame body s = (.ok (given flow), t.pop) := by
  unfold inFrame
  rw [hbody]
  cases flow with
  | _ => rfl

theorem inFrame_error {body : Eval Flow} {e : Stop} (hbody : body s = (.error e, t)) :
    inFrame body s = (.error e, t.pop) := by
  unfold inFrame
  rw [hbody]

end

variable {h : Host} {services : Services} {R : ∀ α : Type, Eval α → Eval α → Prop}

/-! ### Loops -/

/-- What a loop does after a round, if it would go on with `more`. -/
def afterRound (more : Eval Flow) : Flow → Eval Flow
  | .next | .again => more
  | .leave => return .next
  | .giveBack v => return .giveBack v

theorem whileLoop_succ (test : Eval Value) (body : Eval Flow) (fuel : Nat) :
    whileLoop h test body (fuel + 1) = (do
      act (Action.checkBudget h)
      let v ← test
      if v.isTruthy then body >>= afterRound (whileLoop h test body fuel) else pure .next) := by
  rw [whileLoop]
  refine congrArg _ (funext fun _ => congrArg _ (funext fun v => ?_))
  split
  · refine congrArg _ (funext fun flow => ?_)
    cases flow with
    | _ => rfl
  · rfl

theorem forLoop_cons (body : Value → Eval Flow) (item : Value) (rest : List Value) :
    forLoop h body (item :: rest) = (do
      act (Action.checkBudget h)
      body item >>= afterRound (forLoop h body rest)) := by
  rw [forLoop]
  refine congrArg _ (funext fun _ => congrArg _ (funext fun flow => ?_))
  cases flow with
  | _ => rfl

theorem related_ite (b : Bool) {x x' y y' : Eval α} (hx : R α x x') (hy : R α y y') :
    R α (if b then x else y) (if b then x' else y') := by
  cases b with
  | true => exact hx
  | false => exact hy

theorem related_afterRound (hR : Related R) {more more' : Eval Flow} (hmore : R Flow more more') (flow : Flow) :
    R Flow (afterRound more flow) (afterRound more' flow) := by
  cases flow with
  | next => exact hmore
  | again => exact hmore
  | leave => exact hR.pure _
  | giveBack v => exact hR.pure _

theorem related_forLoop (hR : Related R) {body body' : Value → Eval Flow} (hbody : ∀ v, R Flow (body v) (body' v))
    (items : List Value) : R Flow (forLoop h body items) (forLoop { h with services } body' items) := by
  induction items with
  | nil => exact hR.pure _
  | cons item rest ih =>
    rw [forLoop_cons, forLoop_cons]
    exact hR.bind (hR.act (Action.tame_checkBudget h)) fun _ =>
      hR.bind (hbody item) (related_afterRound hR ih)

section
variable {call call' : Caller}

/-! ### Expressions -/

mutual

theorem related_expr (hR : Related R) (hcall : ∀ f vs, R Value (call f vs) (call' f vs)) : ∀ e : Expr,
    R Value (expr h call e) (expr { h with services } call' e)
  | .literal _ => hR.pure _
  | .identifier i => hR.act (Action.tame_lookup i.name)
  | .binary op l r => by
    have hr := related_expr hR hcall r
    refine hR.bind (related_expr hR hcall l) fun a => ?_
    cases op with
    | and => exact related_ite _ hr (hR.pure _)
    | or => exact related_ite _ (hR.pure _) hr
    | _ => exact hR.bind hr fun b => hR.act (Action.tame_orFault _)
  | .unary _ e => hR.bind (related_expr hR hcall e) fun _ => hR.act (Action.tame_orFault _)
  | .assign _ value =>
    hR.bind (related_expr hR hcall value) fun v => hR.bind (hR.assign _ v) fun _ => hR.pure v
  | .call _ callee arguments =>
    hR.bind (related_expr hR hcall callee) fun f =>
      hR.bind (related_exprs hR hcall arguments #[]) fun _ => hcall f _
  | .array elements => by
    have helements := related_exprs hR hcall elements #[]
    rw [expr, expr]
    by_cases hlong : h.limits.maxArrayLength < elements.length
    · rw [if_pos hlong, if_pos hlong]
      exact hR.longLiteral _
    · rw [if_neg hlong, if_neg hlong]
      exact hR.bind helements fun _ => hR.pure _
  | .map es => hR.bind (related_entries hR hcall es []) fun _ => hR.pure _
  | .index object key =>
    hR.bind (related_expr hR hcall object) fun _ =>
      hR.bind (related_expr hR hcall key) fun _ => hR.act (Action.tame_orFault _)
termination_by structural e => e

theorem related_exprs (hR : Related R) (hcall : ∀ f vs, R Value (call f vs) (call' f vs)) :
    ∀ (es : List Expr) (before : Array Value),
      R (Array Value) (exprs h call before es) (exprs { h with services } call' before es)
  | [], before => hR.pure before
  | e :: es, before =>
    hR.bind (related_expr hR hcall e) fun v => related_exprs hR hcall es (before.push v)
termination_by structural es => es

theorem related_entries (hR : Related R) (hcall : ∀ f vs, R Value (call f vs) (call' f vs)) :
    ∀ (es : List (String × Expr)) (before : List (String × Value)),
      R (List (String × Value)) (entries h call before es) (entries { h with services } call' before es)
  | [], before => hR.pure before
  | (key, e) :: es, before =>
    hR.bind (related_expr hR hcall e) fun v => related_entries hR hcall es (Keyed.insert key v before)
termination_by structural es => es

end

/-! ### Statements -/

variable {fuel : Nat}

mutual

theorem related_stmt (hR : Related R) (hcall : ∀ f vs, R Value (call f vs) (call' f vs))
    (hloop : ∀ {test test' body body'}, R Value test test' → R Flow body body' →
      R Flow (whileLoop h test body fuel) (whileLoop { h with services } test' body' fuel)) :
    ∀ s : Stmt, R Flow (stmt h call fuel s) (stmt { h with services } call' fuel s)
  | .expr _ e => hR.bind (related_expr hR hcall e) fun _ => hR.pure _
  | .bind _ name value =>
    hR.bind (related_expr hR hcall value) fun v => hR.bind (hR.define name v) fun _ => hR.pure _
  | .function ⟨_, name, _, _, _⟩ =>
    hR.bind (hR.act (Action.tame_makeFunction _ _ _)) fun f =>
      hR.bind (hR.define name f) fun _ => hR.pure _
  | .cond _ test yes no => by
    have hyes := related_block hR hcall hloop yes
    have hno := related_otherwise hR hcall hloop no
    exact hR.bind (related_expr hR hcall test) fun _ => related_ite _ hyes hno
  | .whileLoop _ test body => hloop (related_expr hR hcall test) (related_block hR hcall hloop body)
  | .forEach _ name iterable body => by
    have hbody := related_block hR hcall hloop body
    exact hR.bind (related_expr hR hcall iterable) fun v => hR.bind (hR.act (Action.tame_orFault _)) fun items =>
      related_forLoop hR (fun item => hR.bind (hR.define name item) fun _ => hbody) items.toList
  | .block _ body => related_block hR hcall hloop body
  | .personality .. => hR.pure _
  | .giveBack _ none => hR.pure _
  | .giveBack _ (some e) => hR.bind (related_expr hR hcall e) fun _ => hR.pure _
  | .leave _ => hR.pure _
  | .again _ => hR.pure _
termination_by structural s => s

theorem related_block (hR : Related R) (hcall : ∀ f vs, R Value (call f vs) (call' f vs))
    (hloop : ∀ {test test' body body'}, R Value test test' → R Flow body body' →
      R Flow (whileLoop h test body fuel) (whileLoop { h with services } test' body' fuel)) :
    ∀ ss : List Stmt, R Flow (block h call fuel ss) (block { h with services } call' fuel ss)
  | [] => hR.pure _
  | s :: rest => by
    have hrest := related_block hR hcall hloop rest
    refine hR.bind (related_stmt hR hcall hloop s) fun flow => ?_
    cases flow with
    | next => exact hrest
    | _ => exact hR.pure _
termination_by structural ss => ss

theorem related_otherwise (hR : Related R) (hcall : ∀ f vs, R Value (call f vs) (call' f vs))
    (hloop : ∀ {test test' body body'}, R Value test test' → R Flow body body' →
      R Flow (whileLoop h test body fuel) (whileLoop { h with services } test' body' fuel)) :
    ∀ no : Option Stmt, R Flow (otherwise h call fuel no) (otherwise { h with services } call' fuel no)
  | none => hR.pure _
  | some s => related_stmt hR hcall hloop s
termination_by structural no => no

end

end

/-! ### Programs -/

theorem related_topLevel (hR : Related R) {run run' : Stmt → Eval Flow} (hrun : ∀ s, R Flow (run s) (run' s))
    (ss : List Stmt) : R Unit (topLevel run ss) (topLevel run' ss) := by
  induction ss with
  | nil => exact hR.pure _
  | cons s rest ih =>
    refine hR.bind (hrun s) fun flow => ?_
    cases flow with
    | giveBack v => exact hR.pure _
    | _ => exact ih

theorem related_applyBlocks (hR : Related R) (blocks : List (List TraitEntry)) :
    R Unit (applyBlocks blocks) (applyBlocks blocks) := by
  induction blocks with
  | nil => exact hR.pure _
  | cons block rest ih => exact hR.bind (hR.act (Action.tame_applyPersonality _)) fun _ => ih

/-! ### One evaluation -/

section
variable {P : ∀ α : Type, Eval α → Prop} {call : Caller} {fuel : Nat}

theorem closed_ite (b : Bool) {x y : Eval α} (hx : P α x) (hy : P α y) : P α (if b then x else y) :=
  @related_ite (fun α x _ => P α x) α b x x y y hx hy

theorem closed_afterRound (hP : Closed P) {more : Eval Flow} (hmore : P Flow more) (flow : Flow) :
    P Flow (afterRound more flow) := @related_afterRound (fun α x _ => P α x) hP.related more more hmore flow

theorem closed_forLoop (hP : Closed P) {body : Value → Eval Flow} (hbody : ∀ v, P Flow (body v))
    (items : List Value) : P Flow (forLoop h body items) :=
  @related_forLoop h h.services (fun α x _ => P α x) hP.related body body hbody items

variable (hP : Closed P) (hcall : ∀ f vs, P Value (call f vs))
  (hloop : ∀ {test body}, P Value test → P Flow body → P Flow (whileLoop h test body fuel))

include hP hcall

theorem closed_expr (e : Expr) : P Value (expr h call e) :=
  @related_expr h h.services (fun α x _ => P α x) call call hP.related hcall e

theorem closed_exprs (es : List Expr) (before : Array Value) : P (Array Value) (exprs h call before es) :=
  @related_exprs h h.services (fun α x _ => P α x) call call hP.related hcall es before

include hloop

theorem closed_stmt (s : Stmt) : P Flow (stmt h call fuel s) :=
  @related_stmt h h.services (fun α x _ => P α x) call call fuel hP.related hcall hloop s

theorem closed_block (ss : List Stmt) : P Flow (block h call fuel ss) :=
  @related_block h h.services (fun α x _ => P α x) call call fuel hP.related hcall hloop ss

end

section
variable {P : ∀ α : Type, Eval α → Prop}

theorem closed_topLevel (hP : Closed P) {run : Stmt → Eval Flow} (hrun : ∀ s, P Flow (run s))
    (ss : List Stmt) : P Unit (topLevel run ss) :=
  @related_topLevel (fun α x _ => P α x) hP.related run run hrun ss

theorem closed_applyBlocks (hP : Closed P) (blocks : List (List TraitEntry)) :
    P Unit (applyBlocks blocks) := related_applyBlocks hP.related blocks

end

end Evaluation

end Persona
