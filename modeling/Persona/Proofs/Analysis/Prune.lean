import Persona.Analysis
import Persona.Proofs.Evaluation.Bodies

/-! Programs without unreachable statements.

What stands behind a `return`, a `break` or a `continue` in its list never runs. To say so, all of it is
left out at once, in the whole program and in the bodies of its functions: only personality blocks stay,
for those of a program take effect before it runs, wherever they stand. A run does not see the
difference, but for the bodies of the functions in its values. -/
namespace Persona

open Persona.Action (Natural natural_pure natural_modify natural_orFault)
open Analysis (terminator?)

namespace Stmt

def isPersonality : Stmt → Bool
  | personality .. => true
  | _ => false

mutual

/-- The statement without what is unreachable inside. -/
def prune : Stmt → Stmt
  | .cond place test yes no => .cond place test (pruneList yes) (pruneElse no)
  | .whileLoop place test body => .whileLoop place test (pruneList body)
  | .forEach place name iterable body => .forEach place name iterable (pruneList body)
  | .block place body => .block place (pruneList body)
  | .function ⟨place, name, params, returnType, body⟩ => .function ⟨place, name, params, returnType, pruneList body⟩
  | s => s
termination_by structural s => s

def pruneList : List Stmt → List Stmt
  | [] => []
  | s :: rest => prune s :: if (terminator? s).isSome then rest.filter isPersonality else pruneList rest
termination_by structural ss => ss

def pruneElse : Option Stmt → Option Stmt
  | none => none
  | some s => some (prune s)
termination_by structural no => no

end

variable {s : Stmt} {ss rest : List Stmt}

theorem prune_of_terminator {keyword : String} (hs : terminator? s = some keyword) : prune s = s := by
  cases s with
  | giveBack | leave | again => rfl
  | _ => cases hs

theorem pruneList_of_terminator {keyword : String} (hs : terminator? s = some keyword) :
    pruneList (s :: rest) = s :: rest.filter isPersonality := by
  rw [pruneList, hs, prune_of_terminator hs]
  rfl

theorem pruneList_of_none (hs : terminator? s = none) : pruneList (s :: rest) = prune s :: pruneList rest := by
  rw [pruneList, hs]
  rfl

end Stmt

namespace Evaluation

/-- The body of a function without what is unreachable in it. -/
def pruned (g : Function) : FunctionBody := g.body.mapScript Stmt.pruneList

variable {h : Host} {call call' : Caller} {fuel : Nat} {s : Stmt} {rest : List Stmt}

/-- Behind a `return` only what happens to the value that it gives back matters. -/
theorem bind_giveBack {place : Coordinate} {e : Option Expr} {k k' : Flow → Eval α}
    (hk : ∀ v, k (.giveBack v) = k' (.giveBack v)) :
    stmt h call fuel (.giveBack place e) >>= k = stmt h call fuel (.giveBack place e) >>= k' := by
  cases e with
  | none => exact hk .null
  | some e =>
    rw [stmt, bind_assoc, bind_assoc]
    exact congrArg (expr h call e >>= ·) (funext hk)

/-- What is behind the end of a block does not matter to it. -/
theorem block_of_terminator {keyword : String} (hs : terminator? s = some keyword) (rest : List Stmt) :
    block h call fuel (s :: rest) = block h call fuel [s] := by
  cases s with
  | giveBack place e => exact bind_giveBack fun _ => rfl
  | leave | again => rfl
  | _ => cases hs

mutual

theorem natural_stmt (hcall : Agree pruned call call') : ∀ s : Stmt,
    Natural pruned (Flow.mapBodies pruned) (stmt h call fuel s) (stmt h call' fuel s.prune)
  | .expr _ e => (natural_expr hcall e).bind fun _ => natural_pure _
  | .bind _ name value =>
    (natural_expr hcall value).bind fun v =>
      (natural_modify fun s => s.define_mapBodies name v).bind fun _ => natural_pure _
  | .function ⟨_, name, params, _, body⟩ => by
    have hmakes : Natural pruned (Value.mapBodies pruned) (Action.makeFunction name (params.map (·.name)) (.script body))
        (Action.makeFunction name (params.map (·.name)) (.script (Stmt.pruneList body))) := fun _ => rfl
    exact (natural_act hmakes).bind fun v =>
      (natural_modify fun s => s.define_mapBodies name v).bind fun _ => natural_pure _
  | .cond _ test yes no => by
    have hyes := natural_block hcall yes
    have hno := natural_otherwise hcall no
    exact (natural_expr hcall test).bind fun v => natural_ite v hyes hno
  | .whileLoop _ test body => natural_whileLoop (natural_expr hcall test) (natural_block hcall body) fuel
  | .forEach _ name iterable body => by
    have hbody := natural_block hcall body
    refine (natural_expr hcall iterable).bind fun v =>
      (natural_act (natural_orFault (Value.items_mapBodies v))).bind fun items => ?_
    rw [Array.toList_map]
    refine natural_forLoop (fun item => ?_) items.toList
    exact (natural_modify fun s => s.define_mapBodies name item).bind fun _ => hbody
  | .block _ body => natural_block hcall body
  | .personality .. => natural_pure Flow.next
  | .giveBack _ none => natural_pure (Flow.giveBack .null)
  | .giveBack _ (some e) => (natural_expr hcall e).bind fun v => natural_pure (Flow.giveBack v)
  | .leave _ => natural_pure Flow.leave
  | .again _ => natural_pure Flow.again
termination_by structural s => s

/-- A block runs without its unreachable statements as it does with them. -/
theorem natural_block (hcall : Agree pruned call call') : ∀ ss : List Stmt,
    Natural pruned (Flow.mapBodies pruned) (block h call fuel ss) (block h call' fuel (Stmt.pruneList ss))
  | [] => natural_pure Flow.next
  | s :: rest => by
    have hs := natural_stmt hcall s
    have hrest := natural_block hcall rest
    have hcons : ∀ {more more' : Eval Flow}, Natural pruned (Flow.mapBodies pruned) more more' →
        Natural pruned (Flow.mapBodies pruned)
          (do match ← stmt h call fuel s with | .next => more | flow => return flow)
          (do match ← stmt h call' fuel s.prune with | .next => more' | flow => return flow) := by
      refine fun hmore => hs.bind fun flow => ?_
      cases flow with
      | next => exact hmore
      | leave | again => exact natural_pure _
      | giveBack v => exact natural_pure (Flow.giveBack v)
    cases hend : terminator? s with
    | none =>
      rw [Stmt.pruneList_of_none hend]
      exact hcons hrest
    | some keyword =>
      have hlast := hcons (natural_pure Flow.next)
      rw [Stmt.prune_of_terminator hend] at hlast
      rw [Stmt.pruneList_of_terminator hend, block_of_terminator hend rest,
        block_of_terminator hend (rest.filter Stmt.isPersonality)]
      exact hlast
termination_by structural ss => ss

theorem natural_otherwise (hcall : Agree pruned call call') : ∀ no : Option Stmt,
    Natural pruned (Flow.mapBodies pruned) (otherwise h call fuel no) (otherwise h call' fuel (Stmt.pruneElse no))
  | none => natural_pure Flow.next
  | some s => natural_stmt hcall s
termination_by structural no => no

end

end Evaluation

namespace Program

open Evaluation

/-- The program without its unreachable statements. -/
def prune (p : Program) : Program := ⟨Stmt.pruneList p.statements⟩

end Program

end Persona
