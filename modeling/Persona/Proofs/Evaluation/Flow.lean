import Persona.Proofs.Evaluation.Budget
import Persona.Proofs.Syntax.Context

/-! How far `break` and `continue` carry.

A loop takes both of them up. So a statement that is allowed outside of loops hands on neither, and none of them
comes to the end of a function's body or to the statements of the program. -/
namespace Persona

open Effect (Keeps)

/-- However it is run, the control that it hands on is of a kind. -/
abbrev Eval.Hands (P : Flow → Prop) (x : Eval Flow) : Prop := Keeps (fun _ => True) (fun _ => True) P x

namespace Eval.Hands

variable {P Q : Flow → Prop}

theorem throw (e : Stop) : Hands P (throw e) := Keeps.throw trivial

theorem imp {x : Eval Flow} (hx : Hands P x) (h : ∀ flow, P flow → Q flow) : Hands Q x :=
  Keeps.imp hx (fun _ _ => trivial) h

/-- What comes before makes no difference. -/
theorem after {x : Eval α} {k : α → Eval Flow} (hk : ∀ a, Hands P (k a)) : Hands P (x >>= k) := by
  refine Keeps.bind (Q := fun _ => True) ?_ fun a _ => hk a
  exact fun _ _ => ⟨trivial, fun _ _ => trivial, fun _ _ => trivial⟩

theorem result {x : Eval Flow} (hx : Hands P x) {s t : Session} {flow : Flow} (hr : x s = (.ok flow, t)) : P flow :=
  (hx s trivial).2.1 flow (by rw [hr])

end Eval.Hands

/-- Control is not for a loop to take up. -/
def Flow.Settled (flow : Flow) : Prop := flow ≠ .leave ∧ flow ≠ .again

/-- However it is run, it hands on control that is settled. -/
abbrev Eval.Settles (x : Eval Flow) : Prop := Keeps (fun _ => True) (fun _ => True) Flow.Settled x

namespace Evaluation

open Eval (Settles)

variable {h : Host} {call : Caller} {fuel : Nat}

theorem settles_pure {flow : Flow} (hflow : flow.Settled) : Settles (pure flow) := Keeps.pure hflow

theorem settles_bind {x : Eval α} {k : α → Eval Flow} (hk : ∀ a, Settles (k a)) : Settles (x >>= k) :=
  Eval.Hands.after hk

theorem settles_afterRound {more : Eval Flow} (hmore : Settles more) (flow : Flow) :
    Settles (afterRound more flow) := by
  cases flow with
  | next => exact hmore
  | again => exact hmore
  | leave => exact settles_pure ⟨by simp, by simp⟩
  | giveBack v => exact settles_pure ⟨by simp, by simp⟩

/-- A loop takes up what its body hands on. -/
theorem settles_whileLoop (test : Eval Value) (body : Eval Flow) (left : Nat) :
    Settles (whileLoop h test body left) := by
  induction left with
  | zero => exact Keeps.throw trivial
  | succ left ih =>
    rw [whileLoop_succ]
    refine settles_bind fun _ => settles_bind fun v => ?_
    split
    · exact settles_bind fun flow => settles_afterRound ih flow
    · exact settles_pure ⟨by simp, by simp⟩

theorem settles_forLoop (body : Value → Eval Flow) (items : List Value) : Settles (forLoop h body items) := by
  induction items with
  | nil => exact settles_pure ⟨by simp, by simp⟩
  | cons item rest ih =>
    rw [forLoop_cons]
    exact settles_bind fun _ => settles_bind fun flow => settles_afterRound ih flow

mutual

/-- Outside of loops no statement hands on a `break` or a `continue`. -/
theorem settles_stmt {inBlock : Bool} : ∀ s : Stmt, s.Allowed inBlock false → Settles (stmt h call fuel s)
  | .expr _ _, _ => settles_bind fun _ => settles_pure ⟨by simp, by simp⟩
  | .bind _ _ _, _ => settles_bind fun _ => settles_bind fun _ => settles_pure ⟨by simp, by simp⟩
  | .function ⟨_, _, _, _, _⟩, _ => settles_bind fun _ => settles_bind fun _ => settles_pure ⟨by simp, by simp⟩
  | .cond _ _ yes no, hs => by
    have hyes := settles_block yes hs.1
    have hno := settles_otherwise no hs.2
    refine settles_bind fun v => ?_
    split
    · exact hyes
    · exact hno
  | .whileLoop _ _ _, _ => settles_whileLoop _ _ fuel
  | .forEach _ _ _ _, _ => settles_bind fun _ => settles_bind fun _ => settles_forLoop _ _
  | .block _ body, hs => settles_block body hs
  | .personality .., _ => settles_pure ⟨by simp, by simp⟩
  | .giveBack _ none, _ => settles_pure ⟨by simp, by simp⟩
  | .giveBack _ (some _), _ => settles_bind fun _ => settles_pure ⟨by simp, by simp⟩
  | .leave _, hs | .again _, hs => absurd hs (by simp [Stmt.Allowed])
termination_by structural s => s

theorem settles_block {inBlock : Bool} : ∀ ss : List Stmt, Stmt.AllowedList inBlock false ss →
    Settles (block h call fuel ss)
  | [], _ => settles_pure ⟨by simp, by simp⟩
  | s :: rest, hss => by
    have hrest := settles_block rest hss.2
    refine (settles_stmt s hss.1).bind fun flow hflow => ?_
    cases flow with
    | next => exact hrest
    | _ => exact settles_pure hflow
termination_by structural ss => ss

theorem settles_otherwise : ∀ no : Option Stmt, Stmt.AllowedElse false no → Settles (otherwise h call fuel no)
  | none, _ => settles_pure ⟨by simp, by simp⟩
  | some s, hs => settles_stmt s hs
termination_by structural no => no

end

theorem settled_of_settles {x : Eval Flow} (hx : Settles x) {s t : Session} {flow : Flow} (hr : x s = (.ok flow, t)) :
    flow.Settled :=
  Eval.Hands.result hx hr

end Evaluation

end Persona
