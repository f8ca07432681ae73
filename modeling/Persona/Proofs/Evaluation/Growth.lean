import Persona.Proofs.Evaluation.Closed

/-! What has been printed and asked stays.

An evaluation only adds to the output and to the calls of services, also where it stops
with an error. -/
namespace Persona

open Effect (Keeps)

namespace Output

theorem fill_prefix (cs : List Char) (text : String) (room : Nat) :
    ∃ rest, fill text room cs = text ++ rest := by
  induction cs generalizing text room with
  | nil => exact ⟨"", (String.append_empty).symm⟩
  | cons c cs ih =>
    unfold fill
    split
    · obtain ⟨rest, hrest⟩ := ih (text.push c) (room - c.utf8Size)
      refine ⟨String.singleton c ++ rest, ?_⟩
      rw [hrest, ← String.append_assoc]
      rfl
    · exact ⟨"", (String.append_empty).symm⟩

theorem write_prefix (o : Output) (s : String) : ∃ rest, (o.write s).text = o.text ++ rest := by
  unfold write
  simp only
  split
  · exact ⟨"", (String.append_empty).symm⟩
  split
  · exact ⟨s, rfl⟩
  · exact fill_prefix s.toList o.text _

end Output

namespace Session

/-- The second session has printed and asked all that the first one has, in this order. -/
def Before (s t : Session) : Prop :=
  (∃ rest, t.output.text = s.output.text ++ rest) ∧ ∃ later, t.calls = later ++ s.calls

namespace Before

variable {s t u : Session}

theorem refl (s : Session) : s.Before s :=
  ⟨⟨"", (String.append_empty).symm⟩, [], rfl⟩

theorem of_eq (houtput : t.output = s.output) (hcalls : t.calls = s.calls) : s.Before t := by
  refine ⟨⟨"", ?_⟩, [], hcalls⟩
  rw [houtput, String.append_empty]

theorem trans (h : s.Before t) (h' : t.Before u) : s.Before u := by
  obtain ⟨⟨rest, hrest⟩, later, hlater⟩ := h
  obtain ⟨⟨rest', hrest'⟩, later', hlater'⟩ := h'
  refine ⟨⟨rest ++ rest', ?_⟩, later' ++ later, ?_⟩
  · rw [hrest', hrest, String.append_assoc]
  · rw [hlater', hlater, List.append_assoc]

theorem print (h : s.Before t) (text : String) : s.Before (t.print text) := by
  refine h.trans ⟨t.output.write_prefix text, [], rfl⟩

end Before

/-! ### Variables -/

theorem output_define (s : Session) (name : String) (v : Value) :
    (s.define name v).output = s.output ∧ (s.define name v).calls = s.calls := by
  unfold define
  split
  · exact ⟨rfl, rfl⟩
  · exact ⟨rfl, rfl⟩

theorem Before.define {s t : Session} (h : s.Before t) (name : String) (v : Value) :
    s.Before (t.define name v) :=
  h.trans (.of_eq (t.output_define name v).1 (t.output_define name v).2)

theorem Before.assign {s t : Session} (h : s.Before t) (name : String) (v : Value) :
    s.Before (t.assign name v) := by
  unfold Session.assign
  split
  · exact h.trans (.of_eq rfl rfl)
  · exact h.define name v

/-- What is before another session stays so, whatever is printed, asked or bound. -/
theorem Before.tame (s : Session) : Session.Tame s.Before where
  print _ text h := h.print text
  call _ call h := h.trans ⟨⟨"", (String.append_empty).symm⟩, [call], rfl⟩
  look _ _ h _ := h.trans (.of_eq rfl rfl)
  define _ name v h := h.define name v
  assign _ name v h := h.assign name v
  profile _ _ h := h.trans (.of_eq rfl rfl)
  made _ _ h := h.trans (.of_eq rfl rfl)

end Session

/-! ### Evaluations -/

/-- The evaluation only adds to what has been printed and asked. -/
def Eval.Grows (x : Eval α) : Prop := ∀ s : Session, s.Before (x s).2

namespace Eval.Grows

theorem pure (x : α) : Grows (pure x) := fun s => Session.Before.refl s

theorem throw (e : Stop) : Grows (throw e : Eval α) := fun s => Session.Before.refl s

theorem bind {x : Eval α} {k : α → Eval β} (hx : Grows x) (hk : ∀ a, Grows (k a)) : Grows (x >>= k) := by
  intro s
  have hs := hx s
  rw [Effect.bind_apply]
  cases h : x s with
  | mk r t =>
    rw [h] at hs
    cases r with
    | ok a => exact hs.trans (hk a t)
    | error e => exact hs

theorem modify {g : Session → Session} (h : ∀ s : Session, s.Before (g s)) :
    Grows (modify g : Eval PUnit) := h

theorem act {a : Action α} (h : ∀ s : Session, Keeps s.Before (fun _ => True) (fun _ => True) a) :
    Grows (Evaluation.act a) := by
  intro s
  have hs := (h s s (Session.Before.refl s)).1
  cases ha : a s with
  | mk r t =>
    rw [ha] at hs
    cases r with
    | ok x =>
      rw [Evaluation.act_ok ha]
      exact hs
    | error e =>
      rw [Evaluation.act_error ha]
      exact hs

theorem closed : Closed fun _ x => Grows x where
  pure := pure
  longLiteral size := throw (.longLiteral size)
  bind := bind
  define name v := modify fun s => (Session.Before.refl s).define name v
  assign name v := modify fun s => (Session.Before.refl s).assign name v
  act ha := act fun s => ha _ (Session.Before.tame s)

end Eval.Grows

namespace Evaluation

open Eval (Grows)

variable {h : Host}

theorem grows_orFault (x : Except Fault α) : Grows (act (Action.orFault x)) :=
  Grows.closed.act (Action.tame_orFault x)

theorem grows_push : Grows (act (Action.push h)) :=
  Grows.act fun s => (Action.plain_push (Session.Before.tame s).toInert
    (fun _ ht => ht.trans (.of_eq rfl rfl)) h).imp (fun _ _ => trivial) fun _ _ => trivial

theorem grows_ite {b : Bool} {x y : Eval α} (hx : Grows x) (hy : Grows y) :
    Grows (if b then x else y) := closed_ite b hx hy

theorem grows_afterRound {more : Eval Flow} (hmore : Grows more) (flow : Flow) :
    Grows (afterRound more flow) := closed_afterRound Grows.closed hmore flow

theorem grows_whileLoop {test : Eval Value} {body : Eval Flow} (htest : Grows test) (hbody : Grows body)
    (fuel : Nat) : Grows (whileLoop h test body fuel) := by
  induction fuel with
  | zero => exact Grows.throw _
  | succ fuel ih =>
    rw [whileLoop_succ]
    exact (Grows.closed.act (Action.tame_checkBudget h)).bind fun _ => htest.bind fun v =>
      grows_ite (hbody.bind (grows_afterRound ih)) (Grows.pure _)

theorem grows_forLoop {body : Value → Eval Flow} (hbody : ∀ v, Grows (body v)) (items : List Value) :
    Grows (forLoop h body items) := closed_forLoop Grows.closed hbody items

section
variable {call : Caller} (hcall : ∀ f vs, Grows (call f vs))

include hcall

theorem grows_expr (e : Expr) : Grows (expr h call e) := closed_expr Grows.closed hcall e

theorem grows_exprs (es : List Expr) (before : Array Value) : Grows (exprs h call before es) :=
  closed_exprs Grows.closed hcall es before

theorem grows_stmt (fuel : Nat) (s : Stmt) : Grows (stmt h call fuel s) :=
  closed_stmt Grows.closed hcall (fun htest hbody => grows_whileLoop htest hbody fuel) s

theorem grows_block (fuel : Nat) (ss : List Stmt) : Grows (block h call fuel ss) :=
  closed_block Grows.closed hcall (fun htest hbody => grows_whileLoop htest hbody fuel) ss

end

/-! ### Calls and programs -/

theorem grows_inFrame {body : Eval Flow} (hbody : Grows body) : Grows (inFrame body) := by
  intro s
  have hs := hbody s
  cases hb : body s with
  | mk r t =>
    rw [hb] at hs
    have hpop : s.Before t.pop := hs.trans (.of_eq rfl rfl)
    cases r with
    | error e =>
      rw [inFrame_error hb]
      exact hpop
    | ok flow =>
      rw [inFrame_ok hb]
      exact hpop

theorem grows_applyWith {runBody : List Stmt → Eval Flow} (hrun : ∀ body, Grows (runBody body))
    (f : Value) (vs : List Value) : Grows (applyWith h runBody f vs) := by
  cases f with
  | builtin b => exact Grows.closed.act (Action.tame_call h b vs)
  | function g =>
    unfold applyWith
    simp only
    split
    · exact Grows.throw _
    · split
      · exact Grows.throw _
      · refine grows_push.bind fun _ => ?_
        exact (Grows.modify fun s => (Session.Before.tame s).defineAll (Session.Before.refl s) _).bind fun _ =>
          grows_inFrame (hrun _)
  | _ => exact Grows.throw _

theorem grows_call (fuel : Nat) (f : Value) (vs : List Value) : Grows (call h fuel f vs) := by
  induction fuel generalizing f vs with
  | zero => exact grows_applyWith (fun _ => Grows.throw _) f vs
  | succ fuel ih => exact grows_applyWith (fun body => grows_block ih fuel body) f vs

theorem grows_topLevel {run : Stmt → Eval Flow} (hrun : ∀ s, Grows (run s)) (ss : List Stmt) :
    Grows (topLevel run ss) := closed_topLevel Grows.closed hrun ss

end Evaluation

end Persona
