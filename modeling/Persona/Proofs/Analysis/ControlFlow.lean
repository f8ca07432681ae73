import Persona.Proofs.Analysis.Reported
import Persona.Proofs.Analysis.Scopes
import Persona.Proofs.Evaluation.Call
import Persona.Proofs.Evaluation.Flow

/-! What the flow of control can be.

A `break` comes out of a statement only if one stands in it outside of the loops inside, and a value is given
back only if a `return` with a value stands in it outside of the functions inside. So a loop on `true` in which
the analysis finds no `break` does not come to an end unless its function gives back control, and a function in
which it finds no `return` with a value gives back nothing. -/
namespace Persona

open Analysis (breaks breaksList breaksElse returnsValue isInfiniteLoop)

/-- A `return` with a value is among the statements. -/
def Stmt.GivesValue (ss : List Stmt) : Prop := ∃ place e, giveBack place (some e) ∈ ss

theorem Stmt.GivesValue.mono {ss ss' : List Stmt} (h : GivesValue ss) (hss : ss ⊆ ss') : GivesValue ss' := by
  obtain ⟨place, e, he⟩ := h
  exact ⟨place, e, hss he⟩

theorem Stmt.givesValue_of_returnsValue {body : List Stmt} (h : returnsValue body = false) :
    ¬ GivesValue (ownList body) := by
  rintro ⟨place, e, he⟩
  have hnone := List.any_eq_false.1 h _ he
  exact hnone rfl

/-- Control is handed on by `break` or with a value only where this is possible. -/
structure Flow.Within (breaks gives : Prop) (flow : Flow) : Prop where
  leave : flow = .leave → breaks
  value : ∀ v, flow = .giveBack v → v ≠ .null → gives

namespace Flow.Within

variable {breaks breaks' gives gives' : Prop} {flow : Flow}

theorem mono (h : flow.Within breaks gives) (hbreaks : breaks → breaks') (hgives : gives → gives') :
    flow.Within breaks' gives' := ⟨fun heq => hbreaks (h.leave heq), fun v heq hv => hgives (h.value v heq hv)⟩

theorem next : Within breaks gives .next := ⟨nofun, nofun⟩

theorem again : Within breaks gives .again := ⟨nofun, nofun⟩

theorem null : Within breaks gives (.giveBack .null) := by
  refine ⟨nofun, fun v heq hv => ?_⟩
  cases heq
  exact absurd rfl hv

end Flow.Within

/-- It hands on control of one kind or the other. -/
theorem Eval.Hands.ite {P : Flow → Prop} (b : Bool) {x y : Eval Flow} (hx : Hands P x) (hy : Hands P y) :
    Hands P (if b then x else y) := by
  cases b with
  | true => exact hx
  | false => exact hy

open Eval (Hands)

namespace Evaluation

variable {h : Host} {call : Caller} {fuel : Nat} {breaks gives : Prop}

/-! ### Loops -/

/-- A loop takes up the `break` that its body hands on. -/
theorem hands_afterRound {more : Eval Flow} (hmore : Hands (Flow.Within False gives) more) {flow : Flow}
    (hflow : flow.Within breaks gives) : Hands (Flow.Within False gives) (afterRound more flow) := by
  cases flow with
  | next => exact hmore
  | again => exact hmore
  | leave => exact .pure .next
  | giveBack v => exact .pure ⟨nofun, hflow.value⟩

theorem hands_whileLoop (test : Eval Value) {body : Eval Flow} (hbody : Hands (Flow.Within breaks gives) body)
    (rounds : Nat) : Hands (Flow.Within False gives) (whileLoop h test body rounds) := by
  induction rounds with
  | zero => exact .throw _
  | succ rounds ih =>
    rw [whileLoop_succ]
    refine .after fun _ => .after fun v => .ite _ ?_ (.pure .next)
    exact hbody.bind fun flow hflow => hands_afterRound ih hflow

theorem hands_forLoop {body : Value → Eval Flow} (hbody : ∀ v, Hands (Flow.Within breaks gives) (body v))
    (items : List Value) : Hands (Flow.Within False gives) (forLoop h body items) := by
  induction items with
  | nil => exact .pure .next
  | cons item rest ih =>
    rw [forLoop_cons]
    exact .after fun _ => (hbody item).bind fun flow hflow => hands_afterRound ih hflow

/-- A loop on `true` whose body hands on no `break` ends only where control is given back. -/
theorem hands_whileLoop_true {body : Eval Flow} (hbody : Hands (Flow.Within False gives) body) (rounds : Nat) :
    Hands (fun flow => ∃ v, flow = .giveBack v) (whileLoop h (pure (.bool true)) body rounds) := by
  induction rounds with
  | zero => exact .throw _
  | succ rounds ih =>
    rw [whileLoop_succ]
    refine .after fun _ => hbody.bind fun flow hflow => ?_
    cases flow with
    | next => exact ih
    | again => exact ih
    | leave => exact (hflow.leave rfl).elim
    | giveBack v => exact .pure ⟨v, rfl⟩

/-! ### Statements -/

mutual

theorem hands_stmt : ∀ s : Stmt,
    Hands (Flow.Within (Analysis.breaks s = true) (Stmt.GivesValue s.own)) (stmt h call fuel s)
  | .expr _ _ => .after fun _ => .pure .next
  | .bind _ _ _ => .after fun _ => .after fun _ => .pure .next
  | .function ⟨_, _, _, _, _⟩ => .after fun _ => .after fun _ => .pure .next
  | .cond place test yes no => by
    have hyes : Hands (Flow.Within (Analysis.breaks (.cond place test yes no) = true)
        (Stmt.GivesValue (Stmt.own (.cond place test yes no)))) (block h call fuel yes) := by
      refine (hands_block yes).imp fun _ hflow => hflow.mono (fun hbreaks => ?_) fun hgives => hgives.mono ?_
      · rw [Analysis.breaks, hbreaks, Bool.true_or]
      · exact List.Subset.trans (List.subset_append_left ..) (List.subset_cons_self ..)
    have hno : Hands (Flow.Within (Analysis.breaks (.cond place test yes no) = true)
        (Stmt.GivesValue (Stmt.own (.cond place test yes no)))) (otherwise h call fuel no) := by
      refine (hands_otherwise no).imp fun _ hflow => hflow.mono (fun hbreaks => ?_) fun hgives => hgives.mono ?_
      · rw [Analysis.breaks, hbreaks, Bool.or_true]
      · exact List.Subset.trans (List.subset_append_right ..) (List.subset_cons_self ..)
    exact .after fun v => .ite _ hyes hno
  | .whileLoop _ _ body =>
    (hands_whileLoop _ (hands_block body) fuel).imp fun _ hflow =>
      hflow.mono False.elim fun hgives => hgives.mono (List.subset_cons_self ..)
  | .forEach place name iterable body => by
    have hround : Hands (Flow.Within (breaksList body = true) (Stmt.GivesValue (Stmt.ownList body)))
        (block h call fuel body) := hands_block body
    have hloop : Hands (Flow.Within False (Stmt.GivesValue (Stmt.ownList body)))
        (stmt h call fuel (.forEach place name iterable body)) :=
      .after fun _ => .after fun items => hands_forLoop (fun _ => .after fun _ => hround) _
    exact hloop.imp fun _ hflow => hflow.mono False.elim fun hgives => hgives.mono (List.subset_cons_self ..)
  | .block _ body =>
    (hands_block body).imp fun _ hflow => hflow.mono id fun hgives => hgives.mono (List.subset_cons_self ..)
  | .personality .. => .pure .next
  | .giveBack _ none => .pure .null
  | .giveBack place (some e) => .after fun v => .pure ⟨nofun, fun _ _ _ => ⟨place, e, List.mem_singleton_self _⟩⟩
  | .leave _ => .pure ⟨fun _ => rfl, nofun⟩
  | .again _ => .pure .again
termination_by structural s => s

theorem hands_block : ∀ ss : List Stmt,
    Hands (Flow.Within (breaksList ss = true) (Stmt.GivesValue (Stmt.ownList ss))) (block h call fuel ss)
  | [] => .pure .next
  | s :: rest => by
    have hfirst (flow : Flow) (hflow : flow.Within (Analysis.breaks s = true) (Stmt.GivesValue s.own)) :
        flow.Within (breaksList (s :: rest) = true) (Stmt.GivesValue (Stmt.ownList (s :: rest))) := by
      refine hflow.mono (fun hbreaks => ?_) fun hgives => hgives.mono (List.subset_append_left ..)
      rw [breaksList, hbreaks, Bool.true_or]
    have hrest : Hands (Flow.Within (breaksList (s :: rest) = true) (Stmt.GivesValue (Stmt.ownList (s :: rest))))
        (block h call fuel rest) := by
      refine (hands_block rest).imp fun _ hflow =>
        hflow.mono (fun hbreaks => ?_) fun hgives => hgives.mono (List.subset_append_right ..)
      rw [breaksList, hbreaks, Bool.or_true]
    refine (hands_stmt s).bind fun flow hflow => ?_
    cases flow with
    | next => exact hrest
    | _ => exact .pure (hfirst _ hflow)
termination_by structural ss => ss

theorem hands_otherwise : ∀ no : Option Stmt,
    Hands (Flow.Within (breaksElse no = true) (Stmt.GivesValue (Stmt.ownElse no))) (otherwise h call fuel no)
  | none => .pure .next
  | some s => hands_stmt s
termination_by structural no => no

end

/-- A loop that the analysis takes for an endless one ends only where control is given back. -/
theorem hands_infiniteLoop {s : Stmt} (hs : isInfiniteLoop s = true) :
    Hands (fun flow => ∃ v, flow = .giveBack v) (stmt h call fuel s) := by
  unfold isInfiniteLoop at hs
  split at hs
  · next place body =>
    have hbreaks : ¬ breaksList body = true := by simpa using hs
    have hbody : Hands (Flow.Within False (Stmt.GivesValue (Stmt.ownList body))) (block h call fuel body) :=
      (hands_block body).imp fun _ hflow => hflow.mono hbreaks id
    exact hands_whileLoop_true hbody fuel
  · cases hs

/-! ### Calls -/

/-- A call gives back null if its body does so or gives back nothing. -/
theorem applyWith_null {runBody : List Stmt → Eval Flow} {f : Function} {body : List Stmt}
    (hcode : f.body = .script body) (hbody : Hands (fun flow => given flow = .null) (runBody body))
    {vs : List Value} {s t : Session} {v : Value} (hcall : applyWith h runBody (.function f) vs s = (.ok v, t)) :
    v = .null := by
  rcases applyWith_function h f vs.length s.clock s.depth with ⟨e, clock, hrefused⟩ | ⟨body', clock, hcode', -, hbegins⟩
  · cases (hrefused runBody vs s rfl rfl rfl).symm.trans hcall
  · obtain rfl : body' = body := FunctionBody.script.inj (hcode'.symm.trans hcode)
    rw [hbegins runBody vs s rfl rfl rfl] at hcall
    cases hrun : runBody body' (entered f vs clock s) with
    | mk r u =>
      cases r with
      | error e =>
        rw [inFrame_error hrun] at hcall
        cases hcall
      | ok flow =>
        rw [inFrame_ok hrun] at hcall
        cases hcall
        exact hbody.result hrun

theorem given_null {flow : Flow} (h : flow.Within breaks gives) (hgives : ¬ gives) : given flow = .null := by
  cases flow with
  | giveBack v =>
    by_contra hv
    exact hgives (h.value v rfl hv)
  | _ => rfl

/-- A function without a `return` that has a value gives back null. -/
theorem call_null {f : Function} {body : List Stmt} (hcode : f.body = .script body) (hbody : returnsValue body = false)
    {vs : List Value} {s t : Session} {v : Value} (hcall : Evaluation.call h fuel (.function f) vs s = (.ok v, t)) :
    v = .null := by
  cases fuel with
  | zero => exact applyWith_null hcode (.throw _) hcall
  | succ fuel =>
    refine applyWith_null hcode ?_ hcall
    exact (hands_block body).imp fun _ hflow => given_null hflow (Stmt.givesValue_of_returnsValue hbody)

end Evaluation

namespace Program

variable {source : String} {limit : Nat} {ts : List Token} {p : Program}

/-- A loop that is reported as endless, if it ends without a fault, ends by giving back control: it neither goes on
behind itself nor hands on `break` or `continue`. A call of a function that is reported to miss a value gives back
null if it gives back anything. -/
theorem flow_of_parse (htokens : tokenize source = .ok ts) (hparse : parse limit ts = .ok p) (h : Host) :
    (∀ st ∈ Stmt.deepList p.statements, ⟨.infiniteLoop, st.place⟩ ∈ (analyze p).diagnostics →
      ∀ (call : Caller) (fuel : Nat) (s t : Session) (flow : Flow),
        Evaluation.stmt h call fuel st s = (.ok flow, t) → ∃ v, flow = .giveBack v) ∧
    ∀ d ∈ Stmt.functions p.statements, ∀ type,
      ⟨.missingReturnValue d.name type, d.place⟩ ∈ (analyze p).diagnostics → ∀ f, d.Makes f →
      ∀ (fuel : Nat) (vs : List Value) (s t : Session) (v : Value),
        Evaluation.call h fuel (.function f) vs s = (.ok v, t) → v = .null := by
  constructor
  · intro st hst hreport call fuel s t flow hrun
    exact (Evaluation.hands_infiniteLoop (Analysis.isInfiniteLoop_of_parse htokens hparse hst hreport)).result hrun
  · intro d hd type hreport f hf fuel vs s t v hcall
    have hfound := Analysis.found_of_parse htokens hparse hd hreport rfl nofun
    cases hfound with
    | noValue _ _ hvalue => exact Evaluation.call_null hf.body hvalue hcall

/-- An endless loop that a `return` without a value ends. -/
def endlessLoop : Stmt := .whileLoop ⟨1, 20⟩ (.literal (.bool true)) [.giveBack ⟨1, 33⟩ none]

def endlessBody : FunctionDecl := ⟨⟨1, 1⟩, "f", [], some "number", [endlessLoop]⟩

theorem flow_of_parse_endlessLoop : ∃ ts, tokenize "fn f() -> number \x7b while true \x7b return \x7d \x7d" = .ok ts ∧
    parse 5 ts = .ok ⟨[.function endlessBody]⟩ ∧
    (⟨.infiniteLoop, ⟨1, 20⟩⟩ : Diagnostic) ∈ (analyze ⟨[.function endlessBody]⟩).diagnostics ∧
    (⟨.missingReturnValue "f" "number", ⟨1, 1⟩⟩ : Diagnostic) ∈ (analyze ⟨[.function endlessBody]⟩).diagnostics ∧
    (∃ flow t, Evaluation.stmt {} (Evaluation.call {} 1) 1 endlessLoop (.start {} .default none) = (.ok flow, t) ∧
      ∃ v, flow = .giveBack v) ∧
    ∃ v t, Evaluation.call {} 2 (.function ⟨⟨0, "f"⟩, [], .script [endlessLoop]⟩) [] (.start {} .default none) =
      (.ok v, t) ∧ v = .null := by
  obtain ⟨ts, htokens, hparse⟩ : ∃ ts, tokenize "fn f() -> number \x7b while true \x7b return \x7d \x7d" = .ok ts ∧
      parse 5 ts = .ok ⟨[.function endlessBody]⟩ := ⟨_, by cbv, by cbv⟩
  have hloop : (⟨.infiniteLoop, ⟨1, 20⟩⟩ : Diagnostic) ∈ (analyze ⟨[.function endlessBody]⟩).diagnostics := by
    decide +kernel
  have hvalue : (⟨.missingReturnValue "f" "number", ⟨1, 1⟩⟩ : Diagnostic) ∈
      (analyze ⟨[.function endlessBody]⟩).diagnostics := by
    decide +kernel
  obtain ⟨hends, hgives⟩ := flow_of_parse htokens hparse {}
  refine ⟨ts, htokens, hparse, hloop, hvalue, ⟨.giveBack .null, _, rfl, ?_⟩, .null, _, rfl, ?_⟩
  · exact hends endlessLoop (by simp [Stmt.deepList, Stmt.deep, endlessBody, endlessLoop]) hloop (Evaluation.call {} 1) 1
      (.start {} .default none) _ _ rfl
  · exact hgives endlessBody (Stmt.mem_functions.2 (List.mem_cons_self ..)) "number" hvalue
      ⟨⟨0, "f"⟩, [], .script [endlessLoop]⟩ ⟨rfl, rfl, rfl⟩ 2 [] (.start {} .default none) _ _ rfl

end Program

end Persona
