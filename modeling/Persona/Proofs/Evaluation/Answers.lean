import Persona.Proofs.Evaluation.Growth
import Persona.Proofs.Evaluation.Moment

/-! What a run learns from services.

A host within a log answers the calls of the log, each after the calls before it, and refuses all
others. A run that has made no other calls is the same with this host. So a statement about all
that a host may answer, if it holds with every host, holds of the answers that a run has got. -/
namespace Persona

/-- The answers to the calls of a log, of which the latest comes first. -/
def Services.within (services : Services) (log : List ServiceCall) : Services where
  search before topic filters :=
    if .search topic filters :: before <:+ log then services.search before topic filters else .error ""
  speak before text options :=
    if .speak text options :: before <:+ log then services.speak before text options else .error ""
  listen before options :=
    if .listen options :: before <:+ log then services.listen before options else .error ""

def Host.within (h : Host) (log : List ServiceCall) : Host := { h with services := h.services.within log }

/-- The second computation does all that the first one does, if that makes no other calls than those of the log. -/
def Repeats (log : List ServiceCall) (x y : ExceptT ε (StateM Session) α) : Prop :=
  ∀ s, s.Before (x s).2 ∧ ((x s).2.calls <:+ log → y s = x s)

theorem Session.Before.calls_suffix {s t : Session} (hst : s.Before t) : s.calls <:+ t.calls := by
  obtain ⟨later, hlater⟩ := hst.2
  exact ⟨later, hlater.symm⟩

theorem Action.IsTame.before {a : Action α} (ha : a.IsTame) (s : Session) : s.Before (a s).2 :=
  (ha _ (Session.Before.tame s) s (Session.Before.refl s)).1

namespace Repeats

variable {log : List ServiceCall} {x y : ExceptT ε (StateM Session) α} {s t : Session}

/-- What repeats another evaluation gives the results that it gives. -/
theorem eq (hxy : Repeats log x y) {r : Except ε α} (hx : x s = (r, t)) :
    s.Before t ∧ (t.calls <:+ log → y s = (r, t)) := by
  have hs := hxy s
  rwa [hx] at hs

theorem refl (hx : ∀ s : Session, s.Before (x s).2) : Repeats log x x := fun s => ⟨hx s, fun _ => rfl⟩

theorem pure (a : α) : Repeats log (pure a : ExceptT ε (StateM Session) α) (pure a) := refl Session.Before.refl

theorem throw (e : ε) : Repeats log (throw e : ExceptT ε (StateM Session) α) (throw e) := refl Session.Before.refl

theorem modify {g : Session → Session} (hg : ∀ s : Session, s.Before (g s)) :
    Repeats log (modify g : ExceptT ε (StateM Session) PUnit) (modify g) := refl hg

theorem bind {k l : α → ExceptT ε (StateM Session) β} (hxy : Repeats log x y) (hkl : ∀ a, Repeats log (k a) (l a)) :
    Repeats log (x >>= k) (y >>= l) := by
  intro s
  cases hx : x s with
  | mk r t =>
    obtain ⟨hst, hy⟩ := hxy.eq hx
    cases r with
    | error e =>
      rw [Effect.bind_error hx]
      exact ⟨hst, fun hlog => Effect.bind_error (hy hlog) l⟩
    | ok a =>
      obtain ⟨htu, hl⟩ := hkl a t
      rw [Effect.bind_ok hx]
      refine ⟨hst.trans htu, fun hlog => ?_⟩
      rw [Effect.bind_ok (hy (htu.calls_suffix.trans hlog))]
      exact hl hlog

theorem get {k l : Session → ExceptT ε (StateM Session) β} (hkl : ∀ s, Repeats log (k s) (l s)) :
    Repeats log (get >>= k) (get >>= l) := fun s => hkl s s

theorem of_tame {a : Action α} (ha : a.IsTame) : Repeats log a a := refl ha.before

theorem act {a b : Action α} (hab : Repeats log a b) : Repeats log (Evaluation.act a) (Evaluation.act b) := by
  intro s
  cases ha : a s with
  | mk r t =>
    obtain ⟨hst, hb⟩ := hab.eq ha
    cases r with
    | ok x =>
      rw [Evaluation.act_ok ha]
      exact ⟨hst, fun hlog => Evaluation.act_ok (hb hlog)⟩
    | error f =>
      rw [Evaluation.act_error ha]
      exact ⟨hst, fun hlog => Evaluation.act_error (hb hlog)⟩

/-- Evaluations of one program repeat each other where their calls do. -/
theorem related : Eval.Related fun _ x y => Repeats log x y where
  pure := pure
  longLiteral size := throw (Stop.longLiteral size)
  bind := bind
  define name v := modify fun s => (Session.Before.refl s).define name v
  assign name v := modify fun s => (Session.Before.refl s).assign name v
  act ha := (of_tame ha).act

end Repeats

/-! ### Services -/

section
variable {h : Host} {log : List ServiceCall}

namespace Action

/-- The end of a service call. -/
def receive (h : Host) : Except String α → Action α
  | .error message => throw (.service message)
  | .ok x => do
    checkBudget h
    return x

theorem calls_receive (h : Host) (r : Except String α) (s : Session) : (receive h r s).2.calls = s.calls := by
  cases r with
  | error message => rfl
  | ok x =>
    rw [receive, Effect.bind_apply, checkBudget_eq]
    cases s.clock.look? with
    | none => rfl
    | some clock => rfl

theorem service_eq (call : ServiceCall) (answer : List ServiceCall → Except String α) (s : Session) :
    service h call answer s = match s.clock.look? with
      | some clock => receive h (answer s.calls) { s with clock, calls := call :: s.calls }
      | none => (.error (.timeout h.limits.executionTimeoutMs), s) := by
  unfold service
  rw [Effect.bind_apply, checkBudget_eq]
  cases s.clock.look? with
  | none => rfl
  | some clock =>
    simp only
    rw [Effect.get_bind_apply, Effect.modify_bind_apply]
    cases answer s.calls with
    | error message => rfl
    | ok x => rfl

/-- A call in the log has the same answer. -/
theorem repeats_service (call : ServiceCall) {answer answer' : List ServiceCall → Except String α}
    (hanswer : ∀ before, call :: before <:+ log → answer' before = answer before) :
    Repeats log (service h call answer) (service h call answer') := by
  have htame : IsTame (service h call answer) := .of_plain fun _ hI => plain_service hI.toInert h call answer
  refine fun s => ⟨htame.before s, fun hlog => ?_⟩
  rw [service_eq] at hlog ⊢
  rw [service_eq]
  cases hlook : s.clock.look? with
  | none => rfl
  | some clock =>
    rw [hlook] at hlog
    simp only [calls_receive] at hlog
    simp only [hanswer _ hlog]

end Action

namespace Builtin

open Persona.Action (repeats_service)

theorem repeats_searchFor (topic : Value) (options : Option Value) :
    Repeats log (searchFor h topic options) (searchFor (h.within log) topic options) := by
  refine (Repeats.of_tame (Action.tame_orFault _)).bind fun topic => Repeats.get fun s => ?_
  refine (Repeats.of_tame (Action.tame_orFault _)).bind fun filters => ?_
  exact (repeats_service _ fun _ hlog => if_pos hlog).bind fun _ => Repeats.pure _

theorem repeats_speak (v : Value) (options : Option Value) :
    Repeats log (speak h v options) (speak (h.within log) v options) :=
  (Repeats.of_tame (Action.tame_orFault _)).bind fun _ =>
    (repeats_service _ fun _ hlog => if_pos hlog).bind fun _ => Repeats.pure _

theorem repeats_hear (options : Option Value) : Repeats log (hear h options) (hear (h.within log) options) := by
  refine (Repeats.of_tame (Action.tame_orFault _)).bind fun options => ?_
  refine Repeats.bind (Repeats.get fun s => Repeats.pure _) fun remaining => ?_
  refine (Repeats.of_tame (Action.tame_orFault _)).bind fun options => ?_
  exact (repeats_service _ fun _ hlog => if_pos hlog).bind fun _ => Repeats.pure _

/-- A built-in learns nothing but the answers to its calls. -/
theorem repeats_call (b : Builtin) (vs : List Value) : Repeats log (b.call h vs) (b.call (h.within log) vs) := by
  have htame : Repeats log (b.call h vs) (b.call h vs) := .of_tame (Action.tame_call h b vs)
  rcases vs with _ | ⟨u, _ | ⟨v, _ | ⟨w, vs⟩⟩⟩
  · cases b with
    | listen => exact repeats_hear none
    | _ => exact htame
  · cases b with
    | knowledge => exact repeats_searchFor u none
    | say => exact repeats_speak u none
    | listen => exact repeats_hear (some u)
    | _ => exact htame
  · cases b with
    | knowledge => exact repeats_searchFor u (some v)
    | say => exact repeats_speak u (some v)
    | _ => exact htame
  · cases b with
    | _ => exact htame

end Builtin

/-! ### Evaluations -/

namespace Evaluation

theorem repeats_whileLoop {test test' : Eval Value} {body body' : Eval Flow} (htest : Repeats log test test')
    (hbody : Repeats log body body') (fuel : Nat) :
    Repeats log (whileLoop h test body fuel) (whileLoop (h.within log) test' body' fuel) := by
  induction fuel with
  | zero => exact Repeats.throw _
  | succ fuel ih =>
    rw [whileLoop_succ, whileLoop_succ]
    have hround : ∀ flow, Repeats log (afterRound _ flow) (afterRound _ flow) := related_afterRound Repeats.related ih
    refine (Repeats.of_tame (Action.tame_checkBudget h)).act.bind fun _ => htest.bind fun v => ?_
    cases v.isTruthy with
    | true => exact hbody.bind hround
    | false => exact Repeats.pure _

theorem repeats_inFrame {body body' : Eval Flow} (hbody : Repeats log body body') :
    Repeats log (inFrame body) (inFrame body') := by
  intro s
  cases hx : body s with
  | mk r t =>
    obtain ⟨hst, hy⟩ := hbody.eq hx
    have hpop : s.Before t.pop := hst.trans (.of_eq rfl rfl)
    cases r with
    | error e =>
      rw [inFrame_error hx]
      exact ⟨hpop, fun hlog => inFrame_error (hy hlog)⟩
    | ok flow =>
      rw [inFrame_ok hx]
      exact ⟨hpop, fun hlog => inFrame_ok (hy hlog)⟩

theorem repeats_applyWith {run run' : List Stmt → Eval Flow} (hrun : ∀ body, Repeats log (run body) (run' body))
    (f : Value) (vs : List Value) : Repeats log (applyWith h run f vs) (applyWith (h.within log) run' f vs) := by
  cases f with
  | builtin b => exact (Builtin.repeats_call b vs).act
  | function f =>
    have hpush : Repeats log (act (Action.push h)) (act (Action.push h)) := Repeats.refl grows_push
    unfold applyWith
    simp only
    cases f.body with
    | compiled entry => exact Repeats.throw _
    | script body =>
      simp only
      by_cases harity : f.params.length ≠ vs.length
      · rw [if_pos harity, if_pos harity]
        exact Repeats.throw _
      · rw [if_neg harity, if_neg harity]
        refine hpush.bind fun _ => (Repeats.modify fun s => ?_).bind fun _ => repeats_inFrame (hrun body)
        exact (Session.Before.tame s).defineAll (Session.Before.refl s) _
  | _ => exact Repeats.throw _

section
variable {call call' : Caller} (hcall : ∀ f vs, Repeats log (call f vs) (call' f vs))

include hcall

theorem repeats_expr (e : Expr) : Repeats log (expr h call e) (expr (h.within log) call' e) :=
  related_expr Repeats.related hcall e

theorem repeats_exprs (es : List Expr) (before : Array Value) :
    Repeats log (exprs h call before es) (exprs (h.within log) call' before es) :=
  related_exprs Repeats.related hcall es before

theorem repeats_entries (es : List (String × Expr)) (before : List (String × Value)) :
    Repeats log (entries h call before es) (entries (h.within log) call' before es) :=
  related_entries Repeats.related hcall es before

theorem repeats_stmt (fuel : Nat) (s : Stmt) : Repeats log (stmt h call fuel s) (stmt (h.within log) call' fuel s) :=
  related_stmt Repeats.related hcall (fun htest hbody => repeats_whileLoop htest hbody fuel) s

theorem repeats_block (fuel : Nat) (ss : List Stmt) :
    Repeats log (block h call fuel ss) (block (h.within log) call' fuel ss) :=
  related_block Repeats.related hcall (fun htest hbody => repeats_whileLoop htest hbody fuel) ss

theorem repeats_otherwise (fuel : Nat) (no : Option Stmt) :
    Repeats log (otherwise h call fuel no) (otherwise (h.within log) call' fuel no) :=
  related_otherwise Repeats.related hcall (fun htest hbody => repeats_whileLoop htest hbody fuel) no

end

/-- A call of a function learns nothing but the answers to the calls in it. -/
theorem repeats_call (fuel : Nat) (f : Value) (vs : List Value) :
    Repeats log (call h fuel f vs) (call (h.within log) fuel f vs) := by
  induction fuel generalizing f vs with
  | zero => exact repeats_applyWith (fun _ => Repeats.throw _) f vs
  | succ fuel ih => exact repeats_applyWith (fun body => repeats_block ih fuel body) f vs

/-! ### Moments -/

section
variable {call call' : Caller} {fuel : Nat} {s t : Session} {task task' : Task}

/-- What is next in a task is the same with the answers that have been got by then. -/
theorem Part.within (hcall : ∀ f vs, Repeats log (call f vs) (call' f vs)) (hpart : Part h call fuel task s task' t) :
    s.Before t ∧ (t.calls <:+ log → Part (h.within log) call' fuel task s task' t) := by
  have hexpr := repeats_expr (h := h) hcall
  have hblock := repeats_block (h := h) hcall fuel
  have hstmt := repeats_stmt (h := h) hcall fuel
  have hbudget : Repeats log (act (Action.checkBudget h)) (act (Action.checkBudget h)) :=
    (Repeats.of_tame (Action.tame_checkBudget h)).act
  have hlook {s t : Session} (hs : act (Action.checkBudget h) s = (.ok (), t)) : s.Before t := (hbudget.eq hs).1
  cases hpart with
  | left => exact ⟨.refl _, fun _ => .left⟩
  | right hl hop =>
    obtain ⟨hst, hl⟩ := (hexpr _).eq hl
    exact ⟨hst, fun hlog => .right (hl hlog) hop⟩
  | operand => exact ⟨.refl _, fun _ => .operand⟩
  | assigned => exact ⟨.refl _, fun _ => .assigned⟩
  | callee => exact ⟨.refl _, fun _ => .callee⟩
  | arguments hf =>
    obtain ⟨hst, hf⟩ := (hexpr _).eq hf
    exact ⟨hst, fun hlog => .arguments (hf hlog)⟩
  | application hf hvs =>
    obtain ⟨hst, hf⟩ := (hexpr _).eq hf
    obtain ⟨htu, hvs⟩ := (repeats_exprs hcall _ _).eq hvs
    exact ⟨hst.trans htu, fun hlog => .application (hf (htu.calls_suffix.trans hlog)) (hvs hlog)⟩
  | elements hsize => exact ⟨.refl _, fun _ => .elements hsize⟩
  | values => exact ⟨.refl _, fun _ => .values⟩
  | object => exact ⟨.refl _, fun _ => .object⟩
  | key ho =>
    obtain ⟨hst, ho⟩ := (hexpr _).eq ho
    exact ⟨hst, fun hlog => .key (ho hlog)⟩
  | element => exact ⟨.refl _, fun _ => .element⟩
  | nextElement hv =>
    obtain ⟨hst, hv⟩ := (hexpr _).eq hv
    exact ⟨hst, fun hlog => .nextElement (hv hlog)⟩
  | entry => exact ⟨.refl _, fun _ => .entry⟩
  | nextEntry hv =>
    obtain ⟨hst, hv⟩ := (hexpr _).eq hv
    exact ⟨hst, fun hlog => .nextEntry (hv hlog)⟩
  | expression => exact ⟨.refl _, fun _ => .expression⟩
  | bound => exact ⟨.refl _, fun _ => .bound⟩
  | test => exact ⟨.refl _, fun _ => .test⟩
  | yes hv htruthy =>
    obtain ⟨hst, hv⟩ := (hexpr _).eq hv
    exact ⟨hst, fun hlog => .yes (hv hlog) htruthy⟩
  | no hv hfalsy =>
    obtain ⟨hst, hv⟩ := (hexpr _).eq hv
    exact ⟨hst, fun hlog => .no (hv hlog) hfalsy⟩
  | other => exact ⟨.refl _, fun _ => .other⟩
  | loop => exact ⟨.refl _, fun _ => .loop⟩
  | iterable => exact ⟨.refl _, fun _ => .iterable⟩
  | items hv hitems =>
    obtain ⟨hst, hv⟩ := (hexpr _).eq hv
    exact ⟨hst, fun hlog => .items (hv hlog) hitems⟩
  | inner => exact ⟨.refl _, fun _ => .inner⟩
  | given => exact ⟨.refl _, fun _ => .given⟩
  | first => exact ⟨.refl _, fun _ => .first⟩
  | rest hnext =>
    obtain ⟨hst, hnext⟩ := (hstmt _).eq hnext
    exact ⟨hst, fun hlog => .rest (hnext hlog)⟩
  | roundTest hbudget => exact ⟨hlook hbudget, fun _ => .roundTest hbudget⟩
  | roundBody hbudget hv htruthy =>
    obtain ⟨htu, hv⟩ := (hexpr _).eq hv
    exact ⟨(hlook hbudget).trans htu, fun hlog => .roundBody hbudget (hv hlog) htruthy⟩
  | nextRound hbudget hv htruthy hflow hrepeats =>
    obtain ⟨htu, hv⟩ := (hexpr _).eq hv
    obtain ⟨huw, hflow⟩ := (hblock _).eq hflow
    exact ⟨((hlook hbudget).trans htu).trans huw, fun hlog =>
      .nextRound hbudget (hv (huw.calls_suffix.trans hlog)) htruthy (hflow hlog) hrepeats⟩
  | itemBody hbudget => exact ⟨(hlook hbudget).define _ _, fun _ => .itemBody hbudget⟩
  | nextItem hbudget hflow hrepeats =>
    obtain ⟨htu, hflow⟩ := (hblock _).eq hflow
    exact ⟨((hlook hbudget).define _ _).trans htu, fun hlog => .nextItem hbudget (hflow hlog) hrepeats⟩
  | topFirst => exact ⟨.refl _, fun _ => .topFirst⟩
  | topRest hflow hgives =>
    obtain ⟨hst, hflow⟩ := (hstmt _).eq hflow
    exact ⟨hst, fun hlog => .topRest (hflow hlog) hgives⟩

end

variable {m m' : Moment} {fuel : Nat} {p : Program} {s : Session}

theorem Moment.Leads.within (hm : m.Leads h m') :
    m.session.Before m'.session ∧ (m'.session.calls <:+ log → m.Leads (h.within log) m') := by
  cases hm with
  | part hpart =>
    obtain ⟨hst, hpart⟩ := hpart.within (repeats_call _)
    exact ⟨hst, fun hlog => .part (hpart hlog)⟩
  | @enter fuel calls f body vs s t hbody harity hpush =>
    have hst : s.Before t := by
      have hs := grows_push (h := h) s
      rwa [act_ok hpush] at hs
    exact ⟨(Session.Before.tame s).defineAll hst _, fun _ => .enter hbody harity hpush⟩

/-- A moment is reached with the answers that have been got by then. -/
theorem Reaches.within (hm : Reaches h fuel p s m) (hlog : m.session.calls <:+ log) :
    Reaches (h.within log) fuel p s m := by
  induction hm with
  | start happly => exact .start happly
  | leads _ hleads ih =>
    obtain ⟨hst, hleads⟩ := hleads.within
    exact .leads (ih (hst.calls_suffix.trans hlog)) (hleads hlog)

/-- What comes after a moment is the same with the answers that have been got by then. -/
theorem Moment.after_within (m : Moment) :
    m.session.Before (m.after h) ∧ ((m.after h).calls <:+ log → m.after (h.within log) = m.after h) := by
  obtain ⟨fuel, calls, task, s⟩ := m
  have hcall (f : Value) (vs : List Value) : Repeats log (call h fuel f vs) (call (h.within log) fuel f vs) :=
    repeats_call fuel f vs
  have hleaves {α : Type} {x y : Eval α} (hxy : Repeats log x y) :
      s.Before (x s).2 ∧ ((x s).2.calls <:+ log → (y s).2 = (x s).2) :=
    ⟨(hxy s).1, fun hlog => congrArg Prod.snd ((hxy s).2 hlog)⟩
  have hbody := repeats_block (h := h) hcall fuel
  cases task with
  | expr e => exact hleaves (repeats_expr hcall e)
  | exprs before es => exact hleaves (repeats_exprs hcall es before)
  | entries before es => exact hleaves (repeats_entries hcall es before)
  | apply f vs => exact hleaves (hcall f vs)
  | stmt st => exact hleaves (repeats_stmt hcall fuel st)
  | block ss => exact hleaves (hbody ss)
  | otherwise no => exact hleaves (repeats_otherwise hcall fuel no)
  | rounds test body left => exact hleaves (repeats_whileLoop (repeats_expr hcall test) (hbody body) left)
  | each name body items =>
    refine hleaves (related_forLoop Repeats.related (fun item => ?_) items)
    exact (Repeats.modify fun s => (Session.Before.refl s).define name item).bind fun _ => hbody body
  | topLevel ss => exact hleaves (related_topLevel Repeats.related (repeats_stmt hcall fuel) ss)

end Evaluation

end

end Persona
