import Persona.Proofs.Evaluation.Budget
import Persona.Proofs.Evaluation.Moment
import Persona.Proofs.Text.Keyed

/-! Laws of a run.

A law says what holds of the session while certain calls are active, of every value, and of the code
that runs in these calls, form by form. If each form by itself keeps to the law, then so does every
evaluation, and the law holds at every moment of the run. -/
namespace Persona

open Effect (Keeps)

namespace Evaluation

/-- What holds throughout a run. `Inv` is about the session, `Val` about values and `Key` about the
keys of maps; `node` and `site` say which expressions and statements may stand in the code of the
innermost call. -/
structure Law (h : Host) where
  Inv : List Function → Session → Prop
  Val : Value → Prop
  Key : String → Prop
  node : List Function → Expr → Prop
  site : List Function → Stmt → Prop
  null : Val .null
  bool : ∀ b, Val (.bool b)
  literal : ∀ {fs l}, node fs (.literal l) → Val (.ofLiteral l)
  lookup : ∀ {fs name v} {s : Session}, Inv fs s → s.lookup? name = some v → Val v
  binary : ∀ {op a b v}, Val a → Val b → Value.binary h.limits op a b = .ok v → Val v
  unary : ∀ {op a v}, Val a → Value.unary op a = .ok v → Val v
  index : ∀ {o k v}, Val o → Val k → Value.index o k = .ok v → Val v
  array : ∀ {items : Array Value}, (∀ v ∈ items, Val v) → items.size ≤ h.limits.maxArrayLength → Val (.array items)
  key : ∀ {fs es}, node fs (.map es) → ∀ e ∈ es, Key e.1
  map : ∀ {es}, (∀ e ∈ es, Key e.1 ∧ Val e.2) → Val (.map es)
  items : ∀ {v items}, Val v → v.items = .ok items → ∀ item ∈ items, Val item
  builtin : ∀ {fs vs} {b : Builtin}, (∀ v ∈ vs, Val v) → Keeps (Inv fs) (fun _ => True) Val (b.call h vs)
  look : ∀ {fs clock} {s : Session}, Inv fs s → Inv fs { s with clock }
  assign : ∀ {fs s target e v}, node fs (.assign target e) → Val v → Inv fs s → Inv fs (s.assign target.name v)
  define : ∀ {fs s name v} {st : Stmt}, site fs st → name ∈ st.binds → Val v → Inv fs s → Inv fs (s.define name v)
  makes : ∀ {fs s} {d : FunctionDecl}, site fs (.function d) → Inv fs s → Inv fs { s with made := s.made + 1 } ∧
    Val (.function ⟨⟨s.made, d.name⟩, d.params.map (·.name), .script d.body⟩)
  enter : ∀ {fs s f body vs}, Val (.function f) → f.body = .script body → f.params.length = vs.length →
    (∀ v ∈ vs, Val v) → Inv fs s → Inv (f :: fs) (Session.defineAll { s with frames := [] :: s.frames } (f.params.zip vs))
  nodes : ∀ {fs f body}, Val (.function f) → f.body = .script body →
    ∀ st ∈ Stmt.ownList body, site (f :: fs) st ∧ ∀ e ∈ st.exprs, ∀ part ∈ e.parts, node (f :: fs) part
  leave : ∀ {fs f s}, Inv (f :: fs) s → Inv fs s.pop

namespace Law

variable {h : Host} (L : Law h) (fs : List Function)

/-! ### Permitted code -/

def PermitsExpr (e : Expr) : Prop := ∀ part ∈ e.parts, L.node fs part

def PermitsExprs (es : List Expr) : Prop := ∀ part ∈ Expr.listParts es, L.node fs part

def PermitsEntries (es : List (String × Expr)) : Prop :=
  (∀ e ∈ es, L.Key e.1) ∧ ∀ part ∈ Expr.entryParts es, L.node fs part

/-- A statement in itself, with the expressions that stand in it. -/
def PermitsSite (s : Stmt) : Prop := L.site fs s ∧ ∀ e ∈ s.exprs, L.PermitsExpr fs e

def PermitsStmt (s : Stmt) : Prop := ∀ part ∈ s.own, L.PermitsSite fs part

def PermitsBlock (ss : List Stmt) : Prop := ∀ part ∈ Stmt.ownList ss, L.PermitsSite fs part

def PermitsElse (no : Option Stmt) : Prop := ∀ part ∈ Stmt.ownElse no, L.PermitsSite fs part

/-- A task of permitted code and values. -/
def Permits (fs : List Function) : Task → Prop
  | .expr e => L.PermitsExpr fs e
  | .exprs before es => (∀ v ∈ before, L.Val v) ∧ L.PermitsExprs fs es
  | .entries before es => (∀ e ∈ before, L.Key e.1 ∧ L.Val e.2) ∧ L.PermitsEntries fs es
  | .apply f vs => L.Val f ∧ ∀ v ∈ vs, L.Val v
  | .stmt s => L.PermitsStmt fs s
  | .block ss | .topLevel ss => L.PermitsBlock fs ss
  | .otherwise no => L.PermitsElse fs no
  | .rounds test body _ => L.PermitsExpr fs test ∧ L.PermitsBlock fs body
  | .each name body items => (∃ s, L.site fs s ∧ name ∈ s.binds) ∧ L.PermitsBlock fs body ∧ ∀ v ∈ items, L.Val v

variable {L fs}

section
variable {op : BinaryOp} {target : Identifier} {place : Coordinate} {name key : String} {e l r object : Expr}
  {es : List Expr} {entries : List (String × Expr)} {s : Stmt} {yes body rest : List Stmt} {no : Option Stmt}

theorem permits_binary : L.PermitsExpr fs (.binary op l r) ↔
    L.node fs (.binary op l r) ∧ L.PermitsExpr fs l ∧ L.PermitsExpr fs r := by
  show (∀ part ∈ .binary op l r :: (l.parts ++ r.parts), L.node fs part) ↔ _
  rw [List.forall_mem_cons, List.forall_mem_append]
  rfl

theorem permits_unary {op : UnaryOp} : L.PermitsExpr fs (.unary op e) ↔
    L.node fs (.unary op e) ∧ L.PermitsExpr fs e := List.forall_mem_cons

theorem permits_assign : L.PermitsExpr fs (.assign target e) ↔
    L.node fs (.assign target e) ∧ L.PermitsExpr fs e := List.forall_mem_cons

theorem permits_call : L.PermitsExpr fs (.call place e es) ↔
    L.node fs (.call place e es) ∧ L.PermitsExpr fs e ∧ L.PermitsExprs fs es := by
  show (∀ part ∈ .call place e es :: (e.parts ++ Expr.listParts es), L.node fs part) ↔ _
  rw [List.forall_mem_cons, List.forall_mem_append]
  rfl

theorem permits_array : L.PermitsExpr fs (.array es) ↔ L.node fs (.array es) ∧ L.PermitsExprs fs es :=
  List.forall_mem_cons

theorem permits_map (he : L.PermitsExpr fs (.map entries)) : L.PermitsEntries fs entries :=
  ⟨L.key (he _ (List.mem_cons_self ..)), fun part hpart => he part (List.mem_cons_of_mem _ hpart)⟩

theorem permits_index : L.PermitsExpr fs (.index object e) ↔
    L.node fs (.index object e) ∧ L.PermitsExpr fs object ∧ L.PermitsExpr fs e := by
  show (∀ part ∈ .index object e :: (object.parts ++ e.parts), L.node fs part) ↔ _
  rw [List.forall_mem_cons, List.forall_mem_append]
  rfl

theorem permits_exprs : L.PermitsExprs fs (e :: es) ↔ L.PermitsExpr fs e ∧ L.PermitsExprs fs es :=
  List.forall_mem_append

theorem permits_entries : L.PermitsEntries fs ((key, e) :: entries) ↔
    L.Key key ∧ L.PermitsExpr fs e ∧ L.PermitsEntries fs entries := by
  show ((∀ entry ∈ (key, e) :: entries, L.Key entry.1) ∧
    ∀ part ∈ e.parts ++ Expr.entryParts entries, L.node fs part) ↔ _
  rw [List.forall_mem_cons, List.forall_mem_append]
  constructor
  · rintro ⟨⟨hkey, hkeys⟩, he, hes⟩
    exact ⟨hkey, he, hkeys, hes⟩
  · rintro ⟨hkey, he, hkeys, hes⟩
    exact ⟨⟨hkey, hkeys⟩, he, hes⟩

theorem permits_site (hs : L.PermitsStmt fs s) : L.PermitsSite fs s :=
  hs s (by cases s with | _ => exact List.mem_cons_self)

theorem permits_cond (hs : L.PermitsStmt fs (.cond place e yes no)) :
    L.PermitsExpr fs e ∧ L.PermitsBlock fs yes ∧ L.PermitsElse fs no := by
  have hparts : ∀ part ∈ .cond place e yes no :: (Stmt.ownList yes ++ Stmt.ownElse no), L.PermitsSite fs part := hs
  rw [List.forall_mem_cons, List.forall_mem_append] at hparts
  exact ⟨hparts.1.2 e (List.mem_singleton_self e), hparts.2⟩

theorem permits_while (hs : L.PermitsStmt fs (.whileLoop place e body)) :
    L.PermitsExpr fs e ∧ L.PermitsBlock fs body := by
  have hparts : ∀ part ∈ .whileLoop place e body :: Stmt.ownList body, L.PermitsSite fs part := hs
  rw [List.forall_mem_cons] at hparts
  exact ⟨hparts.1.2 e (List.mem_singleton_self e), hparts.2⟩

theorem permits_forEach (hs : L.PermitsStmt fs (.forEach place name e body)) :
    L.PermitsExpr fs e ∧ (∃ s, L.site fs s ∧ name ∈ s.binds) ∧ L.PermitsBlock fs body := by
  have hparts : ∀ part ∈ .forEach place name e body :: Stmt.ownList body, L.PermitsSite fs part := hs
  rw [List.forall_mem_cons] at hparts
  exact ⟨hparts.1.2 e (List.mem_singleton_self e), ⟨_, hparts.1.1, List.mem_singleton_self name⟩, hparts.2⟩

theorem permits_inner (hs : L.PermitsStmt fs (.block place body)) : L.PermitsBlock fs body :=
  (List.forall_mem_cons.1 hs).2

theorem permits_block : L.PermitsBlock fs (s :: rest) ↔ L.PermitsStmt fs s ∧ L.PermitsBlock fs rest :=
  List.forall_mem_append

end

/-! ### Single steps -/

variable {call : Caller} {fuel : Nat}

variable (L fs) in
/-- What an evaluation does is lawful. -/
abbrev Does (Q : α → Prop) (x : Eval α) : Prop := Keeps (L.Inv fs) (fun _ => True) Q x

variable (L) in
/-- What a statement gives back, if it does. -/
def Gives (flow : Flow) : Prop := ∀ v, flow = .giveBack v → L.Val v

variable (L fs) in
/-- Values are called in a lawful way. -/
def Calls (call : Caller) : Prop := ∀ f vs, L.Val f → (∀ v ∈ vs, L.Val v) → L.Does fs L.Val (call f vs)

theorem does_act {Q : α → Prop} {a : Action α} (ha : Keeps (L.Inv fs) (fun _ => True) Q a) : L.Does fs Q (act a) :=
  (keeps_act ha).imp (fun _ _ => trivial) fun _ hx => hx

theorem does_orFault {α : Type} {Q : α → Prop} {x : Except Fault α} (hx : ∀ v, x = .ok v → Q v) :
    L.Does fs Q (act (Action.orFault x)) := by
  refine does_act ?_
  cases x with
  | error e => exact Keeps.throw trivial
  | ok v => exact Keeps.pure (hx v rfl)

theorem does_lookup (name : String) : L.Does fs L.Val (act (Action.lookup name)) := by
  refine does_act (Keeps.get fun s hs => ?_)
  split
  · next v hv => exact Keeps.pure (L.lookup hs hv)
  · exact Keeps.throw trivial

theorem does_look : L.Does fs (fun _ => True) (act (Action.checkBudget h)) := by
  refine does_act (Keeps.get fun s _ => ?_)
  split
  · exact Keeps.modify fun s hs => L.look hs
  · exact Keeps.throw trivial

theorem does_define {s : Stmt} {name : String} {v : Value} (hs : L.site fs s) (hname : name ∈ s.binds)
    (hv : L.Val v) : L.Does fs (fun _ => True) (modify fun s => s.define name v : Eval PUnit) :=
  Keeps.modify fun _ ht => L.define hs hname hv ht

theorem does_ite {Q : α → Prop} (b : Bool) {x y : Eval α} (hx : L.Does fs Q x) (hy : L.Does fs Q y) :
    L.Does fs Q (if b then x else y) := by
  split
  · exact hx
  · exact hy

theorem gives_of_ne {flow : Flow} (hflow : ∀ v, flow ≠ .giveBack v) : L.Gives flow :=
  fun v hv => absurd hv (hflow v)

theorem vals_push {before : Array Value} {v : Value} (hbefore : ∀ v ∈ before, L.Val v) (hv : L.Val v) :
    ∀ w ∈ before.push v, L.Val w := by
  intro w hw
  rcases Array.mem_push.1 hw with hw | rfl
  · exact hbefore w hw
  · exact hv

theorem vals_insert {before : List (String × Value)} {key : String} {v : Value}
    (hbefore : ∀ e ∈ before, L.Key e.1 ∧ L.Val e.2) (hkey : L.Key key) (hv : L.Val v) :
    ∀ e ∈ Keyed.insert key v before, L.Key e.1 ∧ L.Val e.2 := by
  intro e he
  rcases Keyed.mem_of_mem_insert he with rfl | he
  · exact ⟨hkey, hv⟩
  · exact hbefore e he

/-! ### Expressions -/

mutual

theorem does_expr (hcall : L.Calls fs call) : ∀ e : Expr, L.PermitsExpr fs e → L.Does fs L.Val (expr h call e)
  | .literal _, he => Keeps.pure (L.literal (he _ (List.mem_cons_self ..)))
  | .identifier i, _ => does_lookup i.name
  | .binary op l r, he => by
    obtain ⟨-, hl, hr⟩ := permits_binary.1 he
    have hright := does_expr hcall r hr
    refine (does_expr hcall l hl).bind fun a ha => ?_
    cases op with
    | and => exact does_ite _ hright (Keeps.pure (L.bool _))
    | or => exact does_ite _ (Keeps.pure (L.bool _)) hright
    | _ => exact hright.bind fun b hb => does_orFault fun v hv => L.binary ha hb hv
  | .unary _ e, he =>
    (does_expr hcall e (permits_unary.1 he).2).bind fun _ ha => does_orFault fun _ hv => L.unary ha hv
  | .assign target value, he =>
    (does_expr hcall value (permits_assign.1 he).2).bind fun v hv =>
      (Keeps.modify fun _ hs => L.assign (permits_assign.1 he).1 hv hs).bind fun _ _ => Keeps.pure hv
  | .call _ callee arguments, he =>
    (does_expr hcall callee (permits_call.1 he).2.1).bind fun f hf =>
      (does_exprs hcall arguments #[] (permits_call.1 he).2.2 fun v hv => absurd hv (by simp)).bind fun vs hvs =>
        hcall f _ hf fun v hv => hvs.1 v (Array.mem_toList_iff.1 hv)
  | .array elements, he => by
    have helements := does_exprs hcall elements #[] (permits_array.1 he).2 fun v hv => absurd hv (by simp)
    rw [expr]
    simp only
    split
    · exact Keeps.throw trivial
    · next hroom =>
      refine helements.bind fun vs hvs => Keeps.pure (L.array hvs.1 ?_)
      rw [hvs.2]
      simpa using hroom
  | .map es, he =>
    (does_entries hcall es [] (permits_map he) fun e he => absurd he (List.not_mem_nil)).bind fun _ hvs =>
      Keeps.pure (L.map hvs)
  | .index object key, he =>
    (does_expr hcall object (permits_index.1 he).2.1).bind fun _ ho =>
      (does_expr hcall key (permits_index.1 he).2.2).bind fun _ hk => does_orFault fun _ hv => L.index ho hk hv
termination_by structural e => e

theorem does_exprs (hcall : L.Calls fs call) : ∀ (es : List Expr) (before : Array Value), L.PermitsExprs fs es →
    (∀ v ∈ before, L.Val v) →
      L.Does fs (fun vs => (∀ v ∈ vs, L.Val v) ∧ vs.size = before.size + es.length) (exprs h call before es)
  | [], _, _, hbefore => Keeps.pure ⟨hbefore, rfl⟩
  | e :: es, _, hes, hbefore =>
    (does_expr hcall e (permits_exprs.1 hes).1).bind fun v hv =>
      (does_exprs hcall es _ (permits_exprs.1 hes).2 (vals_push hbefore hv)).imp (fun _ _ => trivial)
        fun vs hvs => ⟨hvs.1, by rw [hvs.2, Array.size_push, List.length_cons]; omega⟩
termination_by structural es => es

theorem does_entries (hcall : L.Calls fs call) : ∀ (es : List (String × Expr)) (before : List (String × Value)),
    L.PermitsEntries fs es → (∀ e ∈ before, L.Key e.1 ∧ L.Val e.2) →
      L.Does fs (fun es => ∀ e ∈ es, L.Key e.1 ∧ L.Val e.2) (entries h call before es)
  | [], _, _, hbefore => Keeps.pure hbefore
  | (_, e) :: es, _, hes, hbefore =>
    (does_expr hcall e (permits_entries.1 hes).2.1).bind fun _ hv =>
      does_entries hcall es _ (permits_entries.1 hes).2.2 (vals_insert hbefore (permits_entries.1 hes).1 hv)
termination_by structural es => es

end

/-! ### Loops -/

theorem does_afterRound {more : Eval Flow} (hmore : L.Does fs L.Gives more) {flow : Flow} (hflow : L.Gives flow) :
    L.Does fs L.Gives (afterRound more flow) := by
  cases flow with
  | next => exact hmore
  | again => exact hmore
  | leave => exact Keeps.pure (gives_of_ne fun _ => nofun)
  | giveBack v => exact Keeps.pure hflow

theorem does_whileLoop {test : Eval Value} {body : Eval Flow} (htest : L.Does fs L.Val test)
    (hbody : L.Does fs L.Gives body) (left : Nat) : L.Does fs L.Gives (whileLoop h test body left) := by
  induction left with
  | zero => exact Keeps.throw trivial
  | succ left ih =>
    rw [whileLoop_succ]
    refine does_look.bind fun _ _ => htest.bind fun v _ => does_ite _ ?_ (Keeps.pure (gives_of_ne fun _ => nofun))
    exact hbody.bind fun _ hflow => does_afterRound ih hflow

theorem does_forLoop {body : Value → Eval Flow} (hbody : ∀ v, L.Val v → L.Does fs L.Gives (body v))
    {items : List Value} (hitems : ∀ v ∈ items, L.Val v) : L.Does fs L.Gives (forLoop h body items) := by
  induction items with
  | nil => exact Keeps.pure (gives_of_ne fun _ => nofun)
  | cons item rest ih =>
    rw [forLoop_cons]
    refine does_look.bind fun _ _ => (hbody item (hitems item (List.mem_cons_self ..))).bind fun _ hflow => ?_
    exact does_afterRound (ih fun v hv => hitems v (List.mem_cons_of_mem _ hv)) hflow

/-! ### Statements -/

theorem does_makeFunction {d : FunctionDecl} (hd : L.site fs (.function d)) :
    L.Does fs L.Val (act (Action.makeFunction d.name (d.params.map (·.name)) (.script d.body))) := by
  refine does_act fun s hs => ?_
  obtain ⟨hI, hv⟩ := L.makes hd hs
  refine ⟨hI, fun v hresult => ?_, fun _ _ => trivial⟩
  cases hresult
  exact hv

mutual

theorem does_stmt (hcall : L.Calls fs call) : ∀ s : Stmt, L.PermitsStmt fs s → L.Does fs L.Gives (stmt h call fuel s)
  | .expr _ e, hs =>
    (does_expr hcall e ((permits_site hs).2 e (List.mem_singleton_self e))).bind fun _ _ =>
      Keeps.pure (gives_of_ne fun _ => nofun)
  | .bind _ name value, hs =>
    (does_expr hcall value ((permits_site hs).2 value (List.mem_singleton_self value))).bind fun _ hv =>
      (does_define (permits_site hs).1 (List.mem_singleton_self name) hv).bind fun _ _ =>
        Keeps.pure (gives_of_ne fun _ => nofun)
  | .function ⟨_, name, _, _, _⟩, hs =>
    (does_makeFunction (permits_site hs).1).bind fun _ hv =>
      (does_define (permits_site hs).1 (List.mem_singleton_self name) hv).bind fun _ _ =>
        Keeps.pure (gives_of_ne fun _ => nofun)
  | .cond _ test yes no, hs => by
    obtain ⟨htest, hyes, hno⟩ := permits_cond hs
    have hthen := does_block hcall yes hyes
    have helse := does_otherwise hcall no hno
    exact (does_expr hcall test htest).bind fun _ _ => does_ite _ hthen helse
  | .whileLoop _ test body, hs =>
    does_whileLoop (does_expr hcall test (permits_while hs).1) (does_block hcall body (permits_while hs).2) fuel
  | .forEach _ name iterable body, hs => by
    obtain ⟨hiterable, ⟨s, hsite, hname⟩, hbody⟩ := permits_forEach hs
    have hround := does_block hcall body hbody
    refine (does_expr hcall iterable hiterable).bind fun v hv =>
      (does_orFault (Q := fun items => ∀ item ∈ items, L.Val item) fun items hitems => L.items hv hitems).bind
        fun items hitems => ?_
    refine does_forLoop (fun item hitem => ?_) fun v hv => hitems v (Array.mem_toList_iff.1 hv)
    exact (does_define hsite hname hitem).bind fun _ _ => hround
  | .block _ body, hs => does_block hcall body (permits_inner hs)
  | .personality .., _ => Keeps.pure (gives_of_ne fun _ => nofun)
  | .giveBack _ none, _ => Keeps.pure fun v hv => by
    cases hv
    exact L.null
  | .giveBack _ (some e), hs =>
    (does_expr hcall e ((permits_site hs).2 e (List.mem_singleton_self e))).bind fun _ hv => Keeps.pure fun w hw => by
      cases hw
      exact hv
  | .leave _, _ => Keeps.pure (gives_of_ne fun _ => nofun)
  | .again _, _ => Keeps.pure (gives_of_ne fun _ => nofun)
termination_by structural s => s

theorem does_block (hcall : L.Calls fs call) : ∀ ss : List Stmt, L.PermitsBlock fs ss →
    L.Does fs L.Gives (block h call fuel ss)
  | [], _ => Keeps.pure (gives_of_ne fun _ => nofun)
  | s :: rest, hss => by
    have hrest := does_block hcall rest (permits_block.1 hss).2
    refine (does_stmt hcall s (permits_block.1 hss).1).bind fun flow hflow => ?_
    cases flow with
    | next => exact hrest
    | _ => exact Keeps.pure hflow
termination_by structural ss => ss

theorem does_otherwise (hcall : L.Calls fs call) : ∀ no : Option Stmt, L.PermitsElse fs no →
    L.Does fs L.Gives (otherwise h call fuel no)
  | none, _ => Keeps.pure (gives_of_ne fun _ => nofun)
  | some s, hs => does_stmt hcall s hs
termination_by structural no => no

end

/-! ### Calls -/

theorem does_inFrame {f : Function} {body : Eval Flow} (hbody : L.Does (f :: fs) L.Gives body) {s : Session}
    (hs : L.Inv (f :: fs) s) : L.Inv fs (inFrame body s).2 ∧ ∀ v, (inFrame body s).1 = .ok v → L.Val v := by
  obtain ⟨hI, hgives, -⟩ := hbody s hs
  cases hr : body s with
  | mk r t =>
    rw [hr] at hI hgives
    cases r with
    | error e =>
      rw [inFrame_error hr]
      exact ⟨L.leave hI, fun v hv => nomatch hv⟩
    | ok flow =>
      rw [inFrame_ok hr]
      refine ⟨L.leave hI, fun v hv => ?_⟩
      cases hv
      cases flow with
      | giveBack v => exact hgives _ rfl v rfl
      | _ => exact L.null

/-- A call begins with an empty scope on a session that is as lawful as before, or not at all. -/
theorem push_cases {s : Session} (hs : L.Inv fs s) :
    (∃ e t, act (Action.push h) s = (.error e, t) ∧ L.Inv fs t) ∨
      ∃ t, act (Action.push h) s = (.ok (), { t with frames := [] :: t.frames }) ∧ L.Inv fs t := by
  have hpush := Action.push_eq h s
  cases hlook : s.clock.look? with
  | none =>
    rw [hlook] at hpush
    exact .inl ⟨_, s, act_error hpush, hs⟩
  | some clock =>
    rw [hlook] at hpush
    by_cases hdepth : h.limits.maxCallDepth ≤ s.depth
    · simp only [if_pos hdepth] at hpush
      exact .inl ⟨_, _, act_error hpush, L.look hs⟩
    · simp only [if_neg hdepth] at hpush
      exact .inr ⟨{ s with clock }, act_ok hpush, L.look hs⟩

/-- A call is lawful if the bodies of functions are. -/
theorem calls_applyWith {runBody : List Stmt → Eval Flow}
    (hbody : ∀ f body, L.PermitsBlock (f :: fs) body → L.Does (f :: fs) L.Gives (runBody body)) :
    L.Calls fs (applyWith h runBody) := by
  intro f vs hf hvs
  cases f with
  | builtin b => exact does_act (L.builtin hvs)
  | function f =>
    unfold applyWith
    dsimp only
    cases hcode : f.body with
    | compiled entry => exact Keeps.throw trivial
    | script body =>
      have hruns := hbody f body fun st hst => L.nodes hf hcode st hst
      by_cases harity : f.params.length = vs.length
      · simp only [harity, ne_eq, not_true_eq_false, if_false]
        intro s hs
        rcases push_cases hs with ⟨e, t, hpush, ht⟩ | ⟨t, hpush, ht⟩
        · rw [Effect.bind_error hpush]
          exact Keeps.throw trivial t ht
        · rw [Effect.bind_ok hpush, Effect.modify_bind_apply]
          obtain ⟨hI, hv⟩ := does_inFrame hruns (L.enter hf hcode harity hvs ht)
          exact ⟨hI, hv, fun _ _ => trivial⟩
      · simp only [harity, ne_eq, not_false_eq_true, if_true]
        exact Keeps.throw trivial
  | _ => exact Keeps.throw trivial

theorem calls_call (fuel : Nat) (fs : List Function) : L.Calls fs (Evaluation.call h fuel) := by
  induction fuel generalizing fs with
  | zero => exact calls_applyWith fun _ _ _ _ hs => ⟨hs, fun _ hv => (nomatch hv), fun _ _ => trivial⟩
  | succ fuel ih => exact calls_applyWith fun f body hbody => does_block (ih (f :: fs)) body hbody

/-! ### Programs -/

theorem does_topLevel (hcall : L.Calls fs call) {ss : List Stmt} (hss : L.PermitsBlock fs ss) :
    L.Does fs (fun _ => True) (topLevel (stmt h call fuel) ss) := by
  induction ss with
  | nil => exact Keeps.pure trivial
  | cons s rest ih =>
    refine (does_stmt hcall s (permits_block.1 hss).1).bind fun flow _ => ?_
    cases flow with
    | giveBack v => exact Keeps.pure trivial
    | _ => exact ih (permits_block.1 hss).2

/-! ### Moments -/

variable {Q : α → Prop} {task task' : Task} {s t : Session}

theorem Does.result {x : Eval α} (hx : L.Does fs Q x) (hs : L.Inv fs s) {v : α} (hr : x s = (.ok v, t)) :
    L.Inv fs t ∧ Q v := by
  obtain ⟨hI, hQ, -⟩ := hx s hs
  rw [hr] at hI hQ
  exact ⟨hI, hQ v rfl⟩

theorem keeps_part (hcall : L.Calls fs call) (hpart : Part h call fuel task s task' t) (hs : L.Inv fs s)
    (htask : L.Permits fs task) : L.Inv fs t ∧ L.Permits fs task' := by
  have hexpr : ∀ {e : Expr} {s t : Session} {v : Value}, L.PermitsExpr fs e → L.Inv fs s →
      expr h call e s = (.ok v, t) → L.Inv fs t ∧ L.Val v := fun he hs hr => (does_expr hcall _ he).result hs hr
  have hlook : ∀ {s t : Session}, L.Inv fs s → act (Action.checkBudget h) s = (.ok (), t) → L.Inv fs t :=
    fun hs hr => (does_look.result hs hr).1
  cases hpart with
  | left => exact ⟨hs, (permits_binary.1 htask).2.1⟩
  | right hl _ => exact ⟨(hexpr (permits_binary.1 htask).2.1 hs hl).1, (permits_binary.1 htask).2.2⟩
  | operand => exact ⟨hs, (permits_unary.1 htask).2⟩
  | assigned => exact ⟨hs, (permits_assign.1 htask).2⟩
  | callee => exact ⟨hs, (permits_call.1 htask).2.1⟩
  | arguments hf =>
    exact ⟨(hexpr (permits_call.1 htask).2.1 hs hf).1, fun v hv => absurd hv (by simp), (permits_call.1 htask).2.2⟩
  | application hf hvs =>
    obtain ⟨ht, hval⟩ := hexpr (permits_call.1 htask).2.1 hs hf
    obtain ⟨hu, hvals, -⟩ :=
      (does_exprs hcall _ #[] (permits_call.1 htask).2.2 fun v hv => absurd hv (by simp)).result ht hvs
    exact ⟨hu, hval, fun v hv => hvals v (Array.mem_toList_iff.1 hv)⟩
  | elements => exact ⟨hs, fun v hv => absurd hv (by simp), (permits_array.1 htask).2⟩
  | values => exact ⟨hs, fun e he => absurd he List.not_mem_nil, permits_map htask⟩
  | object => exact ⟨hs, (permits_index.1 htask).2.1⟩
  | key ho => exact ⟨(hexpr (permits_index.1 htask).2.1 hs ho).1, (permits_index.1 htask).2.2⟩
  | element => exact ⟨hs, (permits_exprs.1 htask.2).1⟩
  | nextElement he =>
    obtain ⟨ht, hv⟩ := hexpr (permits_exprs.1 htask.2).1 hs he
    exact ⟨ht, vals_push htask.1 hv, (permits_exprs.1 htask.2).2⟩
  | entry => exact ⟨hs, (permits_entries.1 htask.2).2.1⟩
  | nextEntry he =>
    obtain ⟨ht, hv⟩ := hexpr (permits_entries.1 htask.2).2.1 hs he
    exact ⟨ht, vals_insert htask.1 (permits_entries.1 htask.2).1 hv, (permits_entries.1 htask.2).2.2⟩
  | expression | bound | given => exact ⟨hs, (permits_site htask).2 _ (List.mem_singleton_self _)⟩
  | test => exact ⟨hs, (permits_cond htask).1⟩
  | yes hv _ => exact ⟨(hexpr (permits_cond htask).1 hs hv).1, (permits_cond htask).2.1⟩
  | no hv _ => exact ⟨(hexpr (permits_cond htask).1 hs hv).1, (permits_cond htask).2.2⟩
  | other => exact ⟨hs, htask⟩
  | loop => exact ⟨hs, permits_while htask⟩
  | iterable => exact ⟨hs, (permits_forEach htask).1⟩
  | items hv hitems =>
    obtain ⟨ht, hval⟩ := hexpr (permits_forEach htask).1 hs hv
    exact ⟨ht, (permits_forEach htask).2.1, (permits_forEach htask).2.2,
      fun v hv => L.items hval hitems v (Array.mem_toList_iff.1 hv)⟩
  | inner => exact ⟨hs, permits_inner htask⟩
  | first | topFirst => exact ⟨hs, (permits_block.1 htask).1⟩
  | rest hst => exact ⟨((does_stmt hcall _ (permits_block.1 htask).1).result hs hst).1, (permits_block.1 htask).2⟩
  | roundTest hl => exact ⟨hlook hs hl, htask.1⟩
  | roundBody hl hv _ => exact ⟨(hexpr htask.1 (hlook hs hl) hv).1, htask.2⟩
  | nextRound hl hv _ hbody _ =>
    have ht := (hexpr htask.1 (hlook hs hl) hv).1
    exact ⟨((does_block hcall _ htask.2).result ht hbody).1, htask⟩
  | itemBody hl =>
    obtain ⟨⟨s, hsite, hname⟩, hbody, hitems⟩ := htask
    exact ⟨L.define hsite hname (hitems _ (List.mem_cons_self ..)) (hlook hs hl), hbody⟩
  | nextItem hl hround _ =>
    obtain ⟨⟨s, hsite, hname⟩, hbody, hitems⟩ := htask
    have ht := L.define hsite hname (hitems _ (List.mem_cons_self ..)) (hlook hs hl)
    exact ⟨((does_block hcall _ hbody).result ht hround).1, ⟨s, hsite, hname⟩, hbody,
      fun v hv => hitems v (List.mem_cons_of_mem _ hv)⟩
  | topRest hst _ => exact ⟨((does_stmt hcall _ (permits_block.1 htask).1).result hs hst).1, (permits_block.1 htask).2⟩

/-- What a lawful moment leaves is lawful. -/
theorem keeps_after {m : Moment} (hm : L.Inv m.calls m.session ∧ L.Permits m.calls m.task) :
    L.Inv m.calls (m.after h) := by
  obtain ⟨fuel, calls, task, s⟩ := m
  obtain ⟨hs, htask⟩ := hm
  have hcall := calls_call (L := L) fuel calls
  cases task with
  | expr e => exact (does_expr hcall e htask s hs).1
  | exprs before es => exact (does_exprs hcall es before htask.2 htask.1 s hs).1
  | entries before es => exact (does_entries hcall es before htask.2 htask.1 s hs).1
  | apply f vs => exact (hcall f vs htask.1 htask.2 s hs).1
  | stmt st => exact (does_stmt hcall st htask s hs).1
  | block ss => exact (does_block hcall ss htask s hs).1
  | otherwise no => exact (does_otherwise hcall no htask s hs).1
  | rounds test body left =>
    exact (does_whileLoop (does_expr hcall test htask.1) (does_block hcall body htask.2) left s hs).1
  | each name body items =>
    obtain ⟨⟨st, hsite, hname⟩, hbody, hitems⟩ := htask
    refine (does_forLoop (fun item hitem => ?_) hitems s hs).1
    exact (does_define hsite hname hitem).bind fun _ _ => does_block hcall body hbody
  | topLevel ss => exact (does_topLevel hcall htask s hs).1

/-- What a lawful moment leads to is lawful. -/
theorem keeps_leads {m m' : Moment} (hleads : m.Leads h m') (hm : L.Inv m.calls m.session ∧ L.Permits m.calls m.task) :
    L.Inv m'.calls m'.session ∧ L.Permits m'.calls m'.task := by
  cases hleads with
  | part hpart => exact keeps_part (calls_call _ _) hpart hm.1 hm.2
  | enter hbody harity hpush =>
    rcases push_cases hm.1 with ⟨e, t, hfails, -⟩ | ⟨t, hbegins, ht⟩
    · rw [act_ok hpush] at hfails
      cases hfails
    · rw [act_ok hpush] at hbegins
      cases hbegins
      exact ⟨L.enter hm.2.1 hbody harity hm.2.2 ht, L.nodes hm.2.1 hbody⟩

/-- The law holds at every moment of a run if it holds once the personality blocks are applied. -/
theorem holds {p : Program} (hstart : ∀ t, applyBlocks p.personalityBlocks s = (.ok (), t) → L.Inv [] t)
    (hcode : L.PermitsBlock [] p.statements) {m : Moment} (hm : Reaches h fuel p s m) :
    L.Inv m.calls m.session ∧ L.Permits m.calls m.task := by
  induction hm with
  | start happly => exact ⟨hstart _ happly, hcode⟩
  | leads _ hleads ih => exact keeps_leads hleads ih

end Law

end Evaluation

end Persona
