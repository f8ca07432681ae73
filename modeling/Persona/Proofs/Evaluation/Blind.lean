import Persona.Proofs.Builtin.Unframed
import Persona.Proofs.Evaluation.Call
import Persona.Proofs.Syntax.Walk

/-! What a run cannot see.

A variable of a call that the call does not use makes no difference to it, whatever its value is. Two
runs that differ in the value only do the same, and differ in nothing else: the name may be bound
again or assigned, which is done in both of them, since both have it in that scope. Calls inside have
scopes of their own and do not see the variable at all, so that nothing has to be known about what is
called. When the call ends its scope goes, and with it the difference. -/
namespace Persona

/-! ### Scopes -/

/-- The scopes bind the same names, and all but `x` to the same values. -/
structure Scope.Alike (x : String) (a b : Scope) : Prop where
  others : ∀ name, name ≠ x → Keyed.get? name a = Keyed.get? name b
  bound : (Keyed.get? x a).isSome = (Keyed.get? x b).isSome

/-- The scope that is `n` calls further out may have another value for `x`; all else is the same. -/
inductive FramesAlike (x : String) : Nat → List Scope → List Scope → Prop
  | here {top top' : Scope} {outer : List Scope} : top.Alike x top' → FramesAlike x 0 (top :: outer) (top' :: outer)
  | inner {n : Nat} {top : Scope} {fs gs : List Scope} : FramesAlike x n fs gs →
      FramesAlike x (n + 1) (top :: fs) (top :: gs)

namespace Scope.Alike

variable {x : String} {a b : Scope}

theorem refl (x : String) (a : Scope) : Scope.Alike x a a := ⟨fun _ _ => rfl, rfl⟩

/-- A name that is bound to a value in both is no difference, and `x` may be bound to two values. -/
theorem insert {name : String} {v w : Value} (h : Scope.Alike x a b) (hvalue : name ≠ x → v = w) :
    Scope.Alike x (Keyed.insert name v a) (Keyed.insert name w b) := by
  by_cases hname : name = x
  · subst hname
    refine ⟨fun other hother => ?_, ?_⟩
    · rw [Keyed.get?_insert_of_ne hother, Keyed.get?_insert_of_ne hother, h.others other hother]
    · rw [Keyed.get?_insert_self, Keyed.get?_insert_self]
      rfl
  · obtain rfl := hvalue hname
    refine ⟨fun other hother => ?_, ?_⟩
    · by_cases heq : other = name
      · rw [heq, Keyed.get?_insert_self, Keyed.get?_insert_self]
      · rw [Keyed.get?_insert_of_ne heq, Keyed.get?_insert_of_ne heq, h.others other hother]
    · rw [Keyed.get?_insert_of_ne (Ne.symm hname), Keyed.get?_insert_of_ne (Ne.symm hname), h.bound]

theorem isSome_eq (h : Scope.Alike x a b) (name : String) :
    (Keyed.get? name a).isSome = (Keyed.get? name b).isSome := by
  by_cases hname : name = x
  · rw [hname, h.bound]
  · rw [h.others name hname]

end Scope.Alike

namespace FramesAlike

variable {x : String} {n : Nat} {s : Session} {fs : List Scope}

theorem length_eq {fs gs : List Scope} (h : FramesAlike x n fs gs) : gs.length = fs.length := by
  induction h with
  | here => rfl
  | inner _ ih => rw [List.length_cons, List.length_cons, ih]

theorem tail {fs gs : List Scope} (h : FramesAlike x (n + 1) fs gs) : FramesAlike x n fs.tail gs.tail := by
  cases h with
  | inner h => exact h

/-- A call that ends takes its scope with it. -/
theorem tail_eq {fs gs : List Scope} (h : FramesAlike x 0 fs gs) : fs.tail = gs.tail := by
  cases h with
  | here => rfl

theorem lookup? (h : FramesAlike x n s.frames fs) {name : String} (hname : n = 0 → name ≠ x) :
    Session.lookup? { s with frames := fs } name = s.lookup? name := by
  obtain ⟨globals, frames, profile, output, clock, calls, made⟩ := s
  cases h with
  | here halike =>
    show ((Keyed.get? name _).or _) = ((Keyed.get? name _).or _)
    exact congrArg (Option.or · _) (halike.others name (hname rfl)).symm
  | inner => rfl

theorem define (h : FramesAlike x n s.frames fs) {name : String} {v w : Value}
    (hvalue : n = 0 ∧ name = x ∨ v = w) : ∃ gs, FramesAlike x n (s.define name v).frames gs ∧
      Session.define { s with frames := fs } name w = { s.define name v with frames := gs } := by
  obtain ⟨globals, frames, profile, output, clock, calls, made⟩ := s
  cases h with
  | here halike => exact ⟨_, .here (halike.insert fun hname => hvalue.resolve_left fun h => hname h.2), rfl⟩
  | inner hinner =>
    obtain rfl : v = w := hvalue.resolve_left fun h => nomatch h.1
    exact ⟨_, .inner hinner, rfl⟩

theorem assign (h : FramesAlike x n s.frames fs) (name : String) (v : Value) :
    ∃ gs, FramesAlike x n (s.assign name v).frames gs ∧
      Session.assign { s with frames := fs } name v = { s.assign name v with frames := gs } := by
  have hscope :
      (Keyed.get? name (Session.scope { s with frames := fs })).isNone = (Keyed.get? name s.scope).isNone := by
    obtain ⟨globals, frames, profile, output, clock, calls, made⟩ := s
    rw [← Option.not_isSome, ← Option.not_isSome]
    cases h with
    | here halike => exact congrArg (! ·) (halike.isSome_eq name).symm
    | inner => rfl
  unfold Session.assign
  rw [hscope]
  split
  · exact ⟨fs, h, rfl⟩
  · exact h.define (.inr rfl)

/-- In the scope itself arguments may differ where the parameter is `x`. -/
theorem defineAll {params : List String} {vs ws : List Value} (h : FramesAlike x n s.frames fs)
    (hlength : vs.length = ws.length) (hdiffer : ∀ i : Nat, vs[i]? ≠ ws[i]? → n = 0 ∧ params[i]? = some x) :
    ∃ gs, FramesAlike x n (s.defineAll (params.zip vs)).frames gs ∧
      Session.defineAll { s with frames := fs } (params.zip ws) =
        { s.defineAll (params.zip vs) with frames := gs } := by
  induction params generalizing s fs vs ws with
  | nil => exact ⟨fs, h, rfl⟩
  | cons name params ih =>
    rcases vs with _ | ⟨v, vs⟩
    · obtain rfl : ws = [] := List.length_eq_zero_iff.1 hlength.symm
      exact ⟨fs, h, rfl⟩
    rcases ws with _ | ⟨w, ws⟩
    · cases hlength
    have hvalue : n = 0 ∧ name = x ∨ v = w := by
      by_cases hvw : v = w
      · exact .inr hvw
      · exact .inl ((hdiffer 0 fun h => hvw (Option.some.inj h)).imp_right Option.some.inj)
    obtain ⟨gs, hgs, hdefine⟩ := h.define hvalue
    obtain ⟨gs', hgs', hrest⟩ := ih hgs (Nat.succ.inj hlength) fun i => hdiffer (i + 1)
    refine ⟨gs', hgs', ?_⟩
    show Session.defineAll (Session.define { s with frames := fs } name w) (params.zip ws) = _
    rw [hdefine]
    exact hrest

end FramesAlike

/-! ### Evaluations -/

/-- With another value for `x` in the scope `n` calls out, the computation does the same, and the sessions that it
leads to differ in no more than that. -/
def Blind (x : String) (n : Nat) (a : ExceptT ε (StateM Session) α) : Prop :=
  ∀ (s : Session) (fs : List Scope), FramesAlike x n s.frames fs →
    ∃ gs, FramesAlike x n (a s).2.frames gs ∧ a { s with frames := fs } = ((a s).1, { (a s).2 with frames := gs })

namespace Blind

variable {x : String} {n : Nat} {ε : Type} {a : ExceptT ε (StateM Session) α}

theorem of_unframed (ha : Unframed a) : Blind x n a :=
  fun s fs hfs => ⟨fs, (ha.frames_eq s).symm ▸ hfs, ha s fs⟩

theorem pure (v : α) : Blind x n (pure v : ExceptT ε (StateM Session) α) := of_unframed (.pure v)

theorem throw (e : ε) : Blind x n (throw e : ExceptT ε (StateM Session) α) := of_unframed (.throw e)

theorem bind {k : α → ExceptT ε (StateM Session) β} (ha : Blind x n a) (hk : ∀ v, Blind x n (k v)) :
    Blind x n (a >>= k) := by
  intro s fs hfs
  obtain ⟨gs, hgs, hother⟩ := ha s fs hfs
  rw [Effect.bind_apply, Effect.bind_apply, hother]
  cases has : a s with
  | mk r t =>
    rw [has] at hgs
    cases r with
    | ok v => exact hk v t gs hgs
    | error e => exact ⟨gs, hgs, rfl⟩

theorem ite (b : Bool) {a' : ExceptT ε (StateM Session) α} (ha : Blind x n a) (ha' : Blind x n a') :
    Blind x n (if b then a else a') := by
  cases b with
  | true => exact ha
  | false => exact ha'

theorem lookup {name : String} (hname : n = 0 → name ≠ x) : Blind x n (Action.lookup name) := by
  intro s fs hfs
  unfold Action.lookup
  rw [Effect.get_bind_apply, Effect.get_bind_apply, hfs.lookup? hname]
  cases s.lookup? name with
  | some v => exact ⟨fs, hfs, rfl⟩
  | none => exact ⟨fs, hfs, rfl⟩

theorem define (name : String) (v : Value) :
    Blind x n (modify fun s => s.define name v : ExceptT ε (StateM Session) PUnit) := by
  intro s fs hfs
  obtain ⟨gs, hgs, hdefine⟩ := hfs.define (Or.inr (Eq.refl v))
  exact ⟨gs, hgs, congrArg (Prod.mk _) hdefine⟩

theorem assign (name : String) (v : Value) :
    Blind x n (modify fun s => s.assign name v : ExceptT ε (StateM Session) PUnit) := by
  intro s fs hfs
  obtain ⟨gs, hgs, hassign⟩ := hfs.assign name v
  exact ⟨gs, hgs, congrArg (Prod.mk _) hassign⟩

theorem act {b : Action α} (hb : Blind x n b) : Blind x n (Evaluation.act b) := by
  intro s fs hfs
  obtain ⟨gs, hgs, hother⟩ := hb s fs hfs
  unfold Evaluation.act
  rw [hother]
  cases hbs : b s with
  | mk r t =>
    rw [hbs] at hgs
    cases r with
    | ok v => exact ⟨gs, hgs, rfl⟩
    | error f => exact ⟨gs, hgs, rfl⟩

theorem orFault (r : Except Fault α) : Blind x n (Evaluation.act (Action.orFault r)) :=
  act (of_unframed (Action.unframed_orFault r))

theorem checkBudget (h : Host) : Blind x n (Evaluation.act (Action.checkBudget h)) :=
  act (of_unframed (Action.unframed_checkBudget h))

end Blind

/-! ### Expressions -/

/-- What runs in the scope itself does not use the name; what runs further in may. -/
def Avoids (x : String) (n : Nat) (parts : List Expr) : Prop := n = 0 → ∀ i, .identifier i ∈ parts → i.name ≠ x

section
variable {x : String} {n : Nat} {parts parts' : List Expr}

theorem Avoids.mono (h : Avoids x n parts') (hparts : parts ⊆ parts') : Avoids x n parts :=
  fun hn i hi => h hn i (hparts hi)

theorem Avoids.left (h : Avoids x n (parts ++ parts')) : Avoids x n parts := h.mono (List.subset_append_left ..)

theorem Avoids.right (h : Avoids x n (parts ++ parts')) : Avoids x n parts' := h.mono (List.subset_append_right ..)

theorem Avoids.tail {e : Expr} (h : Avoids x n (e :: parts)) : Avoids x n parts := h.mono (List.subset_cons_self ..)

end

namespace Evaluation

section
variable {h : Host} {call : Caller} {x : String} {n : Nat}

mutual

theorem blind_expr (hcall : ∀ f vs, Blind x n (call f vs)) :
    ∀ e : Expr, Avoids x n e.parts → Blind x n (expr h call e)
  | .literal _, _ => .pure _
  | .identifier i, havoids => .act (.lookup fun hn => havoids hn i (List.mem_singleton_self _))
  | .binary op l r, havoids => by
    have hr : Blind x n (expr h call r) := blind_expr hcall r havoids.tail.right
    refine (blind_expr hcall l havoids.tail.left).bind fun v => ?_
    cases op with
    | and => exact .ite _ hr (.pure _)
    | or => exact .ite _ (.pure _) hr
    | _ => exact hr.bind fun w => .orFault _
  | .unary _ e, havoids => (blind_expr hcall e havoids.tail).bind fun _ => .orFault _
  | .assign _ value, havoids =>
    (blind_expr hcall value havoids.tail).bind fun v => (Blind.assign _ v).bind fun _ => .pure v
  | .call _ callee arguments, havoids =>
    (blind_expr hcall callee havoids.tail.left).bind fun f =>
      (blind_exprs hcall arguments #[] havoids.tail.right).bind fun _ => hcall f _
  | .array elements, havoids => by
    have helements : Blind x n (exprs h call #[] elements) := blind_exprs hcall elements #[] havoids.tail
    rw [expr]
    by_cases hlong : h.limits.maxArrayLength < elements.length
    · rw [if_pos hlong]
      exact .throw _
    · rw [if_neg hlong]
      exact helements.bind fun _ => .pure _
  | .map es, havoids => (blind_entries hcall es [] havoids.tail).bind fun _ => .pure _
  | .index object key, havoids =>
    (blind_expr hcall object havoids.tail.left).bind fun _ =>
      (blind_expr hcall key havoids.tail.right).bind fun _ => .orFault _
termination_by structural e => e

theorem blind_exprs (hcall : ∀ f vs, Blind x n (call f vs)) : ∀ (es : List Expr) (before : Array Value),
    Avoids x n (Expr.listParts es) → Blind x n (exprs h call before es)
  | [], before, _ => .pure before
  | e :: es, before, havoids =>
    (blind_expr hcall e havoids.left).bind fun v => blind_exprs hcall es (before.push v) havoids.right
termination_by structural es => es

theorem blind_entries (hcall : ∀ f vs, Blind x n (call f vs)) : ∀ (es : List (String × Expr))
    (before : List (String × Value)), Avoids x n (Expr.entryParts es) → Blind x n (entries h call before es)
  | [], before, _ => .pure before
  | (key, e) :: es, before, havoids =>
    (blind_expr hcall e havoids.left).bind fun v =>
      blind_entries hcall es (Keyed.insert key v before) havoids.right
termination_by structural es => es

end

/-! ### Loops -/

theorem blind_afterRound {more : Eval Flow} (hmore : Blind x n more) (flow : Flow) :
    Blind x n (afterRound more flow) := by
  cases flow with
  | next => exact hmore
  | again => exact hmore
  | leave => exact .pure _
  | giveBack v => exact .pure _

theorem blind_whileLoop {test : Eval Value} {body : Eval Flow} (htest : Blind x n test) (hbody : Blind x n body)
    (fuel : Nat) : Blind x n (whileLoop h test body fuel) := by
  induction fuel with
  | zero => exact .throw _
  | succ fuel ih =>
    rw [whileLoop_succ]
    refine (Blind.checkBudget h).bind fun _ => htest.bind fun v => ?_
    exact .ite _ (hbody.bind (blind_afterRound ih)) (.pure _)

theorem blind_forLoop {body : Value → Eval Flow} (hbody : ∀ v, Blind x n (body v)) (items : List Value) :
    Blind x n (forLoop h body items) := by
  induction items with
  | nil => exact .pure _
  | cons item rest ih =>
    rw [forLoop_cons]
    exact (Blind.checkBudget h).bind fun _ => (hbody item).bind (blind_afterRound ih)

/-! ### Statements -/

variable {fuel : Nat}

mutual

theorem blind_stmt (hcall : ∀ f vs, Blind x n (call f vs)) :
    ∀ s : Stmt, Avoids x n (Stmt.parts s.own) → Blind x n (stmt h call fuel s)
  | .expr _ e, havoids => (blind_expr hcall e havoids.left.left).bind fun _ => .pure _
  | .bind _ name value, havoids =>
    (blind_expr hcall value havoids.left.left).bind fun v => (Blind.define name v).bind fun _ => .pure _
  | .function ⟨_, name, _, _, _⟩, _ =>
    (Blind.act (.of_unframed (Action.unframed_makeFunction _ _ _))).bind fun f =>
      (Blind.define name f).bind fun _ => .pure _
  | .cond p test yes no, havoids => by
    rw [Stmt.own, Stmt.parts, List.flatMap_cons, List.flatMap_append] at havoids
    have hyes : Blind x n (block h call fuel yes) := blind_block hcall yes havoids.right.left
    have hno : Blind x n (otherwise h call fuel no) := blind_otherwise hcall no havoids.right.right
    exact (blind_expr hcall test havoids.left.left).bind fun _ => .ite _ hyes hno
  | .whileLoop _ test body, havoids =>
    blind_whileLoop (blind_expr hcall test havoids.left.left) (blind_block hcall body havoids.right) fuel
  | .forEach _ name iterable body, havoids => by
    have hbody : Blind x n (block h call fuel body) := blind_block hcall body havoids.right
    exact (blind_expr hcall iterable havoids.left.left).bind fun v => (Blind.orFault _).bind fun items =>
      blind_forLoop (fun item => (Blind.define name item).bind fun _ => hbody) items.toList
  | .block _ body, havoids => blind_block hcall body havoids
  | .personality .., _ => .pure _
  | .giveBack _ none, _ => .pure _
  | .giveBack _ (some e), havoids => (blind_expr hcall e havoids.left.left).bind fun _ => .pure _
  | .leave _, _ => .pure _
  | .again _, _ => .pure _
termination_by structural s => s

theorem blind_block (hcall : ∀ f vs, Blind x n (call f vs)) :
    ∀ ss : List Stmt, Avoids x n (Stmt.parts (Stmt.ownList ss)) → Blind x n (block h call fuel ss)
  | [], _ => .pure _
  | s :: rest, havoids => by
    rw [Stmt.ownList, Stmt.parts, List.flatMap_append] at havoids
    have hrest : Blind x n (block h call fuel rest) := blind_block hcall rest havoids.right
    refine (blind_stmt hcall s havoids.left).bind fun flow => ?_
    cases flow with
    | next => exact hrest
    | _ => exact .pure _
termination_by structural ss => ss

theorem blind_otherwise (hcall : ∀ f vs, Blind x n (call f vs)) :
    ∀ no : Option Stmt, Avoids x n (Stmt.parts (Stmt.ownElse no)) → Blind x n (otherwise h call fuel no)
  | none, _ => .pure _
  | some s, havoids => blind_stmt hcall s havoids
termination_by structural no => no

end

/-! ### Calls -/

/-- The scope of a call is the innermost one while its body runs. -/
theorem blind_inFrame {body : Eval Flow} (hbody : Blind x (n + 1) body) {s : Session} {fs : List Scope}
    (hfs : FramesAlike x (n + 1) s.frames fs) : ∃ gs, FramesAlike x n (inFrame body s).2.frames gs ∧
      inFrame body { s with frames := fs } = ((inFrame body s).1, { (inFrame body s).2 with frames := gs }) := by
  obtain ⟨gs, hgs, hother⟩ := hbody s fs hfs
  cases hrun : body s with
  | mk r t =>
    rw [hrun] at hgs hother
    cases r with
    | ok flow =>
      rw [inFrame_ok hrun, inFrame_ok hother]
      exact ⟨gs.tail, hgs.tail, rfl⟩
    | error e =>
      rw [inFrame_error hrun, inFrame_error hother]
      exact ⟨gs.tail, hgs.tail, rfl⟩

/-- What a call begins with differs as its arguments do. -/
theorem alike_entered {f : Function} {vs ws : List Value} {s : Session} {fs : List Scope}
    (hfs : FramesAlike x n ([] :: s.frames) ([] :: fs)) (clock : Clock) (hlength : vs.length = ws.length)
    (hdiffer : ∀ i : Nat, vs[i]? ≠ ws[i]? → n = 0 ∧ f.params[i]? = some x) :
    ∃ gs, FramesAlike x n (entered f vs clock s).frames gs ∧
      entered f ws clock { s with frames := fs } = { entered f vs clock s with frames := gs } := by
  have hscope : FramesAlike x n (Session.frames { s with clock, frames := [] :: s.frames }) ([] :: fs) := hfs
  exact hscope.defineAll hlength hdiffer

theorem blind_applyWith {runBody : List Stmt → Eval Flow} (hbody : ∀ ss, Blind x (n + 1) (runBody ss)) (f : Value)
    (vs : List Value) : Blind x n (applyWith h runBody f vs) := by
  cases f with
  | builtin b => exact .act (.of_unframed (Builtin.unframed_call h b vs))
  | function f =>
    intro s fs hfs
    rcases applyWith_function h f vs.length s.clock s.depth with ⟨e, clock, hrefused⟩ | ⟨body, clock, -, -, hbegins⟩
    · rw [hrefused runBody vs s rfl rfl rfl, hrefused runBody vs { s with frames := fs } rfl rfl hfs.length_eq]
      exact ⟨fs, hfs, rfl⟩
    · obtain ⟨gs, hgs, hentered⟩ := alike_entered hfs.inner clock (Eq.refl vs.length) fun i hi => absurd rfl hi
      rw [hbegins runBody vs s rfl rfl rfl, hbegins runBody vs { s with frames := fs } rfl rfl hfs.length_eq, hentered]
      exact blind_inFrame (hbody body) hgs
  | _ => exact .throw _

/-- No call sees a variable of a call around it. -/
theorem blind_call (fuel n : Nat) (f : Value) (vs : List Value) : Blind x n (Evaluation.call h fuel f vs) := by
  induction fuel generalizing n f vs with
  | zero => exact blind_applyWith (fun _ => .throw _) f vs
  | succ fuel ih => exact blind_applyWith (fun ss => blind_block (ih (n + 1)) ss nofun) f vs

/-! ### Arguments that are not used -/

/-- A call is the same with other arguments for a parameter that the body does not use. -/
theorem applyWith_avoids {runBody : List Stmt → Eval Flow} {f : Function} {body : List Stmt} {vs ws : List Value}
    (hcode : f.body = .script body) (hblind : Blind x 0 (runBody body)) (hlength : vs.length = ws.length)
    (hdiffer : ∀ i : Nat, vs[i]? ≠ ws[i]? → f.params[i]? = some x) (s : Session) :
    applyWith h runBody (.function f) ws s = applyWith h runBody (.function f) vs s := by
  rcases applyWith_function h f vs.length s.clock s.depth with ⟨e, clock, hrefused⟩ | ⟨body', clock, hcode', -, hbegins⟩
  · rw [hrefused runBody vs s rfl rfl rfl, hrefused runBody ws s hlength.symm rfl rfl]
  · obtain rfl : body' = body := FunctionBody.script.inj (hcode'.symm.trans hcode)
    have hscope : FramesAlike x 0 ([] :: s.frames) ([] :: s.frames) := .here (.refl x [])
    obtain ⟨gs, hgs, hentered⟩ := alike_entered hscope clock hlength fun i hi => ⟨rfl, hdiffer i hi⟩
    rw [hbegins runBody vs s rfl rfl rfl, hbegins runBody ws s hlength.symm rfl rfl]
    have hsame : entered f ws clock s = { entered f vs clock s with frames := gs } := hentered
    obtain ⟨gs', hgs', hother⟩ := hblind _ gs hgs
    rw [hsame]
    cases hrun : runBody body' (entered f vs clock s) with
    | mk r t =>
      rw [hrun] at hgs' hother
      have hpop : Session.pop { t with frames := gs' } = t.pop :=
        congrArg (fun fs => { t with frames := fs }) hgs'.tail_eq.symm
      cases r with
      | ok flow => rw [inFrame_ok hrun, inFrame_ok hother, hpop]
      | error e => rw [inFrame_error hrun, inFrame_error hother, hpop]

theorem call_avoids {f : Function} {body : List Stmt} {vs ws : List Value} (hcode : f.body = .script body)
    (havoids : ∀ i ∈ Stmt.uses body, i.name ≠ x) (hlength : vs.length = ws.length)
    (hdiffer : ∀ i : Nat, vs[i]? ≠ ws[i]? → f.params[i]? = some x) (fuel : Nat) (s : Session) :
    Evaluation.call h fuel (.function f) ws s = Evaluation.call h fuel (.function f) vs s := by
  cases fuel with
  | zero => exact applyWith_avoids hcode (.throw _) hlength hdiffer s
  | succ fuel =>
    refine applyWith_avoids hcode (blind_block (blind_call fuel 0) body fun _ i hi => ?_) hlength hdiffer s
    obtain ⟨s, hs, hpart⟩ := List.mem_flatMap.1 hi
    obtain ⟨e, he, hpart⟩ := List.mem_flatMap.1 hpart
    refine havoids i (List.mem_flatMap.2 ⟨s, hs, List.mem_flatMap.2 ⟨e, he, ?_⟩⟩)
    exact List.mem_filterMap.2 ⟨.identifier i, hpart, rfl⟩

end

end Evaluation

end Persona
