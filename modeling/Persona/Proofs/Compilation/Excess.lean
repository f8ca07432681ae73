import Mathlib
import Persona.Proofs.Analysis.Scopes
import Persona.Proofs.Compilation.Layout
import Persona.Proofs.Evaluation.Flow
import Persona.Proofs.Fault

/-! Why a parsed program may have no bytecode.

The compiler keeps track of loops, functions and blocks by itself and has errors for statements that stand where
they may not, and for function statements without a body. None of these is left once the parser has accepted a
program: what is left is that something is too long. A run keeps track of loops in its own way, by the flows that
statements hand on, and agrees. -/
namespace Persona

open Compilation

/-- Something in the statements is too long to be compiled. -/
inductive Excess (ss : List Stmt) : CompileError → Prop
  | arguments {place callee arguments} : .call place callee arguments ∈ Stmt.parts ss → 255 < arguments.length →
    Excess ss (.tooManyArguments place arguments.length)
  | parameters {d} : .function d ∈ ss → 255 < d.params.length →
    Excess ss (.tooManyParameters d.place d.params.length)
  | traits {place entries} : .personality place entries ∈ ss → 255 < entries.length →
    Excess ss (.tooManyTraits entries.length)
  | jump {owner distance} : distance < -32768 ∨ 32767 < distance → Excess ss (.jumpTooFar owner distance)

namespace Compilation

variable {pool : Pool} {ss : List Stmt}

/-! ### Expressions -/

theorem fails_jumpBy {owner : JumpOwner} {make : Int → Instruction} {distance : Int} :
    Fails (Excess ss) (jumpBy owner make distance) := by
  unfold jumpBy
  split
  · exact fails_ok _
  · next hfits =>
    simp only [Instruction.fitsJump, Bool.and_eq_true, decide_eq_true_eq, not_and_or, Int.not_le, Int.not_lt] at hfits
    exact fails_error (.jump (hfits.imp_right fun h => by omega))

mutual

theorem fails_expr : ∀ e : Expr, e.parts ⊆ Stmt.parts ss → Fails (Excess ss) (expr pool e)
  | .literal _, _ | .identifier _, _ => fails_ok _
  | .binary op l r, h => by
    obtain ⟨-, h⟩ := List.cons_subset.1 h
    obtain ⟨hl, hr⟩ := List.append_subset.1 h
    cases op with
    | and | or =>
      exact (fails_expr l hl).bind fun _ => (fails_expr r hr).bind fun _ => fails_jumpBy.bind fun _ => fails_ok _
    | _ => exact (fails_expr l hl).bind fun _ => (fails_expr r hr).bind fun _ => fails_ok _
  | .unary _ e, h | .assign _ e, h => (fails_expr e (List.cons_subset.1 h).2).bind fun _ => fails_ok _
  | .call place callee arguments, h => by
    obtain ⟨hcall, h⟩ := List.cons_subset.1 h
    obtain ⟨hcallee, harguments⟩ := List.append_subset.1 h
    rw [expr]
    split
    · next hmax => exact fails_error (.arguments hcall hmax)
    · exact (fails_expr callee hcallee).bind fun _ => (fails_exprs arguments harguments).bind fun _ => fails_ok _
  | .array elements, h => (fails_exprs elements (List.cons_subset.1 h).2).bind fun _ => fails_ok _
  | .map es, h => (fails_entries es (List.cons_subset.1 h).2).bind fun _ => fails_ok _
  | .index object key, h => by
    obtain ⟨-, h⟩ := List.cons_subset.1 h
    obtain ⟨hobject, hkey⟩ := List.append_subset.1 h
    exact (fails_expr object hobject).bind fun _ => (fails_expr key hkey).bind fun _ => fails_ok _
termination_by structural e => e

theorem fails_exprs : ∀ es : List Expr, Expr.listParts es ⊆ Stmt.parts ss → Fails (Excess ss) (exprs pool es)
  | [], _ => fails_ok _
  | e :: es, h => by
    obtain ⟨he, hes⟩ := List.append_subset.1 h
    exact (fails_expr e he).bind fun _ => (fails_exprs es hes).bind fun _ => fails_ok _
termination_by structural es => es

theorem fails_entries : ∀ es : List (String × Expr), Expr.entryParts es ⊆ Stmt.parts ss →
    Fails (Excess ss) (entries pool es)
  | [], _ => fails_ok _
  | (_, value) :: es, h => by
    obtain ⟨hvalue, hes⟩ := List.append_subset.1 h
    exact (fails_expr value hvalue).bind fun _ => (fails_entries es hes).bind fun _ => fails_ok _
termination_by structural es => es

end

theorem fails_dropped (e : Expr) (h : e.parts ⊆ Stmt.parts ss) : Fails (Excess ss) (dropped pool e) := by
  cases e with
  | call place callee arguments =>
    obtain ⟨hcall, h⟩ := List.cons_subset.1 h
    obtain ⟨hcallee, harguments⟩ := List.append_subset.1 h
    rw [dropped]
    split
    · next hmax => exact fails_error (.arguments hcall hmax)
    · exact (fails_expr callee hcallee).bind fun _ => (fails_exprs arguments harguments).bind fun _ => fails_ok _
  | _ => exact (fails_expr _ h).bind fun _ => fails_ok _

/-! ### Statements -/

theorem fails_fillExits {place : Coordinate} {behind : Nat} {code : Code} :
    Fails (Excess ss) (fillExits place behind code) := by
  induction code with
  | nil => exact fails_ok _
  | cons p rest ih =>
    cases p with
    | instr i => exact ih.bind fun _ => fails_ok _
    | exit => exact fails_jumpBy.bind fun _ => ih.bind fun _ => fails_ok _

theorem fails_loopCode {keyword : String} {place : Coordinate} {test : Code} {exit : Int → Instruction}
    {body tail : Code} : Fails (Excess ss) (loopCode keyword place test exit body tail) :=
  fails_jumpBy.bind fun _ => fails_jumpBy.bind fun _ => fails_fillExits.bind fun _ => fails_ok _

/-- With this many entries at least, errors are of a sort, and no more of them are taken. -/
def Takes (F : CompileError → Prop) (need : Nat) (x : Emit α) : Prop :=
  ∀ es, need ≤ es.length → Fails F (x.run es) ∧ ∀ a es', x.run es = .ok (a, es') → es.length ≤ es'.length + need

section
variable {F : CompileError → Prop} {m n : Nat}

theorem takes_lift {x : Except CompileError α} (hx : Fails F x) : Takes F 0 (liftM x : Emit α) := by
  intro es _
  refine ⟨hx.bind fun _ => fails_ok _, fun a es' h => ?_⟩
  obtain ⟨-, rfl⟩ := run_lift_ok.1 h
  exact Nat.le_refl _

theorem takes_pure (a : α) : Takes F 0 (pure a : Emit α) := takes_lift (fails_ok a)

theorem takes_throw {e : CompileError} (he : F e) : Takes F n (throw e : Emit α) :=
  fun _ _ => ⟨fails_error he, fun _ _ h => absurd h run_throw_ok⟩

theorem Takes.bind {x : Emit α} {f : α → Emit β} (hx : Takes F m x) (hf : ∀ a, Takes F n (f a)) :
    Takes F (m + n) (x >>= f) := by
  intro es hes
  obtain ⟨hfails, hrest⟩ := hx es (by omega)
  constructor
  · rw [StateT.run_bind]
    cases hrun : x.run es with
    | error e => exact fails_error (hfails e hrun)
    | ok r =>
      have hleft := hrest r.1 r.2 hrun
      exact (hf r.1 r.2 (by omega)).1
  · intro b es' h
    obtain ⟨a, mid, hrun, hnext⟩ := run_bind_ok.1 h
    have hleft := hrest a mid hrun
    have hlast := (hf a mid (by omega)).2 b es' hnext
    omega

theorem Takes.bind_zero {x : Emit α} {f : α → Emit β} (hx : Takes F n x) (hf : ∀ a, Takes F 0 (f a)) :
    Takes F n (x >>= f) :=
  hx.bind hf

/-- What is compiled first takes no entry. -/
theorem takes_lift_bind {x : Except CompileError α} {f : α → Emit β} (hx : Fails F x) (hf : ∀ a, Takes F n (f a)) :
    Takes F n (liftM x >>= f) :=
  Nat.zero_add n ▸ (takes_lift hx).bind hf

theorem takes_takeEntry (place : Coordinate) : Takes F 1 (takeEntry place) := by
  intro es hes
  cases es with
  | nil => simp at hes
  | cons entry rest =>
    refine ⟨fails_ok _, fun a es' h => ?_⟩
    cases h
    exact Nat.le_refl _

end

/-- The compiler's view of where it is agrees with the parser's. -/
structure Surroundings.Agrees (around : Surroundings) (inBlock inLoop : Bool) : Prop where
  block : (around.inFunction || around.inBlock) = inBlock
  loop : around.sinceLoop.isSome = inLoop

section
variable {around : Surroundings} {inBlock inLoop : Bool}

theorem Surroundings.Agrees.after (h : around.Agrees inBlock inLoop) (code : Code) :
    (around.after code).Agrees inBlock inLoop :=
  ⟨h.block, by simpa [Surroundings.after] using h.loop⟩

theorem Surroundings.Agrees.inner (h : around.Agrees inBlock inLoop) :
    { around with inBlock := true : Surroundings }.Agrees true inLoop :=
  ⟨Bool.or_true _, h.loop⟩

theorem Surroundings.Agrees.branch (h : around.Agrees inBlock inLoop) (test : Code) :
    (around.branch test).Agrees true inLoop :=
  ((h.after test).after [.exit]).inner

theorem agrees_function : Surroundings.Agrees ⟨true, false, none⟩ true false := ⟨rfl, rfl⟩

theorem agrees_program : Surroundings.Agrees ⟨false, false, none⟩ false false := ⟨rfl, rfl⟩

theorem agrees_round (inFunction : Bool) (n : Nat) : Surroundings.Agrees ⟨inFunction, true, some n⟩ true true :=
  ⟨Bool.or_true _, rfl⟩

end

mutual

/-- A statement that is allowed where it is compiled gets by with an entry for each function that it declares. -/
theorem takes_stmt {inBlock inLoop : Bool} : ∀ (s : Stmt) {around : Surroundings},
    around.Agrees inBlock inLoop → s.Allowed inBlock inLoop → s.deep ⊆ ss →
    Takes (Excess ss) s.declared.length (stmt pool around s)
  | .expr place e, _, _, _, h =>
    takes_lift (fails_dropped e (Stmt.parts_subset (h (List.mem_singleton_self _)) (List.mem_singleton_self e)))
  | .bind place name e, _, _, _, h | .giveBack place (some e), _, _, _, h => by
    have he : Fails (Excess ss) (expr pool e) :=
      fails_expr e (Stmt.parts_subset (h (List.mem_singleton_self _)) (List.mem_singleton_self e))
    exact takes_lift_bind he fun _ => takes_pure _
  | .function ⟨place, name, params, returnType, body⟩, _, _, _, h => by
    rw [stmt]
    split
    · next hmax => exact takes_throw (.parameters (h (List.mem_cons_self ..)) hmax)
    · exact (takes_takeEntry place).bind fun _ => takes_pure _
  | .cond place test yes none, _, haround, hs, h => by
    obtain ⟨hsite, h⟩ := List.cons_subset.1 h
    have htest : Fails (Excess ss) (expr pool test) :=
      fails_expr test (Stmt.parts_subset hsite (List.mem_singleton_self test))
    rw [Stmt.declared_cond, Stmt.declaredElse_none, List.append_nil]
    refine takes_lift_bind htest fun test => ?_
    refine (takes_stmts yes (haround.branch test) hs.1 (List.append_subset.1 h).1).bind_zero fun _ => ?_
    exact takes_lift_bind fails_jumpBy fun _ => takes_pure _
  | .cond place test yes (some no), _, haround, hs, h => by
    obtain ⟨hsite, h⟩ := List.cons_subset.1 h
    have htest : Fails (Excess ss) (expr pool test) :=
      fails_expr test (Stmt.parts_subset hsite (List.mem_singleton_self test))
    rw [Stmt.declared_cond, List.length_append]
    refine takes_lift_bind htest fun test => ?_
    have hinner := haround.branch test
    refine (takes_stmts yes hinner hs.1 (List.append_subset.1 h).1).bind fun yes => ?_
    refine takes_lift_bind fails_jumpBy fun _ => ?_
    refine (takes_stmt no ((hinner.after yes).after [.exit]) hs.2 (List.append_subset.1 h).2).bind_zero fun _ => ?_
    exact takes_lift_bind fails_jumpBy fun _ => takes_pure _
  | .whileLoop place test body, _, _, hs, h => by
    obtain ⟨hsite, h⟩ := List.cons_subset.1 h
    have htest : Fails (Excess ss) (expr pool test) :=
      fails_expr test (Stmt.parts_subset hsite (List.mem_singleton_self test))
    rw [Stmt.declared_while]
    refine takes_lift_bind htest fun test => ?_
    exact (takes_stmts body (agrees_round _ _) hs h).bind_zero fun _ => takes_lift fails_loopCode
  | .forEach place name iterable body, _, _, hs, h => by
    obtain ⟨hsite, h⟩ := List.cons_subset.1 h
    have he : Fails (Excess ss) (expr pool iterable) :=
      fails_expr iterable (Stmt.parts_subset hsite (List.mem_singleton_self iterable))
    rw [Stmt.declared_for]
    refine takes_lift_bind he fun iterable => ?_
    refine (takes_stmts body (agrees_round _ _) hs h).bind_zero fun _ => ?_
    exact takes_lift_bind fails_loopCode fun _ => takes_pure _
  | .block place body, _, haround, hs, h => by
    rw [Stmt.declared_block]
    exact takes_stmts body haround.inner hs (List.cons_subset.1 h).2
  | .personality place entries, around, haround, hs, _ => by
    have htop : (around.inFunction || around.inBlock) = false := haround.block.trans hs
    simp only [stmt, htop]
    exact takes_pure []
  | .giveBack place none, _, _, _, _ => takes_pure _
  | .leave place, _, haround, hs, _ => by
    rw [stmt, if_pos (haround.loop.trans hs)]
    exact takes_pure _
  | .again place, _, haround, hs, _ => by
    obtain ⟨n, hn⟩ := Option.isSome_iff_exists.1 (haround.loop.trans hs)
    simp only [stmt, hn]
    exact takes_lift fails_jumpBy
termination_by structural s => s

theorem takes_stmts {inBlock inLoop : Bool} : ∀ (rest : List Stmt) {around : Surroundings} {before : List Code},
    around.Agrees inBlock inLoop → Stmt.AllowedList inBlock inLoop rest → Stmt.deepList rest ⊆ ss →
    Takes (Excess ss) (Stmt.declaredIn rest).length (stmts pool around before rest)
  | [], _, _, _, _, _ => takes_pure _
  | s :: rest, _, _, haround, hs, h => by
    obtain ⟨hfirst, hrest⟩ := List.append_subset.1 h
    rw [Stmt.declaredIn_cons, List.length_append]
    refine (takes_stmt s haround hs.1 hfirst).bind fun code => ?_
    exact takes_stmts rest (haround.after code) hs.2 hrest
termination_by structural rest => rest

end

/-! ### Programs -/

theorem fails_addBody {d : FunctionDecl} {inner : List Nat} {b : Bodies} (hd : Stmt.AllowedList true false d.body)
    (h : Stmt.deepList d.body ⊆ ss) (hinner : (Stmt.declaredIn d.body).length ≤ inner.length) :
    Fails (Excess ss) (addBody pool d inner b) :=
  Fails.bind (takes_stmts d.body agrees_function hd h inner hinner).1 fun _ => fails_ok _

mutual

/-- The functions inside a function have their bodies, and so their entries, before its own is compiled. -/
theorem fails_bodies : ∀ (s : Stmt) {b : Bodies}, pool.CoversStmt s →
    (∀ d, .function d ∈ s.deep → Stmt.AllowedList true false d.body) → s.deep ⊆ ss →
    Fails (Excess ss) (bodies pool s b)
  | .function ⟨place, name, params, returnType, body⟩, b, hc, hs, h => by
    have hbody := hs _ (List.mem_cons_self ..)
    obtain ⟨-, h⟩ := List.cons_subset.1 h
    rw [bodies]
    refine Fails.bind_of_ok (fails_bodiesOf body hc.2.2 (fun d hd => Stmt.allowed_deepList body hbody d hd) h) ?_
    intro inner hinner
    obtain ⟨codes, t, es, -, -, hentries, hlength, -⟩ := (bodiesOf_adds body hc.2.2 hinner).laid
    refine fails_addBody hbody h ?_
    simp [hentries, hlength]
  | .cond _ _ yes no, b, hc, hs, h => by
    obtain ⟨-, h⟩ := List.cons_subset.1 h
    obtain ⟨hyes, hno⟩ := List.append_subset.1 h
    rw [bodies]
    refine (fails_bodiesOf yes hc.2.1 (fun d hd => hs d ?_) hyes).bind fun _ => ?_
    · exact List.mem_cons_of_mem _ (List.mem_append_left _ hd)
    · exact fails_bodiesElse no hc.2.2 (fun d hd => hs d (List.mem_cons_of_mem _ (List.mem_append_right _ hd))) hno
  | .whileLoop _ _ body, b, hc, hs, h =>
    fails_bodiesOf body hc.2 (fun d hd => hs d (List.mem_cons_of_mem _ hd)) (List.cons_subset.1 h).2
  | .forEach _ _ _ body, b, hc, hs, h =>
    fails_bodiesOf body hc.2.2 (fun d hd => hs d (List.mem_cons_of_mem _ hd)) (List.cons_subset.1 h).2
  | .block _ body, b, hc, hs, h =>
    fails_bodiesOf body hc (fun d hd => hs d (List.mem_cons_of_mem _ hd)) (List.cons_subset.1 h).2
  | .expr .., _, _, _, _ | .bind .., _, _, _, _ | .personality .., _, _, _, _ | .giveBack .., _, _, _, _
  | .leave _, _, _, _, _ | .again _, _, _, _, _ => fails_ok _
termination_by structural s => s

theorem fails_bodiesOf : ∀ (rest : List Stmt) {b : Bodies}, pool.CoversStmts rest →
    (∀ d, .function d ∈ Stmt.deepList rest → Stmt.AllowedList true false d.body) → Stmt.deepList rest ⊆ ss →
    Fails (Excess ss) (bodiesOf pool rest b)
  | [], _, _, _, _ => fails_ok _
  | s :: rest, b, hc, hs, h => by
    obtain ⟨hfirst, hrest⟩ := List.append_subset.1 h
    rw [bodiesOf]
    refine (fails_bodies s hc.1 (fun d hd => hs d ?_) hfirst).bind fun _ => ?_
    · exact List.mem_append_left _ hd
    · exact fails_bodiesOf rest hc.2 (fun d hd => hs d (List.mem_append_right _ hd)) hrest
termination_by structural rest => rest

theorem fails_bodiesElse : ∀ (no : Option Stmt) {b : Bodies}, pool.CoversElse no →
    (∀ d, .function d ∈ Stmt.deepElse no → Stmt.AllowedList true false d.body) → Stmt.deepElse no ⊆ ss →
    Fails (Excess ss) (bodiesElse pool no b)
  | none, _, _, _, _ => fails_ok _
  | some s, _, hc, hs, h => fails_bodies s hc hs h
termination_by structural no => no

end

theorem fails_personalityCode (blocks : List (List TraitEntry))
    (h : ∀ entries ∈ blocks, ∃ place, .personality place entries ∈ ss) :
    Fails (Excess ss) (personalityCode pool blocks) := by
  induction blocks with
  | nil => exact fails_ok _
  | cons block rest ih =>
    obtain ⟨⟨place, hblock⟩, hrest⟩ := List.forall_mem_cons.1 h
    rw [personalityCode]
    split
    · next hmax => exact fails_error (.traits hblock hmax)
    · exact (ih hrest).bind fun _ => fails_ok _

/-- Statements that stand where they may compile unless something is too long. -/
theorem fails_compile {p : Program} (hp : Stmt.AllowedList false false p.statements) :
    Fails (Excess (Stmt.deepList p.statements)) (compile p) := by
  have hcovers := Pool.covers_ofProgram p
  refine Fails.bind_of_ok (fails_bodiesOf _ hcovers (Stmt.allowed_deepList _ hp) (List.Subset.refl _)) fun b hb => ?_
  obtain ⟨codes, t, es, -, -, hentries, hlength, -⟩ := (bodiesOf_adds p.statements hcovers hb).laid
  refine (fails_personalityCode _ ?_).bind fun _ => ?_
  · intro entries hentries
    obtain ⟨s, hs, heq⟩ := List.mem_filterMap.1 hentries
    cases s with
    | personality place traits =>
      cases heq
      exact ⟨place, Stmt.mem_deepList_of_mem hs⟩
    | _ => cases heq
  · refine Fails.bind (takes_stmts p.statements agrees_program hp (List.Subset.refl _) _ ?_).1 fun _ => fails_ok _
    simp [hentries, hlength]

end Compilation

/-! ### Runs -/

namespace Evaluation

variable {h : Host} {fuel : Nat} {p : Program} {s : Session} {m : Moment}

/-- What is left of the statements of the program is allowed at the top level. -/
theorem allowed_of_reaches (hp : Stmt.AllowedList false false p.statements) (hm : Reaches h fuel p s m)
    {ss : List Stmt} (hss : m.task = .topLevel ss) : Stmt.AllowedList false false ss := by
  induction hm generalizing ss with
  | start =>
    cases hss
    exact hp
  | leads _ hnext ih =>
    cases hnext with
    | enter => cases hss
    | part hpart =>
      cases hpart with
      | topRest =>
        cases hss
        exact (ih rfl).2
      | _ => cases hss

end Evaluation

/-- Once the parser has accepted a program, the compiler fails only if something is too long. And in every run of
it, no statement of the program hands a `break` or a `continue` on to the program, and no body of a function that is
called hands one on to the call. -/
theorem contexts_agree {limit : Nat} {ts : List Token} {p : Program} (hparse : parse limit ts = .ok p) :
    (∀ e, compile p = .error e → Excess (Stmt.deepList p.statements) e) ∧
    ∀ {h : Host} {fuel : Nat} {profile : Profile} {clock : Clock} {m : Evaluation.Moment},
      Evaluation.Reaches h fuel p (.start h profile clock) m →
      (∀ s rest flow t, m.task = .topLevel (s :: rest) →
        Evaluation.stmt h (Evaluation.call h m.fuel) m.fuel s m.session = (.ok flow, t) → flow.Settled) ∧
      ∀ f body vs, m.task = .apply (.function f) vs → f.body = .script body →
        ∀ call fuel s flow t, Evaluation.block h call fuel body s = (.ok flow, t) → flow.Settled := by
  have hallowed := Parser.allowed_of_parse hparse
  refine ⟨fails_compile hallowed, fun {h fuel profile clock m} hm => ⟨?_, ?_⟩⟩
  · intro s rest flow t htask hrun
    have hs := Evaluation.allowed_of_reaches hallowed hm htask
    exact Evaluation.settled_of_settles (Evaluation.settles_stmt s hs.1) hrun
  · intro f body vs htask hbody call fuel s flow t hrun
    obtain ⟨-, -, hpermits⟩ := Program.scoped_of_reaches hm
    rw [htask] at hpermits
    obtain ⟨d, hd, hmakes⟩ := hpermits.1 f (List.mem_singleton_self f)
    obtain rfl : d.body = body := by simpa [hmakes.body] using hbody
    have hallowedBody := Stmt.allowed_deepList _ hallowed d (Stmt.mem_functions.1 hd)
    exact Evaluation.settled_of_settles (Evaluation.settles_block d.body hallowedBody) hrun

/-- A function with a loop that ends at once, and a call of it. -/
def brokenLoop : Program :=
  ⟨[.function ⟨⟨1, 1⟩, "f", [], none, [.whileLoop ⟨1, 10⟩ (.literal (.bool true)) [.leave ⟨1, 23⟩]]⟩,
    .expr ⟨1, 33⟩ (.call ⟨1, 33⟩ (.identifier ⟨"f", ⟨1, 33⟩⟩) [])]⟩

theorem contexts_agree_brokenLoop : ∃ ts f m, tokenize "fn f() \x7b while true \x7b break \x7d \x7d f()" = .ok ts ∧
    parse 5 ts = .ok brokenLoop ∧ (∀ e, compile brokenLoop = .error e → Excess (Stmt.deepList brokenLoop.statements) e) ∧
    Evaluation.Reaches {} 1 brokenLoop (.start {} .default none) m ∧ m.task = .apply (.function f) [] ∧
    f.body = .script [.whileLoop ⟨1, 10⟩ (.literal (.bool true)) [.leave ⟨1, 23⟩]] ∧
    ∀ call fuel s flow t, Evaluation.block {} call fuel
      [.whileLoop ⟨1, 10⟩ (.literal (.bool true)) [.leave ⟨1, 23⟩]] s = (.ok flow, t) → flow.Settled := by
  obtain ⟨ts, htokens, hparse⟩ : ∃ ts, tokenize "fn f() \x7b while true \x7b break \x7d \x7d f()" = .ok ts ∧
      parse 5 ts = .ok brokenLoop := ⟨_, by cbv, by cbv⟩
  obtain ⟨hcompile, hruns⟩ := contexts_agree hparse
  have hstart : Evaluation.Reaches {} 1 brokenLoop (.start {} .default none) _ := .start rfl
  have hcall := ((hstart.leads (.part (.topRest rfl (by simp)))).leads (.part .topFirst)).leads (.part .expression)
  have happly := hcall.leads (.part (.application rfl rfl))
  exact ⟨ts, _, _, htokens, hparse, hcompile, happly, rfl, rfl, (hruns happly).2 _ _ _ rfl rfl⟩

end Persona
