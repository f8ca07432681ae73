import Persona.Proofs.Simulation.Loop

/-! Statements.

The code of a statement does what the statement does: it ends behind itself, at an end of
the loop around it, or where a value is given back. The induction is on the statement; the
calls inside it have the fuel that its loops have. -/
namespace Persona.Simulation

open Compilation (Piece Surroundings LoopMarked size expr dropped returnCode functionCode stmt stmts
  size_append size_cons size_nil Supplies supplies_append stmt_entries stmts_entries)
open Machine (Steps step deliver)

section
variable {L : Linked} {k : Nat} {call : Caller} {around : Surroundings} {start stop off next : Nat}
  {st : Stack} {frames : List CallFrame} {s u : Session} {m : Machine} {code : Compilation.Code}

/-! ### Ends of statements -/

/-- A value on the stack is bound to a name. -/
theorem follows_define {name : String} (hname : L.pool.Binds name)
    (hplaced : Placed L.code stop off [.instr (L.binding name)])
    (hnext : off + size [.instr (L.binding name)] = next) {v : Value}
    (hpushes : L.Pushes off st frames v s m) :
    Follows L.host L.code L.clock k m (do modify fun s => s.define name v; return Flow.next) s
      (L.Goes around start stop next st frames) := by
  obtain ⟨w, hw, u, htwin, rfl⟩ := hpushes
  subst hnext
  have hstep := Machine.step_defineVar (h := L.host) (m := ⟨off, st.push w, frames, u⟩) hplaced.fetch
    (Linked.constant_string hname.1) (Stack.values_push st w)
  exact .step hstep (.done rfl ⟨_, htwin.define hw hname.2, rfl⟩)

theorem grows_define (name : String) (v : Value) :
    Eval.Grows (do modify fun s => s.define name v; return Flow.next) :=
  (Eval.Grows.modify fun s => (Session.Before.refl s).define name v).bind fun _ => Eval.Grows.pure _

/-! ### Forms of statements -/

theorem runs_expr (hp : Performs L k call) {e : Expr} (hc : L.pool.CoversExpr e)
    (h : dropped L.pool e = .ok code) :
    L.Runs k around code (do let _ ← Evaluation.expr L.host call e; return .next) := by
  intro start stop off next st frames s u hplaced hnext _ _ htwin
  refine (follows_dropped hp hc h hplaced hnext htwin).bind (fun _ => Eval.Grows.pure _) ?_
  exact fun _ s m hat => .done rfl hat

theorem runs_bind {name : String} (hname : L.pool.Binds name) {x : Eval Value}
    (hx : L.Computes k code x) :
    L.Runs k around (code ++ [.instr (L.binding name)])
      (do let v ← x; modify fun s => s.define name v; return .next) := by
  intro start stop off next st frames s u hplaced hnext _ _ htwin
  rw [size_append, ← Nat.add_assoc] at hnext
  refine (hx hplaced.left rfl htwin).bind (grows_define name) ?_
  exact fun v s m hpushes => follows_define hname hplaced.right hnext hpushes

/-- A function statement makes the function of its entry. -/
theorem runs_function {d : FunctionDecl} (hc : L.pool.CoversStmt (.function d)) {entry : Nat}
    (hentry : (entry, d.body) ∈ L.table) :
    L.Runs k around (functionCode L.pool d entry) (do
      let f ← Evaluation.act (Action.makeFunction d.name (d.params.map (·.name)) (.script d.body))
      modify fun s => s.define d.name f
      return .next) := by
  obtain ⟨place, name, params, returnType, body⟩ := d
  obtain ⟨hname, hparams, -⟩ := hc
  have hbound : ∀ name ∈ params.map (·.name), name ∈ L.pool.bound := by
    rw [List.forall_mem_map]
    exact fun p hp => (hparams p hp).2
  refine runs_bind hname (computes_instr (mirrors_makeFunction L.increase hentry _ hbound) ?_)
  intro m next hfetch
  refine @Machine.step_makeFunction L.host L.code m next (fun name => L.pool.indexOf (.string name)) _ _ _ ?_
    (Linked.constant_string hname.1) ?_
  · rw [List.map_map]
    exact hfetch
  · rw [List.forall_mem_map]
    exact fun p hp => Linked.constant_string (hparams p hp).1

/-- The code of a test chooses between what follows it and what its jump leads to. -/
theorem follows_cond {x : Eval Value} {test more : Compilation.Code} {y n : Eval Flow} {d : Int}
    {target : Nat} (hx : L.Computes k test x) (hgy : y.Grows) (hgn : n.Grows)
    (hplaced : Placed L.code stop off (test ++ .instr (.jumpIfFalse d) :: more))
    (htarget : ((off + size test + 3 : Nat) : Int) + d = target) (hle : target ≤ L.code.length)
    (htwin : Twin L.pool L.table L.clock s u) {post : Flow → Session → Machine → Prop}
    (hyes : ∀ {s u}, Twin L.pool L.table L.clock s u →
      Follows L.host L.code L.clock k ⟨off + size test + 3, st, frames, u⟩ y s post)
    (hno : ∀ {s u}, Twin L.pool L.table L.clock s u →
      Follows L.host L.code L.clock k ⟨target, st, frames, u⟩ n s post) :
    Follows L.host L.code L.clock k ⟨off, st, frames, u⟩ (do let v ← x; if v.isTruthy then y else n) s post := by
  refine (hx hplaced.left rfl htwin).bind (fun v => Evaluation.grows_ite hgy hgn) ?_
  rintro v s m ⟨w, hw, u, htwin, rfl⟩
  refine (Linked.follows_test (k := k) hw hplaced.right.fetch htarget hle ?_ ?_).mono
    (Nat.le_add_left k 1)
  · intro htruthy
    rw [if_pos htruthy]
    exact hyes htwin
  · intro hfalsy
    rw [hfalsy]
    exact hno htwin

theorem runs_when {x : Eval Value} {y : Eval Flow} {test yes : Compilation.Code} (hx : L.Computes k test x)
    (hy : L.Runs k (around.branch test) yes y) (hgy : y.Grows) :
    L.Runs k around (test ++ .instr (.jumpIfFalse (size yes)) :: yes)
      (do let v ← x; if v.isTruthy then y else pure .next) := by
  intro start stop off next st frames s u hplaced hnext hloop htime htwin
  have hend := hplaced.end_le
  have hbranch := hplaced.right.tail
  simp only [size_append, size_cons, Piece.size_instr, Compilation.size_jumpIfFalse] at hnext hend hbranch
  have htarget : ((off + size test + 3 : Nat) : Int) + size yes = next := by omega
  have hbehind : off + size test + 3 + size yes = next := by omega
  refine follows_cond hx hgy (Eval.Grows.pure _) hplaced htarget (by omega) htwin ?_ fun htwin =>
    .done rfl ⟨_, htwin, rfl⟩
  intro s u htwin
  have htime := Compilation.isSome_branch around test ▸ htime
  refine (hy hbranch hbehind (hloop.branch test) htime htwin).imp fun flow s m hgoes => ?_
  exact hgoes.imp rfl (Compilation.isSome_branch around test)

/-- Behind its first branch a conditional jumps over the second. -/
theorem runs_either {x : Eval Value} {y n : Eval Flow} {test yes no : Compilation.Code} (hx : L.Computes k test x)
    (hy : L.Runs k (around.branch test) yes y) (hn : L.Runs k (((around.branch test).after yes).after [.exit]) no n)
    (hgy : y.Grows) (hgn : n.Grows) :
    L.Runs k around (test ++ .instr (.jumpIfFalse (size yes + 3)) :: (yes ++ .instr (.jump (size no)) :: no))
      (do let v ← x; if v.isTruthy then y else n) := by
  intro start stop off next st frames s u hplaced hnext hloop htime htwin
  have hend := hplaced.end_le
  have hbranch := hplaced.right.tail
  have hjump := hbranch.right
  have hother := hjump.tail
  have hloopYes := hloop.branch test
  have hloopNo := (hloopYes.after yes).after [.exit]
  simp only [size_append, size_cons, Piece.size_instr, Compilation.size_jumpIfFalse,
    Compilation.size_jump] at hnext hend hbranch hjump hother
  have htarget : ((off + size test + 3 : Nat) : Int) + (size yes + 3) =
      (off + size test + 3 + size yes + 3 : Nat) := by omega
  have hbehind : off + size test + 3 + size yes + 3 + size no = next := by omega
  refine follows_cond hx hgy hgn hplaced htarget (by omega) htwin ?_ ?_
  · intro s u htwin
    have htime := Compilation.isSome_branch around test ▸ htime
    refine (hy hbranch.left rfl hloopYes htime htwin).next fun flow s m hgoes => ?_
    cases flow with
    | next =>
      obtain ⟨u, htwin, rfl⟩ := hgoes
      have htarget : ((off + size test + 3 + size yes + 3 : Nat) : Int) + size no = next := by omega
      exact (Linked.follows_jump (k := k) hjump.fetch htarget (by omega) (.inl (by omega)) htwin
        (.done rfl ⟨u, htwin, rfl⟩)).mono (Nat.le_add_left k 1)
    | _ => exact .done rfl (hgoes.imp rfl (Compilation.isSome_branch around test))
  · intro s u htwin
    have htime := (Compilation.isSome_otherwise around test yes).symm ▸ htime
    refine (hn hother hbehind hloopNo htime htwin).imp fun flow s m hgoes => ?_
    exact hgoes.imp rfl (Compilation.isSome_otherwise around test yes)

theorem runs_while {x : Eval Value} {y : Eval Flow} {test body loop : Compilation.Code} {place : Coordinate}
    (hx : L.Computes k test x) (hy : L.Runs k ⟨around.inFunction, true, some (size test + 3)⟩ body y) (hgx : x.Grows)
    (hgy : y.Grows) (hloop : Compilation.loopCode "while" place test .jumpIfFalse body [] = .ok loop) :
    L.Runs k around loop (Evaluation.whileLoop L.host x y k) := by
  intro start stop off next st frames s u hplaced hnext _ _ htwin
  obtain ⟨hl, hlength⟩ := placedLoop (fun _ => rfl) hloop hplaced
  refine follows_whileLoop hl hx hy hgx hgy ?_ (Nat.le_refl k) htwin
  rw [hlength, size_nil] at hnext
  omega

theorem runs_giveBack {x : Eval Value} (hx : L.Computes k code x) :
    L.Runs k around (code ++ returnCode around) (do return .giveBack (← x)) := by
  intro start stop off next st frames s u hplaced _ _ _ htwin
  refine (hx hplaced.left rfl htwin).bind (fun _ => Eval.Grows.pure _) ?_
  exact fun v s m hpushes => .done rfl ⟨stop, _, [], st, rfl, hplaced.right, hpushes⟩

/-- A `break` jumps behind the loop. -/
theorem runs_leave (hloop : around.sinceLoop.isSome = true) : L.Runs k around [.exit] (pure .leave) := by
  intro start stop off next st frames s u hplaced _ _ htime htwin
  obtain ⟨hstop, d, hfetch, htarget⟩ := hplaced.each.1
  exact (Linked.follows_jump (k := k) hfetch htarget hstop (.inr (htime hloop)) htwin
    (.done rfl ⟨hloop, u, htwin, rfl⟩)).mono (Nat.le_add_left k 1)

/-- A `continue` jumps to where the loop began. -/
theorem runs_again {n : Nat} (hn : around.sinceLoop = some n) :
    L.Runs k around [.instr (.jump (-(n + 3 : Int)))] (pure .again) := by
  intro start stop off next st frames s u hplaced _ hloop htime htwin
  obtain ⟨o, hstart, hoff⟩ := hloop n hn
  have hstart : o = start := hstart
  have hend := hplaced.end_le
  have htarget : ((off + 3 : Nat) : Int) + -(n + 3) = start := by omega
  have hsome : around.sinceLoop.isSome = true := by
    rw [hn]
    rfl
  exact (Linked.follows_jump (k := k) hplaced.fetch htarget (by omega) (.inr (htime hsome)) htwin
    (.done rfl ⟨hsome, u, htwin, rfl⟩)).mono (Nat.le_add_left k 1)

/-- The items are pushed, and the number of those used, which is zero. -/
theorem follows_iterInit {v w : Value} (hv : Alike L.pool L.table v w)
    (hfetch : L.code.fetch off = .ok (.iterInit, next)) {f : Array Value → Eval Flow}
    (hgrows : ∀ items, (f items).Grows) {post : Flow → Session → Machine → Prop}
    (hf : ∀ {items}, (Value.array items).HoldsOnly (Known L.pool L.table) →
      Follows L.host L.code L.clock k ⟨next, (st.push (.array items)).push (.number 0.0), frames, u⟩
        (f (items.map (Value.mapBodies (decompile L.table)))) s post) (htwin : Twin L.pool L.table L.clock s u) :
    Follows L.host L.code L.clock k ⟨off, st.push w, frames, u⟩
      (Evaluation.act (Action.orFault v.items) >>= f) s post := by
  have hstep := Machine.step_iterInit (h := L.host) (m := ⟨off, st.push w, frames, u⟩) hfetch
    (Stack.values_push st w)
  have hitems : v.items = w.items.map (Array.map (Value.mapBodies (decompile L.table))) := by
    rw [hv.same, Value.items_mapBodies]
  cases hw : w.items with
  | error e =>
    rw [hw] at hstep hitems
    have hact : Evaluation.act (Action.orFault v.items) s = (.error (.fault e), s) := by
      rw [hitems]
      rfl
    exact .fault (Effect.bind_error hact f) hstep ⟨htwin.output, htwin.calls⟩
  | ok items =>
    rw [hw] at hstep hitems
    have hact : Evaluation.act (Action.orFault v.items) s =
        (.ok (items.map (Value.mapBodies (decompile L.table))), s) := by
      rw [hitems]
      rfl
    refine .congr (Effect.bind_ok hact f) ?_
    simp only at hstep
    rw [Effect.bind_apply, Machine.push_apply] at hstep
    by_cases hfull : L.host.limits.maxStackSize ≤ st.height
    · -- the stack is full before the items are on it
      rw [if_pos hfull] at hstep
      refine .full hstep (Session.Before.trans ?_ (hgrows _ s))
      exact .of_eq htwin.output.symm htwin.calls.symm
    · rw [if_neg hfull] at hstep
      exact Linked.follows_push (hgrows _) htwin hstep (hf (Value.holds_of_items hv.known hw))

/-- A `for` statement: its items, then a loop over them. -/
theorem runs_for {name : String} (hname : L.pool.Binds name) {x : Eval Value} {y : Eval Flow}
    {iterable body loop : Compilation.Code} {place : Coordinate} (hx : L.Computes k iterable x)
    (hy : L.Runs k (L.inRound name around) body y) (hgy : y.Grows)
    (hloop : Compilation.loopCode "for" place [] .forNext (.instr (L.binding name) :: body)
      [.instr .pop, .instr .pop] = .ok loop) :
    L.Runs k around (iterable ++ .instr .iterInit :: loop) (do
      let v ← x
      let items ← Evaluation.act (Action.orFault v.items)
      Evaluation.forLoop L.host (round name y) items.toList) := by
  intro start stop off next st frames s u hplaced hnext _ _ htwin
  obtain ⟨hl, hlength⟩ := placedLoop (fun _ => rfl) hloop hplaced.right.tail
  have hgloop := fun items : List Value => Evaluation.grows_forLoop (h := L.host) (grows_round name hgy) items
  refine (hx hplaced.left rfl htwin).bind
    (fun v => (Evaluation.grows_orFault _).bind fun items => hgloop _) ?_
  rintro v s m ⟨w, hw, u, htwin, rfl⟩
  refine follows_iterInit hw hplaced.right.fetch (fun items => hgloop _) ?_ htwin
  intro items hitems
  have hzero : items.toList.drop (Decimal.toWord 0.0) = items.toList := by
    rw [show Decimal.toWord 0.0 = 0 by decide +kernel, List.drop_zero]
  rw [Array.toList_map]
  refine follows_forLoop hname hl hy hgy ?_ rfl hitems hzero htwin
  · simp only [size_append, size_cons, size_nil, Piece.size_instr] at hnext hlength ⊢
    omega

/-! ### Statements -/

mutual

/-- The code of a statement does what the statement does. -/
theorem runs_stmt (hp : Performs L k call) : ∀ (b : Stmt) {around : Surroundings} {es es' : List Nat}
    {code : Compilation.Code}, L.pool.CoversStmt b → (stmt L.pool around b).run es = .ok (code, es') →
      Supplies L.table b.declared es → L.Runs k around code (Evaluation.stmt L.host call k b)
  | .expr _ e, _, _, _, _, hc, h, _ => runs_expr hp hc (Compilation.stmt_expr h).2
  | .bind _ name value, _, _, _, _, hc, h, _ => by
    obtain ⟨-, valueCode, he, rfl⟩ := Compilation.stmt_bind h
    exact runs_bind hc.1 (computes_expr hp value hc.2 he)
  | .function ⟨_, _, _, _, _⟩, _, _, _, _, hc, h, hsupplies => by
    obtain ⟨-, entry, rfl, rfl⟩ := Compilation.stmt_function h
    exact runs_function hc hsupplies.1
  | .cond _ test yes none, _, _, _, _, hc, h, hsupplies => by
    obtain ⟨testCode, yesCode, htest, hyes, -, rfl⟩ := Compilation.stmt_cond_none h
    rw [Stmt.declared_cond, Stmt.declaredElse_none, List.append_nil] at hsupplies
    exact runs_when (computes_expr hp test hc.1 htest) (runs_block hp yes hc.2.1 hyes hsupplies)
      (Evaluation.grows_block hp.grows k yes)
  | .cond _ test yes (some no), _, _, _, _, hc, h, hsupplies => by
    obtain ⟨testCode, yesCode, mid, noCode, htest, hyes, hno, -, -, rfl⟩ := Compilation.stmt_cond_some h
    rw [Stmt.declared_cond, Stmt.declaredElse_some, supplies_append, ← stmts_entries yes hyes] at hsupplies
    exact runs_either (computes_expr hp test hc.1 htest) (runs_block hp yes hc.2.1 hyes hsupplies.1)
      (runs_stmt hp no hc.2.2 hno hsupplies.2) (Evaluation.grows_block hp.grows k yes)
      (Evaluation.grows_stmt hp.grows k no)
  | .whileLoop _ test body, _, _, _, _, hc, h, hsupplies => by
    obtain ⟨testCode, bodyCode, htest, hbody, hl⟩ := Compilation.stmt_while h
    rw [Stmt.declared_while] at hsupplies
    exact runs_while (computes_expr hp test hc.1 htest) (runs_block hp body hc.2 hbody hsupplies)
      (Evaluation.grows_expr hp.grows test) (Evaluation.grows_block hp.grows k body) hl
  | .forEach _ name iterable body, _, _, _, _, hc, h, hsupplies => by
    obtain ⟨iterableCode, bodyCode, loop, hi, hbody, hl, rfl⟩ := Compilation.stmt_for h
    rw [Stmt.declared_for] at hsupplies
    exact runs_for hc.1 (computes_expr hp iterable hc.2.1 hi) (runs_block hp body hc.2.2 hbody hsupplies)
      (Evaluation.grows_block hp.grows k body) hl
  | .block _ body, _, _, _, _, hc, h, hsupplies => by
    rw [Stmt.declared_block] at hsupplies
    have hruns := runs_block hp body hc (Compilation.stmt_block h) hsupplies
    intro start stop off next st frames s u hplaced hnext hloop htime htwin
    exact (hruns hplaced hnext hloop htime htwin).imp fun flow s m hgoes => hgoes.imp rfl rfl
  | .personality .., _, _, _, _, _, h, _ => by
    obtain ⟨-, rfl, -⟩ := Compilation.stmt_personality h
    intro start stop off next st frames s u _ hnext _ _ htwin
    exact .done rfl ⟨u, htwin, by rw [← hnext]; rfl⟩
  | .giveBack _ none, around, _, _, _, _, h, _ => by
    obtain ⟨-, rfl⟩ := Compilation.stmt_giveBack_none h
    exact runs_giveBack (computes_instr (mirrors_pure .null) Machine.step_pushNull)
  | .giveBack _ (some e), _, _, _, _, hc, h, _ => by
    obtain ⟨-, value, he, rfl⟩ := Compilation.stmt_giveBack_some h
    exact runs_giveBack (computes_expr hp e hc he)
  | .leave _, _, _, _, _, _, h, _ => by
    obtain ⟨-, rfl, hloop⟩ := Compilation.stmt_leave h
    exact runs_leave hloop
  | .again _, _, _, _, _, _, h, _ => by
    obtain ⟨-, n, hn, -, rfl⟩ := Compilation.stmt_again h
    exact runs_again hn
termination_by structural b => b

theorem runs_block (hp : Performs L k call) : ∀ (bs : List Stmt) {around : Surroundings}
    {es es' : List Nat} {code : Compilation.Code}, L.pool.CoversStmts bs →
      (stmts L.pool around [] bs).run es = .ok (code, es') → Supplies L.table (Stmt.declaredIn bs) es →
        L.Runs k around code (Evaluation.block L.host call k bs)
  | [], _, _, _, _, _, h, _ => by
    obtain ⟨-, rfl⟩ := Compilation.stmts_nil h
    intro start stop off next st frames s u _ hnext _ _ htwin
    exact .done rfl ⟨u, htwin, by rw [← hnext]; rfl⟩
  | b :: bs, around, _, _, _, hc, h, hsupplies => by
    obtain ⟨first, mid, rest, hb, hbs, rfl⟩ := Compilation.stmts_cons h
    rw [Stmt.declaredIn_cons, supplies_append, ← stmt_entries b hb] at hsupplies
    have hfirst := runs_stmt hp b hc.1 hb hsupplies.1
    have hrest := runs_block hp bs hc.2 hbs hsupplies.2
    intro start stop off next st frames s u hplaced hnext hloop htime htwin
    rw [size_append, ← Nat.add_assoc] at hnext
    refine (hfirst hplaced.left rfl hloop htime htwin).bind ?_ ?_
    · intro flow
      cases flow with
      | next => exact Evaluation.grows_block hp.grows k bs
      | _ => exact Eval.Grows.pure _
    · rintro flow s m hgoes
      cases flow with
      | next =>
        obtain ⟨u, htwin, rfl⟩ := hgoes
        have htime := Compilation.isSome_after around first ▸ htime
        refine (hrest hplaced.right hnext (hloop.after first) htime htwin).imp fun flow s m hgoes => ?_
        exact hgoes.imp rfl (Compilation.isSome_after around first)
      | _ => exact .done rfl hgoes
termination_by structural bs => bs

end

end

end Persona.Simulation
