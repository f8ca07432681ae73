import Persona.Proofs.Simulation.Literal

/-! Expressions.

The code of an expression computes its value, given a machine that performs calls as the
evaluation does. The induction is on the expression; what lies on the stack already, the
callers and the place of the code are arbitrary. -/
namespace Persona.Simulation

open Compilation (Piece size expr exprs entries nameCode literalCode size_append size_cons size_nil)
open Machine (Steps step deliver)

/-- The machine calls values as the evaluation does. -/
structure Performs (L : Linked) (k : Nat) (call : Caller) : Prop where
  grows : ∀ f vs, (call f vs).Grows
  follows : ∀ {f g : Value} {vs ws : List Value} {off next : Nat} {discard : Bool} {st t : Stack}
    {frames : List CallFrame} {s u : Session}, Alike L.pool L.table f g → AllAlike L.pool L.table vs ws →
    Twin L.pool L.table L.clock s u → L.code.fetch off = .ok (.call ws.length discard, next) →
    st.values = ws.reverse ++ g :: t.values →
      Follows L.host L.code L.clock k ⟨off, st, frames, u⟩ (call f vs) s (L.Leaves discard next t frames)

section
variable {L : Linked} {k : Nat} {call : Caller}

/-- One instruction whose result is pushed. -/
theorem computes_instr {i : Instruction} {a b : Action Value} (hab : Mirrors L.pool L.table a b)
    (hstep : ∀ {m : Machine} {next : Nat}, L.code.fetch m.pointer = .ok (i, next) →
      step L.host L.code m = deliver L.host b false { m with pointer := next }) :
    L.Computes k [.instr i] (Evaluation.act a) := by
  intro stop off next st frames s u hplaced hnext htwin
  subst hnext
  exact Linked.follows_deliver hab htwin (hstep (m := ⟨off, st, frames, u⟩) hplaced.fetch)

theorem computes_literal {l : Literal} (hl : L.pool.CoversExpr (.literal l)) :
    L.Computes k (literalCode L.pool l) (Evaluation.expr L.host call (.literal l)) := by
  have hmirrors : ∀ {v : Value}, v.functions = [] → Mirrors L.pool L.table (pure v) (pure v) :=
    fun hv => mirrors_pure (.refl hv)
  cases l with
  | number x =>
    exact computes_instr (hmirrors rfl) fun hf => Machine.step_pushConst hf (Linked.constant_number hl)
  | string s =>
    exact computes_instr (hmirrors rfl) fun hf => Machine.step_pushConst hf (Linked.constant_string hl)
  | bool b =>
    cases b with
    | true => exact computes_instr (hmirrors rfl) Machine.step_pushTrue
    | false => exact computes_instr (hmirrors rfl) Machine.step_pushFalse
  | null => exact computes_instr (hmirrors rfl) Machine.step_pushNull

/-- A name that no part of the program binds is that of its built-in. -/
theorem mirrors_builtin {pool : Pool} {table : Compilation.Table} {name : String} {b : Builtin}
    (hb : pool.builtin? name = some b) :
    Mirrors pool table (Action.lookup name) (pure (.builtin b)) := by
  intro clock s u htwin
  obtain ⟨hbound, hname⟩ := Pool.builtin?_eq_some.1 hb
  have hlookup : Action.lookup name s = (.ok (.builtin b), s) := by
    have hu := htwin.within.lookup?_eq hbound
    unfold Action.lookup
    rw [Effect.get_bind_apply, htwin.same, Session.lookup?_mapBodies, hu, hname]
    rfl
  rw [hlookup]
  refine ⟨htwin, rfl, fun w hw => ?_⟩
  cases hw
  exact (Alike.builtin b).known

theorem computes_name {i : Identifier} (hi : L.pool.CoversExpr (.identifier i)) :
    L.Computes k (nameCode L.pool i.name) (Evaluation.expr L.host call (.identifier i)) := by
  unfold nameCode
  cases hb : L.pool.builtin? i.name with
  | some b => exact computes_instr (mirrors_builtin hb) Machine.step_loadBuiltin
  | none =>
    have hconstant := hi (by rw [Pool.isFixed, hb]; rfl)
    exact computes_instr (mirrors_lookup i.name) fun hf =>
      Machine.step_loadVar hf (Linked.constant_string hconstant)

/-! ### Operators -/

theorem mirrors_binary {pool : Pool} {table : Compilation.Table} {limits : Limits} {op : BinaryOp}
    {a b v w : Value} (hv : Alike pool table a v) (hw : Alike pool table b w) :
    Mirrors pool table (Action.orFault (Value.binary limits op a b))
      (Action.orFault (Value.binary limits op v w)) := by
  refine mirrors_orFault ?_ fun x hx => Value.holds_binary hv.known hw.known hx
  rw [hv.same, hw.same, Value.binary_mapBodies]

theorem mirrors_unary {pool : Pool} {table : Compilation.Table} {op : UnaryOp} {a v : Value}
    (hv : Alike pool table a v) :
    Mirrors pool table (Action.orFault (Value.unary op a)) (Action.orFault (Value.unary op v)) := by
  refine mirrors_orFault ?_ fun x hx => Value.holds_unary hv.known hx
  rw [hv.same, Value.unary_mapBodies]

theorem mirrors_index {pool : Pool} {table : Compilation.Table} {a b v w : Value}
    (hv : Alike pool table a v) (hw : Alike pool table b w) :
    Mirrors pool table (Action.orFault (Value.index a b)) (Action.orFault (Value.index v w)) := by
  refine mirrors_orFault ?_ fun x hx => Value.holds_index hv.known hw.known hx
  rw [hv.same, hw.same, Value.index_mapBodies]

section
variable {l r : Expr} {left right : Compilation.Code}

theorem eval_and (h : Host) :
    Evaluation.expr h call (.binary .and l r) = (do
      let v ← Evaluation.expr h call l
      if v.isTruthy then Evaluation.expr h call r else pure (.bool false)) := rfl

theorem eval_or (h : Host) :
    Evaluation.expr h call (.binary .or l r) = (do
      let v ← Evaluation.expr h call l
      if v.isTruthy then pure (.bool true) else Evaluation.expr h call r) := rfl

theorem eval_binary (h : Host) {op : BinaryOp} (hand : op ≠ .and) (hor : op ≠ .or) :
    Evaluation.expr h call (.binary op l r) = (do
      let v ← Evaluation.expr h call l
      let w ← Evaluation.expr h call r
      Evaluation.act (Action.orFault (Value.binary h.limits op v w))) := by
  cases op with
  | and => exact absurd rfl hand
  | or => exact absurd rfl hor
  | _ => rfl

theorem computes_unary {op : UnaryOp} (hr : L.Computes k right (Evaluation.expr L.host call r)) :
    L.Computes k (right ++ [.instr (.unOp op)]) (Evaluation.expr L.host call (.unary op r)) := by
  intro stop off next st frames s u hplaced hnext htwin
  rw [size_append, ← Nat.add_assoc] at hnext
  subst hnext
  refine (hr hplaced.left rfl htwin).bind (fun v => Evaluation.grows_orFault _) ?_
  rintro v s m ⟨w, hw, u, htwin, rfl⟩
  exact Linked.follows_deliver (mirrors_unary hw) htwin (Machine.step_unOp (m := ⟨_, st.push w, frames, u⟩) hplaced.right.fetch rfl)

/-- Two operands and an instruction that takes both. -/
theorem computes_both {i : Instruction} {a b : Value → Value → Action Value} (hgrows : ∀ e, (Evaluation.expr L.host call e).Grows)
    (hl : L.Computes k left (Evaluation.expr L.host call l))
    (hr : L.Computes k right (Evaluation.expr L.host call r))
    (hact : ∀ v w, (Evaluation.act (a v w)).Grows)
    (hab : ∀ {v w x y : Value}, Alike L.pool L.table v x → Alike L.pool L.table w y →
      Mirrors L.pool L.table (a v w) (b x y))
    (hstep : ∀ {m : Machine} {next : Nat} {x y : Value} {t : Stack},
      L.code.fetch m.pointer = .ok (i, next) → m.stack.values = y :: x :: t.values →
        step L.host L.code m = deliver L.host (b x y) false { m with pointer := next, stack := t }) :
    L.Computes k (left ++ (right ++ [.instr i])) (do
      let v ← Evaluation.expr L.host call l
      let w ← Evaluation.expr L.host call r
      Evaluation.act (a v w)) := by
  intro stop off next st frames s u hplaced hnext htwin
  rw [size_append, size_append, ← Nat.add_assoc, ← Nat.add_assoc] at hnext
  subst hnext
  refine (hl hplaced.left rfl htwin).bind (fun v => (hgrows r).bind fun w => hact v w) ?_
  rintro v s m ⟨x, hx, u, htwin, rfl⟩
  refine (hr hplaced.right.left rfl htwin).bind (fun w => hact v w) ?_
  rintro w s m ⟨y, hy, u, htwin, rfl⟩
  exact Linked.follows_deliver (hab hx hy) htwin
    (hstep (m := ⟨_, (st.push x).push y, frames, u⟩) hplaced.right.right.fetch rfl)

theorem computes_and (hgrows : ∀ e, (Evaluation.expr L.host call e).Grows)
    (hl : L.Computes k left (Evaluation.expr L.host call l))
    (hr : L.Computes k right (Evaluation.expr L.host call r)) :
    L.Computes k (left ++ .instr (.jumpIfFalse (size right + 3)) ::
      (right ++ [.instr (.jump 1), .instr .pushFalse]))
      (Evaluation.expr L.host call (.binary .and l r)) := by
  intro stop off next st frames s u hplaced hnext htwin
  have htest := hplaced.right
  have hright := htest.tail
  have hover := hright.right
  have hfalse := hover.tail
  have hend := hfalse.end_le
  have hsize : Instruction.pushFalse.size = 1 := rfl
  simp only [size_append, size_cons, size_nil, Compilation.Piece.size_instr,
    Compilation.size_jumpIfFalse, Compilation.size_jump] at hnext hright hover hfalse hend
  rw [eval_and]
  refine (hl hplaced.left rfl htwin).bind
    (fun v => Evaluation.grows_ite (hgrows r) (Eval.Grows.pure _)) ?_
  rintro v s m ⟨w, hw, u, htwin, rfl⟩
  have htarget : ((off + size left + 3 : Nat) : Int) + (size right + 3) =
      (off + size left + 3 + size right + 3 : Nat) := by omega
  refine (Linked.follows_test (k := k) hw htest.fetch htarget (by omega) ?_ ?_).mono
    (Nat.le_add_left k 1)
  · intro htruthy
    rw [if_pos htruthy]
    refine (hr hright.left rfl htwin).next ?_
    rintro v s m ⟨w, hw, u, htwin, rfl⟩
    have htarget : ((off + size left + 3 + size right + 3 : Nat) : Int) + 1 = next := by omega
    exact (Linked.follows_jump (k := k) hover.fetch htarget (by omega) (.inl (by omega)) htwin
      (.done rfl ⟨w, hw, u, htwin, rfl⟩)).mono (Nat.le_add_left k 1)
  · intro hfalsy
    rw [hfalsy]
    exact Linked.follows_deliver (mirrors_pure (.bool false)) htwin
      (Machine.step_pushFalse (m := ⟨_, st, frames, u⟩) (hfalse.fetch_at rfl (by omega)))

theorem computes_or (hgrows : ∀ e, (Evaluation.expr L.host call e).Grows)
    (hl : L.Computes k left (Evaluation.expr L.host call l))
    (hr : L.Computes k right (Evaluation.expr L.host call r)) :
    L.Computes k (left ++ .instr (.jumpIfFalse 4) :: .instr .pushTrue ::
      .instr (.jump (size right)) :: right) (Evaluation.expr L.host call (.binary .or l r)) := by
  intro stop off next st frames s u hplaced hnext htwin
  have htest := hplaced.right
  have htrue := htest.tail
  have hover := htrue.tail
  have hright := hover.tail
  have hend := hright.end_le
  have hsize : Instruction.pushTrue.size = 1 := rfl
  simp only [size_append, size_cons, Compilation.Piece.size_instr,
    Compilation.size_jumpIfFalse, Compilation.size_jump, hsize] at hnext htrue hover hright hend
  rw [eval_or]
  refine (hl hplaced.left rfl htwin).bind
    (fun v => Evaluation.grows_ite (Eval.Grows.pure _) (hgrows r)) ?_
  rintro v s m ⟨w, hw, u, htwin, rfl⟩
  have htarget : ((off + size left + 3 : Nat) : Int) + 4 = (off + size left + 3 + 1 + 3 : Nat) := by omega
  refine (Linked.follows_test (k := k) hw htest.fetch htarget (by omega) ?_ ?_).mono
    (Nat.le_add_left k 1)
  · intro htruthy
    rw [if_pos htruthy]
    refine Linked.follows_push (Eval.Grows.pure _) htwin
      (Machine.step_pushTrue (m := ⟨_, st, frames, u⟩) htrue.fetch) ?_
    have htarget : ((off + size left + 3 + 1 + 3 : Nat) : Int) + size right = next := by omega
    exact (Linked.follows_jump (k := k) hover.fetch htarget (by omega) (.inl (by omega)) htwin
      (.done rfl ⟨.bool true, .bool true, u, htwin, rfl⟩)).mono (Nat.le_add_left k 1)
  · intro hfalsy
    rw [hfalsy]
    exact hr hright (by omega) htwin

/-! ### Names and calls -/

theorem computes_assign {target : Identifier} (htarget : L.pool.Binds target.name)
    (hr : L.Computes k right (Evaluation.expr L.host call r)) :
    L.Computes k (right ++ [.instr (.storeVar (L.pool.indexOf (.string target.name)))])
      (Evaluation.expr L.host call (.assign target r)) := by
  intro stop off next st frames s u hplaced hnext htwin
  rw [size_append, ← Nat.add_assoc] at hnext
  subst hnext
  refine (hr hplaced.left rfl htwin).bind ?_ ?_
  · exact fun v => (Eval.Grows.modify fun s => (Session.Before.refl s).assign _ v).bind fun _ =>
      Eval.Grows.pure v
  rintro v s m ⟨w, hw, u, htwin, rfl⟩
  have hstep := Machine.step_storeVar (h := L.host) (m := ⟨_, st.push w, frames, u⟩) hplaced.right.fetch
    (Linked.constant_string htarget.1) (Stack.values_push st w)
  exact .step hstep (.done rfl ⟨w, hw, _, htwin.assign hw htarget.2, rfl⟩)

/-- A call leaves its result, or drops it. -/
theorem follows_call (hp : Performs L k call) {place : Coordinate} {callee : Expr}
    {arguments : List Expr} {function rest : Compilation.Code} {values : List Compilation.Code}
    (hf : L.Computes k function (Evaluation.expr L.host call callee))
    (hvs : L.ComputesAll k call arguments values) {discard : Bool} {stop off : Nat} {st : Stack}
    {frames : List CallFrame} {s u : Session}
    (hplaced : Placed L.code stop off
      (function ++ (values.flatten ++ .instr (.call arguments.length discard) :: rest)))
    (htwin : Twin L.pool L.table L.clock s u) :
    Follows L.host L.code L.clock k ⟨off, st, frames, u⟩
      (Evaluation.expr L.host call (.call place callee arguments)) s
      (L.Leaves discard (off + size function + size values.flatten +
        (Instruction.call arguments.length discard).size) st frames) := by
  refine (hf hplaced.left rfl htwin).bind ?_ ?_
  · exact fun f => (Evaluation.grows_exprs hp.grows arguments #[]).bind fun vs => hp.grows f _
  rintro f s m ⟨g, hg, u, htwin, rfl⟩
  have hnone : AllAlike L.pool L.table (#[] : Array Value).toList [] := .nil
  refine (follows_exprs hp.grows hvs hplaced.right.left rfl htwin hnone rfl).bind
    (fun vs => hp.grows f _) ?_
  rintro vs s m ⟨ws, stack, hws, hlength, hstack, u, htwin, rfl⟩
  have hcount : arguments.length = ws.length := by
    rw [hlength]
    exact (Nat.zero_add _).symm
  have hfetch := hplaced.right.right.fetch
  rw [hcount] at hfetch ⊢
  exact hp.follows hg hws htwin hfetch hstack

theorem computes_call (hp : Performs L k call) {place : Coordinate} {callee : Expr}
    {arguments : List Expr} {function : Compilation.Code} {values : List Compilation.Code}
    (hf : L.Computes k function (Evaluation.expr L.host call callee))
    (hvs : L.ComputesAll k call arguments values) :
    L.Computes k (function ++ (values.flatten ++ [.instr (.call arguments.length false)]))
      (Evaluation.expr L.host call (.call place callee arguments)) := by
  intro stop off next st frames s u hplaced hnext htwin
  rw [size_append, size_append, ← Nat.add_assoc, ← Nat.add_assoc] at hnext
  subst hnext
  exact follows_call hp hf hvs hplaced htwin

end

/-! ### Expressions -/

mutual

/-- The code of an expression computes its value. -/
theorem computes_expr (hp : Performs L k call) : ∀ (e : Expr) {code : Compilation.Code},
    L.pool.CoversExpr e → expr L.pool e = .ok code →
      L.Computes k code (Evaluation.expr L.host call e)
  | .literal _, _, hc, h => by
    cases h
    exact computes_literal hc
  | .identifier _, _, hc, h => by
    cases h
    exact computes_name hc
  | .binary op l r, _, hc, h => by
    by_cases hand : op = .and
    · subst hand
      obtain ⟨left, right, hl, hr, -, rfl⟩ := Compilation.expr_and h
      exact computes_and (Evaluation.grows_expr hp.grows) (computes_expr hp l hc.1 hl)
        (computes_expr hp r hc.2 hr)
    by_cases hor : op = .or
    · subst hor
      obtain ⟨left, right, hl, hr, -, rfl⟩ := Compilation.expr_or h
      exact computes_or (Evaluation.grows_expr hp.grows) (computes_expr hp l hc.1 hl)
        (computes_expr hp r hc.2 hr)
    obtain ⟨left, right, hl, hr, rfl⟩ := Compilation.expr_binary hand hor h
    rw [eval_binary L.host hand hor]
    exact computes_both (Evaluation.grows_expr hp.grows) (computes_expr hp l hc.1 hl)
      (computes_expr hp r hc.2 hr) (fun v w => Evaluation.grows_orFault _) mirrors_binary
      Machine.step_binOp
  | .unary op e, _, hc, h => by
    obtain ⟨operand, he, rfl⟩ := Compilation.expr_unary h
    exact computes_unary (computes_expr hp e hc he)
  | .assign target e, _, hc, h => by
    obtain ⟨value, he, rfl⟩ := Compilation.expr_assign h
    exact computes_assign hc.1 (computes_expr hp e hc.2 he)
  | .call place callee arguments, _, hc, h => by
    obtain ⟨-, function, values, hf, hvs, rfl⟩ := Compilation.expr_call h
    exact computes_call hp (computes_expr hp callee hc.1 hf) (computes_exprs hp arguments hc.2 hvs)
  | .array elements, _, hc, h => by
    obtain ⟨values, hvs, rfl⟩ := Compilation.expr_array h
    exact computes_array hp.grows (computes_exprs hp elements hc hvs)
  | .map es, _, hc, h => by
    obtain ⟨values, hvs, rfl⟩ := Compilation.expr_map h
    exact computes_map hp.grows (computes_entries hp es hc hvs)
  | .index object key, _, hc, h => by
    obtain ⟨o, i, ho, hi, rfl⟩ := Compilation.expr_index h
    exact computes_both (Evaluation.grows_expr hp.grows) (computes_expr hp object hc.1 ho)
      (computes_expr hp key hc.2 hi) (fun v w => Evaluation.grows_orFault _) mirrors_index
      Machine.step_index
termination_by structural e => e

theorem computes_exprs (hp : Performs L k call) : ∀ (es : List Expr) {codes : List Compilation.Code},
    L.pool.CoversExprs es → exprs L.pool es = .ok codes → L.ComputesAll k call es codes
  | [], _, _, h => by
    cases Compilation.exprs_nil h
    exact .nil
  | e :: es, _, hc, h => by
    obtain ⟨first, rest, he, hes, rfl⟩ := Compilation.exprs_cons h
    exact .cons (computes_expr hp e hc.1 he) (computes_exprs hp es hc.2 hes)
termination_by structural es => es

theorem computes_entries (hp : Performs L k call) : ∀ (es : List (String × Expr))
    {codes : List Compilation.Code}, L.pool.CoversEntries es → entries L.pool es = .ok codes →
      List.Forall₂ (ComputesEntry L k call) es codes
  | [], _, _, h => by
    cases Compilation.entries_nil h
    exact .nil
  | (key, e) :: es, _, hc, h => by
    obtain ⟨first, rest, he, hes, rfl⟩ := Compilation.entries_cons h
    exact .cons ⟨hc.1, first, rfl, computes_expr hp e hc.2.1 he⟩ (computes_entries hp es hc.2.2 hes)
termination_by structural es => es

end

/-! ### Dropped values -/

/-- The code of an expression whose value is dropped leaves the operands as they were. -/
theorem follows_dropped (hp : Performs L k call) {e : Expr} {code : Compilation.Code}
    (hc : L.pool.CoversExpr e) (h : Compilation.dropped L.pool e = .ok code) {stop off next : Nat}
    {st : Stack} {frames : List CallFrame} {s u : Session} (hplaced : Placed L.code stop off code)
    (hnext : off + size code = next) (htwin : Twin L.pool L.table L.clock s u) :
    Follows L.host L.code L.clock k ⟨off, st, frames, u⟩ (Evaluation.expr L.host call e) s
      fun _ s m => L.At next st frames s m := by
  -- a value that is on the stack is popped
  have hpop : ∀ {off : Nat} {s : Session} {m : Machine} {v : Value},
      Placed L.code stop off [.instr .pop] → off + Instruction.pop.size = next → L.Pushes off st frames v s m →
        Follows L.host L.code L.clock k m (pure v) s fun _ s m => L.At next st frames s m := by
    rintro off s m v hplaced hnext ⟨w, -, u, htwin, rfl⟩
    have hstep := Machine.step_pop (h := L.host) (m := ⟨off, st.push w, frames, u⟩)
      (hplaced.fetch_at rfl hnext) (Stack.values_push st w)
    exact .step hstep (.done rfl ⟨u, htwin, rfl⟩)
  by_cases hcall : ∃ place callee arguments, e = .call place callee arguments
  · obtain ⟨place, callee, arguments, rfl⟩ := hcall
    obtain ⟨-, function, values, hf, hvs, rfl⟩ := Compilation.dropped_call h
    have hf := computes_expr hp callee hc.1 hf
    have hvs := computes_exprs hp arguments hc.2 hvs
    rw [size_append, size_append, ← Nat.add_assoc, ← Nat.add_assoc] at hnext
    unfold Compilation.callCode at hplaced hnext
    by_cases hlong : (true && Instruction.shortArgcMax < arguments.length) = true
    · rw [if_pos hlong] at hplaced hnext
      refine (follows_call hp hf hvs hplaced htwin).next fun v s m hpushes => ?_
      exact hpop hplaced.right.right.tail hnext hpushes
    · rw [if_neg hlong] at hplaced hnext
      subst hnext
      exact follows_call hp hf hvs hplaced htwin
  · obtain ⟨value, he, rfl⟩ := Compilation.dropped_other
      (fun place callee arguments heq => hcall ⟨place, callee, arguments, heq⟩) h
    rw [size_append, ← Nat.add_assoc] at hnext
    refine (computes_expr hp e hc he hplaced.left rfl htwin).next fun v s m hpushes => ?_
    exact hpop hplaced.right hnext hpushes

end

end Persona.Simulation
