import Persona.Compilation
import Persona.Proofs.Fault

/-! What compiled code looks like.

For every form of the source, the code that it compiles to in terms of the codes
of its parts. Nothing else needs to know how `expr` and `stmt` are defined. -/
namespace Persona.Compilation

/-! ### Sizes -/

@[simp] theorem size_nil : size [] = 0 := rfl

@[simp] theorem size_cons (p : Piece) (code : Code) : size (p :: code) = p.size + size code := rfl

@[simp] theorem size_append (xs ys : Code) : size (xs ++ ys) = size xs + size ys := by
  induction xs with
  | nil => simp
  | cons p xs ih => simp [ih, Nat.add_assoc]

@[simp] theorem Piece.size_instr (i : Instruction) : (Piece.instr i).size = i.size := rfl

@[simp] theorem Piece.size_exit : Piece.exit.size = 3 := rfl

@[simp] theorem size_jump (d : Int) : (Instruction.jump d).size = 3 := rfl

@[simp] theorem size_jumpIfFalse (d : Int) : (Instruction.jumpIfFalse d).size = 3 := rfl

@[simp] theorem size_forNext (d : Int) : (Instruction.forNext d).size = 3 := rfl

/-! ### Results -/

theorem pure_ok {x y : α} : (pure x : Except ε α) = .ok y ↔ x = y :=
  ⟨Except.ok.inj, congrArg _⟩

theorem jumpBy_ok {owner : JumpOwner} {make : Int → Instruction} {d : Int} {code : Code} :
    jumpBy owner make d = .ok code ↔
      Instruction.fitsJump d = true ∧ code = [.instr (make d)] := by
  unfold jumpBy
  split
  · next h =>
    constructor
    · intro hc
      cases hc
      exact ⟨h, rfl⟩
    · rintro ⟨-, rfl⟩
      rfl
  · next h =>
    constructor
    · intro hc
      cases hc
    · rintro ⟨h', -⟩
      exact absurd h' h

theorem run_bind_ok {x : Emit α} {f : α → Emit β} {es es' : List Nat} {y : β} :
    (x >>= f).run es = .ok (y, es') ↔
      ∃ a mid, x.run es = .ok (a, mid) ∧ (f a).run mid = .ok (y, es') := by
  rw [StateT.run_bind, bind_eq_ok]
  constructor
  · rintro ⟨⟨a, mid⟩, hx, hf⟩
    exact ⟨a, mid, hx, hf⟩
  · rintro ⟨a, mid, hx, hf⟩
    exact ⟨(a, mid), hx, hf⟩

theorem run_pure_ok {x y : α} {es es' : List Nat} :
    (pure x : Emit α).run es = .ok (y, es') ↔ x = y ∧ es = es' := by
  rw [StateT.run_pure, pure_ok, Prod.mk.injEq]

theorem run_lift_ok {x : Except CompileError α} {y : α} {es es' : List Nat} :
    (liftM x : Emit α).run es = .ok (y, es') ↔ x = .ok y ∧ es = es' := by
  show (x >>= fun a => pure (a, es)) = _ ↔ _
  rw [bind_eq_ok]
  constructor
  · rintro ⟨a, hx, ha⟩
    rw [pure_ok] at ha
    cases ha
    exact ⟨hx, rfl⟩
  · rintro ⟨rfl, rfl⟩
    exact ⟨y, rfl, rfl⟩

theorem run_throw_ok {e : CompileError} {y : α} {es es' : List Nat} :
    ¬(throw e : Emit α).run es = .ok (y, es') := by
  intro h
  cases h

/-! ### Expressions -/

section
variable {pool : Pool} {code : Code}

theorem expr_and {l r : Expr} (h : expr pool (.binary .and l r) = .ok code) :
    ∃ left right, expr pool l = .ok left ∧ expr pool r = .ok right ∧
      Instruction.fitsJump (size right + 3) = true ∧
      code = left ++ .instr (.jumpIfFalse (size right + 3)) ::
        (right ++ [.instr (.jump 1), .instr .pushFalse]) := by
  simp only [expr, bind_eq_ok, pure_ok, jumpBy_ok] at h
  obtain ⟨left, hl, right, hr, skip, ⟨hfits, rfl⟩, rfl⟩ := h
  exact ⟨left, right, hl, hr, hfits, by simp⟩

theorem expr_or {l r : Expr} (h : expr pool (.binary .or l r) = .ok code) :
    ∃ left right, expr pool l = .ok left ∧ expr pool r = .ok right ∧
      Instruction.fitsJump (size right) = true ∧
      code = left ++ .instr (.jumpIfFalse 4) :: .instr .pushTrue ::
        .instr (.jump (size right)) :: right := by
  simp only [expr, bind_eq_ok, pure_ok, jumpBy_ok] at h
  obtain ⟨left, hl, right, hr, skip, ⟨hfits, rfl⟩, rfl⟩ := h
  exact ⟨left, right, hl, hr, hfits, by simp⟩

theorem expr_binary {op : BinaryOp} {l r : Expr} (hand : op ≠ .and) (hor : op ≠ .or)
    (h : expr pool (.binary op l r) = .ok code) :
    ∃ left right, expr pool l = .ok left ∧ expr pool r = .ok right ∧
      code = left ++ (right ++ [.instr (.binOp op)]) := by
  cases op with
  | and => exact absurd rfl hand
  | or => exact absurd rfl hor
  | _ =>
    simp only [expr, bind_eq_ok, pure_ok] at h
    obtain ⟨left, hl, right, hr, rfl⟩ := h
    exact ⟨left, right, hl, hr, rfl⟩

theorem expr_unary {op : UnaryOp} {e : Expr} (h : expr pool (.unary op e) = .ok code) :
    ∃ operand, expr pool e = .ok operand ∧ code = operand ++ [.instr (.unOp op)] := by
  simp only [expr, bind_eq_ok, pure_ok] at h
  obtain ⟨operand, he, rfl⟩ := h
  exact ⟨operand, he, rfl⟩

theorem expr_assign {target : Identifier} {e : Expr}
    (h : expr pool (.assign target e) = .ok code) :
    ∃ value, expr pool e = .ok value ∧
      code = value ++ [.instr (.storeVar (pool.indexOf (.string target.name)))] := by
  simp only [expr, bind_eq_ok, pure_ok] at h
  obtain ⟨value, he, rfl⟩ := h
  exact ⟨value, he, rfl⟩

theorem expr_call {place : Coordinate} {callee : Expr} {arguments : List Expr}
    (h : expr pool (.call place callee arguments) = .ok code) :
    arguments.length ≤ maxCount ∧ ∃ function values, expr pool callee = .ok function ∧
      exprs pool arguments = .ok values ∧
      code = function ++ (values.flatten ++ [.instr (.call arguments.length false)]) := by
  rw [expr] at h
  split_ifs at h with hmax
  simp only [bind_eq_ok, pure_ok] at h
  obtain ⟨function, hf, values, hvs, rfl⟩ := h
  exact ⟨Nat.le_of_not_lt hmax, function, values, hf, hvs, rfl⟩

theorem expr_array {elements : List Expr} (h : expr pool (.array elements) = .ok code) :
    ∃ values, exprs pool elements = .ok values ∧ code = segments .makeArray true 0 values := by
  simp only [expr, bind_eq_ok, pure_ok] at h
  obtain ⟨values, hvs, rfl⟩ := h
  exact ⟨values, hvs, rfl⟩

theorem expr_map {es : List (String × Expr)} (h : expr pool (.map es) = .ok code) :
    ∃ values, entries pool es = .ok values ∧ code = segments .makeMap true 0 values := by
  simp only [expr, bind_eq_ok, pure_ok] at h
  obtain ⟨values, hvs, rfl⟩ := h
  exact ⟨values, hvs, rfl⟩

theorem expr_index {object key : Expr} (h : expr pool (.index object key) = .ok code) :
    ∃ o k, expr pool object = .ok o ∧ expr pool key = .ok k ∧
      code = o ++ (k ++ [.instr .index]) := by
  simp only [expr, bind_eq_ok, pure_ok] at h
  obtain ⟨o, ho, k, hk, rfl⟩ := h
  exact ⟨o, k, ho, hk, rfl⟩

theorem exprs_nil {values : List Code} (h : exprs pool [] = .ok values) : values = [] := by
  cases h
  rfl

theorem exprs_cons {e : Expr} {es : List Expr} {values : List Code}
    (h : exprs pool (e :: es) = .ok values) :
    ∃ first rest, expr pool e = .ok first ∧ exprs pool es = .ok rest ∧ values = first :: rest := by
  simp only [exprs, bind_eq_ok, pure_ok] at h
  obtain ⟨first, he, rest, hes, rfl⟩ := h
  exact ⟨first, rest, he, hes, rfl⟩

theorem entries_nil {values : List Code} (h : entries pool [] = .ok values) : values = [] := by
  cases h
  rfl

theorem entries_cons {key : String} {e : Expr} {es : List (String × Expr)} {values : List Code}
    (h : entries pool ((key, e) :: es) = .ok values) :
    ∃ first rest, expr pool e = .ok first ∧ entries pool es = .ok rest ∧
      values = (.instr (.pushConst (pool.indexOf (.string key))) :: first) :: rest := by
  simp only [entries, bind_eq_ok, pure_ok] at h
  obtain ⟨first, he, rest, hes, rfl⟩ := h
  exact ⟨first, rest, he, hes, rfl⟩

/-- A call whose result is dropped. -/
theorem dropped_call {place : Coordinate} {callee : Expr} {arguments : List Expr}
    (h : dropped pool (.call place callee arguments) = .ok code) :
    arguments.length ≤ maxCount ∧ ∃ function values, expr pool callee = .ok function ∧
      exprs pool arguments = .ok values ∧
      code = function ++ (values.flatten ++ callCode arguments.length true) := by
  rw [dropped] at h
  split_ifs at h with hmax
  simp only [bind_eq_ok, pure_ok] at h
  obtain ⟨function, hf, values, hvs, rfl⟩ := h
  exact ⟨Nat.le_of_not_lt hmax, function, values, hf, hvs, rfl⟩

theorem dropped_other {e : Expr} (hcall : ∀ place callee arguments, e ≠ .call place callee arguments)
    (h : dropped pool e = .ok code) :
    ∃ value, expr pool e = .ok value ∧ code = value ++ [.instr .pop] := by
  cases e with
  | call place callee arguments => exact absurd rfl (hcall place callee arguments)
  | _ =>
    simp only [dropped, bind_eq_ok, pure_ok] at h
    obtain ⟨value, he, rfl⟩ := h
    exact ⟨value, he, rfl⟩

/-! ### Statements -/

variable {around : Surroundings} {es es' : List Nat}

theorem stmt_expr {place : Coordinate} {e : Expr}
    (h : (stmt pool around (.expr place e)).run es = .ok (code, es')) :
    es' = es ∧ dropped pool e = .ok code := by
  rw [stmt] at h
  obtain ⟨hd, rfl⟩ := run_lift_ok.1 h
  exact ⟨rfl, hd⟩

theorem stmt_bind {place : Coordinate} {name : String} {e : Expr}
    (h : (stmt pool around (.bind place name e)).run es = .ok (code, es')) :
    es' = es ∧ ∃ value, expr pool e = .ok value ∧
      code = value ++ [.instr (.defineVar (pool.indexOf (.string name)))] := by
  simp only [stmt, run_bind_ok, run_lift_ok, run_pure_ok] at h
  obtain ⟨value, mid, ⟨he, rfl⟩, rfl, rfl⟩ := h
  exact ⟨rfl, value, he, rfl⟩

theorem stmt_function {d : FunctionDecl}
    (h : (stmt pool around (.function d)).run es = .ok (code, es')) :
    d.params.length ≤ maxCount ∧ ∃ entry, es = entry :: es' ∧ code = functionCode pool d entry := by
  rw [stmt] at h
  split_ifs at h with hmax
  · exact absurd h run_throw_ok
  cases es with
  | nil => cases h
  | cons entry rest =>
    cases h
    exact ⟨Nat.le_of_not_lt hmax, entry, rfl, rfl⟩

/-- What the branches of a conditional stand in. -/
def Surroundings.branch (around : Surroundings) (test : Code) : Surroundings :=
  { (around.after test).after [.exit] with inBlock := true }

theorem stmt_cond_none {place : Coordinate} {test : Expr} {yes : List Stmt}
    (h : (stmt pool around (.cond place test yes none)).run es = .ok (code, es')) :
    ∃ testCode yesCode, expr pool test = .ok testCode ∧
      (stmts pool (around.branch testCode) [] yes).run es = .ok (yesCode, es') ∧
      Instruction.fitsJump (size yesCode) = true ∧
      code = testCode ++ .instr (.jumpIfFalse (size yesCode)) :: yesCode := by
  simp only [stmt, run_bind_ok, run_lift_ok, run_pure_ok, jumpBy_ok] at h
  obtain ⟨testCode, mid, ⟨ht, rfl⟩, yesCode, mid', hy, skip, mid'', ⟨⟨hfits, rfl⟩, rfl⟩, rfl, rfl⟩ := h
  exact ⟨testCode, yesCode, ht, hy, hfits, by simp⟩

theorem stmt_cond_some {place : Coordinate} {test : Expr} {yes : List Stmt} {no : Stmt}
    (h : (stmt pool around (.cond place test yes (some no))).run es = .ok (code, es')) :
    ∃ testCode yesCode mid noCode, expr pool test = .ok testCode ∧
      (stmts pool (around.branch testCode) [] yes).run es = .ok (yesCode, mid) ∧
      (stmt pool (((around.branch testCode).after yesCode).after [.exit]) no).run mid =
        .ok (noCode, es') ∧
      Instruction.fitsJump (size yesCode + 3) = true ∧ Instruction.fitsJump (size noCode) = true ∧
      code = testCode ++ .instr (.jumpIfFalse (size yesCode + 3)) ::
        (yesCode ++ .instr (.jump (size noCode)) :: noCode) := by
  simp only [stmt, run_bind_ok, run_lift_ok, run_pure_ok, jumpBy_ok] at h
  obtain ⟨testCode, mid, ⟨ht, rfl⟩, yesCode, mid', hy, skip, mid'', ⟨⟨hfits, rfl⟩, rfl⟩, noCode, last,
    hn, past, last', ⟨⟨hpast, rfl⟩, rfl⟩, rfl, rfl⟩ := h
  exact ⟨testCode, yesCode, mid', noCode, ht, hy, hn, hfits, hpast, by simp⟩

/-- The code of a loop from its parts; `body` is the body with its gaps filled. -/
theorem loopCode_ok {keyword : String} {place : Coordinate} {test : Code}
    {exit : Int → Instruction} {body tail : Code}
    (h : loopCode keyword place test exit body tail = .ok code) :
    ∃ filled, fillExits place 3 body = .ok filled ∧
      Instruction.fitsJump (-(size test + 3 + size body + 3 : Int)) = true ∧
      Instruction.fitsJump (size body + 3 + size tail) = true ∧
      code = test ++ .instr (exit (size body + 3 + size tail)) :: (filled ++
        .instr (.jump (-(size test + 3 + size body + 3 : Int))) :: tail) := by
  simp only [loopCode, bind_eq_ok, pure_ok, jumpBy_ok] at h
  obtain ⟨back, ⟨hback, rfl⟩, leave, ⟨hleave, rfl⟩, filled, hf, rfl⟩ := h
  exact ⟨filled, hf, hback, hleave, by simp⟩

theorem stmt_while {place : Coordinate} {test : Expr} {body : List Stmt}
    (h : (stmt pool around (.whileLoop place test body)).run es = .ok (code, es')) :
    ∃ testCode bodyCode, expr pool test = .ok testCode ∧
      (stmts pool ⟨around.inFunction, true, some (size testCode + 3)⟩ [] body).run es =
        .ok (bodyCode, es') ∧
      loopCode "while" place testCode .jumpIfFalse bodyCode [] = .ok code := by
  simp only [stmt, run_bind_ok, run_lift_ok] at h
  obtain ⟨testCode, mid, ⟨ht, rfl⟩, bodyCode, mid', hb, hl, rfl⟩ := h
  exact ⟨testCode, bodyCode, ht, hb, hl⟩

theorem stmt_for {place : Coordinate} {name : String} {iterable : Expr} {body : List Stmt}
    (h : (stmt pool around (.forEach place name iterable body)).run es = .ok (code, es')) :
    ∃ iterableCode bodyCode loop, expr pool iterable = .ok iterableCode ∧
      (stmts pool ⟨around.inFunction, true,
        some (3 + (Instruction.defineVar (pool.indexOf (.string name))).size)⟩ [] body).run es =
        .ok (bodyCode, es') ∧
      loopCode "for" place [] .forNext
        (.instr (.defineVar (pool.indexOf (.string name))) :: bodyCode)
        [.instr .pop, .instr .pop] = .ok loop ∧
      code = iterableCode ++ .instr .iterInit :: loop := by
  simp only [stmt, run_bind_ok, run_lift_ok, run_pure_ok] at h
  obtain ⟨iterableCode, mid, ⟨hi, rfl⟩, bodyCode, mid', hb, loop, mid'', ⟨hl, rfl⟩, rfl, rfl⟩ := h
  exact ⟨iterableCode, bodyCode, loop, hi, hb, hl, rfl⟩

theorem stmt_block {place : Coordinate} {body : List Stmt}
    (h : (stmt pool around (.block place body)).run es = .ok (code, es')) :
    (stmts pool { around with inBlock := true } [] body).run es = .ok (code, es') := by
  rw [stmt] at h
  exact h

theorem stmt_personality {place : Coordinate} {traits : List TraitEntry}
    (h : (stmt pool around (.personality place traits)).run es = .ok (code, es')) :
    es' = es ∧ code = [] ∧ around.inFunction = false ∧ around.inBlock = false := by
  rw [stmt] at h
  split_ifs at h with hplace
  · exact absurd h run_throw_ok
  cases h
  have : around.inFunction = false ∧ around.inBlock = false := by simpa using hplace
  exact ⟨rfl, rfl, this⟩

/-- What a `return` does with its value. -/
def returnCode (around : Surroundings) : Code :=
  if around.inFunction then [.instr .ret] else [.instr .pop, .instr .halt]

theorem stmt_giveBack_none {place : Coordinate}
    (h : (stmt pool around (.giveBack place none)).run es = .ok (code, es')) :
    es' = es ∧ code = .instr .pushNull :: returnCode around := by
  rw [stmt] at h
  cases h
  exact ⟨rfl, rfl⟩

theorem stmt_giveBack_some {place : Coordinate} {e : Expr}
    (h : (stmt pool around (.giveBack place (some e))).run es = .ok (code, es')) :
    es' = es ∧ ∃ value, expr pool e = .ok value ∧ code = value ++ returnCode around := by
  simp only [stmt, run_bind_ok, run_lift_ok, run_pure_ok] at h
  obtain ⟨value, mid, ⟨he, rfl⟩, rfl, rfl⟩ := h
  exact ⟨rfl, value, he, rfl⟩

theorem stmt_leave {place : Coordinate}
    (h : (stmt pool around (.leave place)).run es = .ok (code, es')) :
    es' = es ∧ code = [.exit] ∧ around.sinceLoop.isSome = true := by
  rw [stmt] at h
  split_ifs at h with hloop
  · cases h
    exact ⟨rfl, rfl, hloop⟩
  · exact absurd h run_throw_ok

theorem stmt_again {place : Coordinate}
    (h : (stmt pool around (.again place)).run es = .ok (code, es')) :
    es' = es ∧ ∃ n, around.sinceLoop = some n ∧ Instruction.fitsJump (-(n + 3 : Int)) = true ∧
      code = [.instr (.jump (-(n + 3 : Int)))] := by
  rw [stmt] at h
  split at h
  · next n hn =>
    simp only [run_lift_ok, jumpBy_ok] at h
    obtain ⟨⟨hfits, rfl⟩, rfl⟩ := h
    exact ⟨rfl, n, hn, hfits, rfl⟩
  · exact absurd h run_throw_ok

theorem stmts_nil {before : List Code}
    (h : (stmts pool around before []).run es = .ok (code, es')) :
    es' = es ∧ code = before.reverse.flatten := by
  rw [stmts] at h
  cases h
  exact ⟨rfl, rfl⟩

/-- The code before is only put in front. -/
theorem stmts_eq (around : Surroundings) (before : List Code) (ss : List Stmt) (es : List Nat) :
    (stmts pool around before ss).run es =
      ((stmts pool around [] ss).run es).map fun (code, es) => (before.reverse.flatten ++ code, es) := by
  induction ss generalizing around before es with
  | nil =>
    show Except.ok _ = Except.ok _
    simp
  | cons s rest ih =>
    rw [stmts, stmts, StateT.run_bind, StateT.run_bind]
    cases (stmt pool around s).run es with
    | error e => rfl
    | ok r =>
      show (stmts pool (around.after r.1) (r.1 :: before) rest).run r.2 =
        ((stmts pool (around.after r.1) [r.1] rest).run r.2).map _
      rw [ih, ih _ [r.1]]
      cases (stmts pool (around.after r.1) [] rest).run r.2 with
      | error e => rfl
      | ok r' =>
        show Except.ok _ = Except.ok _
        simp

theorem stmts_cons {s : Stmt} {ss : List Stmt}
    (h : (stmts pool around [] (s :: ss)).run es = .ok (code, es')) :
    ∃ first mid rest, (stmt pool around s).run es = .ok (first, mid) ∧
      (stmts pool (around.after first) [] ss).run mid = .ok (rest, es') ∧
      code = first ++ rest := by
  rw [stmts, run_bind_ok] at h
  obtain ⟨first, mid, hs, hrest⟩ := h
  rw [stmts_eq] at hrest
  cases hss : (stmts pool (around.after first) [] ss).run mid with
  | error e =>
    rw [hss] at hrest
    cases hrest
  | ok r =>
    rw [hss] at hrest
    cases hrest
    exact ⟨first, mid, r.1, hs, hss, by simp⟩

theorem personalityCode_cons {block : List TraitEntry} {blocks : List (List TraitEntry)}
    (h : personalityCode pool (block :: blocks) = .ok code) :
    block.length ≤ maxCount ∧ ∃ rest, personalityCode pool blocks = .ok rest ∧
      code = .instr (.personality (block.map fun e => (e.key, pool.indexOf (.ofFloat e.value)))) :: rest := by
  rw [personalityCode] at h
  split_ifs at h with hmax
  · cases h
  simp only [bind_eq_ok, pure_ok] at h
  obtain ⟨rest, hrest, rfl⟩ := h
  exact ⟨Nat.le_of_not_lt hmax, rest, hrest, rfl⟩

end

end Persona.Compilation
