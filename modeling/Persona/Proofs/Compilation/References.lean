import Persona.Proofs.Compilation.Interning

/-! Every constant is used.

What a part of a program mentions, an instruction of its code refers to. So all entries of the pool are
referred to by the code of the program, and with emission adding none, the pool has what the code needs
and nothing else. -/
namespace Persona

/-- The indices into the pool that an instruction has. -/
def Instruction.indices : Instruction → List Nat
  | pushConst idx | loadVar idx | storeVar idx | defineVar idx => [idx]
  | makeFunction name params _ => name :: params
  | personality entries => entries.map (·.2)
  | _ => []

namespace Compilation

/-- An instruction has the index of the constant. -/
def Refers (pool : Pool) (is : List Instruction) (c : Constant) : Prop := ∃ i ∈ is, pool.indexOf c ∈ i.indices

section
variable {pool : Pool} {is : List Instruction}

/-! ### Loops -/

theorem hasOnly_filled {stop off : Nat} {code filled : Code} (hfilled : Filled stop off code filled)
    (h : HasOnly (· ∈ is) filled) : HasOnly (· ∈ is) code := by
  induction hfilled with
  | nil => exact h
  | instr i _ ih =>
    rw [hasOnly_cons] at h ⊢
    exact ⟨h.1, ih h.2⟩
  | exit d _ _ _ ih =>
    rw [hasOnly_cons] at h
    intro i hi
    rcases List.mem_cons.1 hi with hi | hi
    · cases hi
    · exact ih h.2 i hi

theorem hasOnly_loopCode {keyword : String} {place : Coordinate} {test body tail code : Code}
    {exit : Int → Instruction} (hcode : loopCode keyword place test exit body tail = .ok code)
    (h : HasOnly (· ∈ is) code) : HasOnly (· ∈ is) test ∧ HasOnly (· ∈ is) body := by
  obtain ⟨filled, hfill, -, -, rfl⟩ := loopCode_ok hcode
  simp only [hasOnly_append, hasOnly_cons] at h
  exact ⟨h.1, hasOnly_filled (filled_of_fillExits hfill 0) h.2.2.1⟩

/-! ### Expressions -/

theorem refers_literal {l : Literal} (h : HasOnly (· ∈ is) (literalCode pool l)) :
    ∀ c ∈ (Expr.literal l).mentions pool.isFixed, Refers pool is c := by
  cases l with
  | number x =>
    intro c hc
    cases List.mem_singleton.1 hc
    exact ⟨_, h _ (List.mem_singleton_self _), List.mem_singleton_self _⟩
  | string s =>
    intro c hc
    cases List.mem_singleton.1 hc
    exact ⟨_, h _ (List.mem_singleton_self _), List.mem_singleton_self _⟩
  | bool b => exact fun c hc => absurd hc List.not_mem_nil
  | null => exact fun c hc => absurd hc List.not_mem_nil

/-- A name is loaded by its index unless it stands for a built-in, and then it is not mentioned. -/
theorem refers_name {x : Identifier} (h : HasOnly (· ∈ is) (nameCode pool x.name)) :
    ∀ c ∈ (Expr.identifier x).mentions pool.isFixed, Refers pool is c := by
  intro c hc
  unfold nameCode at h
  unfold Expr.mentions Pool.isFixed at hc
  cases hb : pool.builtin? x.name with
  | some b =>
    rw [hb] at hc
    cases hc
  | none =>
    rw [hb] at h hc
    cases List.mem_singleton.1 hc
    exact ⟨_, h _ (List.mem_singleton_self _), List.mem_singleton_self _⟩

mutual

theorem refers_expr : ∀ (e : Expr) {code : Code}, expr pool e = .ok code → HasOnly (· ∈ is) code →
    ∀ c ∈ e.mentions pool.isFixed, Refers pool is c
  | .literal l, code, h, hcode => by
    cases h
    exact refers_literal hcode
  | .identifier i, code, h, hcode => by
    cases h
    exact refers_name hcode
  | .binary op l r, code, h, hcode => by
    have hparts : ∃ left right, expr pool l = .ok left ∧ expr pool r = .ok right ∧ HasOnly (· ∈ is) left ∧
        HasOnly (· ∈ is) right := by
      by_cases hand : op = .and
      · subst hand
        obtain ⟨left, right, hl, hr, -, rfl⟩ := expr_and h
        simp only [hasOnly_append, hasOnly_cons] at hcode
        exact ⟨left, right, hl, hr, hcode.1, hcode.2.2.1⟩
      by_cases hor : op = .or
      · subst hor
        obtain ⟨left, right, hl, hr, -, rfl⟩ := expr_or h
        simp only [hasOnly_append, hasOnly_cons] at hcode
        exact ⟨left, right, hl, hr, hcode.1, hcode.2.2.2.2⟩
      obtain ⟨left, right, hl, hr, rfl⟩ := expr_binary hand hor h
      simp only [hasOnly_append] at hcode
      exact ⟨left, right, hl, hr, hcode.1, hcode.2.1⟩
    obtain ⟨left, right, hl, hr, hleft, hright⟩ := hparts
    exact List.forall_mem_append.2 ⟨refers_expr l hl hleft, refers_expr r hr hright⟩
  | .unary _ e, code, h, hcode => by
    obtain ⟨operand, he, rfl⟩ := expr_unary h
    exact refers_expr e he (hasOnly_append.1 hcode).1
  | .assign target value, code, h, hcode => by
    obtain ⟨valueCode, hv, rfl⟩ := expr_assign h
    simp only [hasOnly_append, hasOnly_cons] at hcode
    refine List.forall_mem_append.2 ⟨refers_expr value hv hcode.1, fun c hc => ?_⟩
    cases List.mem_singleton.1 hc
    exact ⟨_, hcode.2.1, List.mem_singleton_self _⟩
  | .call _ callee arguments, code, h, hcode => by
    obtain ⟨-, function, values, hf, hvs, rfl⟩ := expr_call h
    simp only [hasOnly_append, hasOnly_flatten] at hcode
    exact List.forall_mem_append.2 ⟨refers_expr callee hf hcode.1, refers_exprs arguments hvs hcode.2.1⟩
  | .array elements, code, h, hcode => by
    obtain ⟨values, hvs, rfl⟩ := expr_array h
    exact refers_exprs elements hvs (hasOnly_entries hcode)
  | .map es, code, h, hcode => by
    obtain ⟨values, hvs, rfl⟩ := expr_map h
    exact refers_entries es hvs (hasOnly_entries hcode)
  | .index object key, code, h, hcode => by
    obtain ⟨o, k, ho, hk, rfl⟩ := expr_index h
    simp only [hasOnly_append] at hcode
    exact List.forall_mem_append.2 ⟨refers_expr object ho hcode.1, refers_expr key hk hcode.2.1⟩
termination_by structural e => e

theorem refers_exprs : ∀ (es : List Expr) {values : List Code}, exprs pool es = .ok values →
    (∀ v ∈ values, HasOnly (· ∈ is) v) → ∀ c ∈ Expr.listMentions pool.isFixed es, Refers pool is c
  | [], _, _, _ => fun c hc => absurd hc List.not_mem_nil
  | e :: es, values, h, hvalues => by
    obtain ⟨first, rest, he, hes, rfl⟩ := exprs_cons h
    obtain ⟨hfirst, hrest⟩ := List.forall_mem_cons.1 hvalues
    exact List.forall_mem_append.2 ⟨refers_expr e he hfirst, refers_exprs es hes hrest⟩
termination_by structural es => es

theorem refers_entries : ∀ (es : List (String × Expr)) {values : List Code}, entries pool es = .ok values →
    (∀ v ∈ values, HasOnly (· ∈ is) v) → ∀ c ∈ Expr.entryMentions pool.isFixed es, Refers pool is c
  | [], _, _, _ => fun c hc => absurd hc List.not_mem_nil
  | (key, e) :: es, values, h, hvalues => by
    obtain ⟨first, rest, he, hes, rfl⟩ := entries_cons h
    obtain ⟨hfirst, hrest⟩ := List.forall_mem_cons.1 hvalues
    rw [hasOnly_cons] at hfirst
    refine List.forall_mem_cons.2 ⟨⟨_, hfirst.1, List.mem_singleton_self _⟩, ?_⟩
    exact List.forall_mem_append.2 ⟨refers_expr e he hfirst.2, refers_entries es hes hrest⟩
termination_by structural es => es

end

theorem refers_dropped {e : Expr} {code : Code} (h : dropped pool e = .ok code) (hcode : HasOnly (· ∈ is) code) :
    ∀ c ∈ e.mentions pool.isFixed, Refers pool is c := by
  by_cases hcall : ∃ place callee arguments, e = .call place callee arguments
  · obtain ⟨place, callee, arguments, rfl⟩ := hcall
    obtain ⟨-, function, values, hf, hvs, rfl⟩ := dropped_call h
    simp only [hasOnly_append, hasOnly_flatten] at hcode
    exact List.forall_mem_append.2 ⟨refers_expr callee hf hcode.1, refers_exprs arguments hvs hcode.2.1⟩
  · obtain ⟨value, he, rfl⟩ := dropped_other (fun place callee arguments h => hcall ⟨place, callee, arguments, h⟩) h
    exact refers_expr e he (hasOnly_append.1 hcode).1

/-! ### Statements -/

/-- The personality blocks among statements that may have some are referred to. -/
def Hoisted (pool : Pool) (is : List Instruction) (around : Surroundings) (ss : List Stmt) : Prop :=
  around.inFunction = false → around.inBlock = false → ∀ place es, .personality place es ∈ ss →
    ∀ e ∈ es, Refers pool is (.ofFloat e.value)

/-- In a block there are none. -/
theorem hoisted_block {around : Surroundings} (h : around.inBlock = true) (ss : List Stmt) :
    Hoisted pool is around ss := by
  intro _ hblock
  rw [h] at hblock
  cases hblock

/-- The bodies of the table are written, each with its instructions among these. -/
def Written (pool : Pool) (is : List Instruction) (t : Table) : Prop :=
  ∀ x ∈ t, ∃ whole, BodyCode pool t x.2 whole ∧ HasOnly (· ∈ is) whole

mutual

/-- What a statement mentions, its code refers to, or the body of a function that it declares. -/
theorem refers_stmt {t : Table} (ht : Written pool is t) : ∀ (s : Stmt) {around : Surroundings} {es es' : List Nat}
    {code : Code},
    (stmt pool around s).run es = .ok (code, es') → Supplies t s.declared es → HasOnly (· ∈ is) code →
      Hoisted pool is around [s] → ∀ c ∈ s.mentions pool.isFixed, Refers pool is c
  | .expr _ e, around, es, es', code, h, hsupplies, hcode, hhoisted =>
    refers_dropped (stmt_expr h).2 hcode
  | .bind _ name value, around, es, es', code, h, hsupplies, hcode, hhoisted => by
    obtain ⟨-, valueCode, hv, rfl⟩ := stmt_bind h
    simp only [hasOnly_append, hasOnly_cons] at hcode
    exact List.forall_mem_cons.2 ⟨⟨_, hcode.2.1, List.mem_singleton_self _⟩, refers_expr value hv hcode.1⟩
  | .function ⟨place, name, params, returnType, body⟩, around, es, es', code, h, hsupplies, hcode, hhoisted => by
    obtain ⟨-, entry, rfl, rfl⟩ := stmt_function h
    simp only [functionCode, hasOnly_cons] at hcode
    obtain ⟨whole, hbody, hwhole⟩ := ht _ hsupplies.1
    obtain ⟨inner, inner', bodyCode, hrun, hinner, rfl⟩ := hbody.compiled
    refine List.forall_mem_append.2 ⟨?_, ?_⟩
    · refine List.forall_mem_cons.2 ⟨⟨_, hcode.2.1, List.mem_singleton_self _⟩, fun c hc => ?_⟩
      obtain ⟨p, hp, rfl⟩ := List.mem_map.1 hc
      exact ⟨_, hcode.1, List.mem_cons_of_mem _ (List.mem_map.2 ⟨p, hp, rfl⟩)⟩
    · have hoisted : Hoisted pool is ⟨true, false, none⟩ body := fun h => nomatch h
      exact refers_stmts ht body hrun hinner (hasOnly_append.1 hwhole).1 hoisted
  | .cond _ test yes none, around, es, es', code, h, hsupplies, hcode, hhoisted => by
    obtain ⟨testCode, yesCode, htest, hyes, -, rfl⟩ := stmt_cond_none h
    rw [Stmt.declared_cond, supplies_append] at hsupplies
    simp only [hasOnly_append, hasOnly_cons] at hcode
    simp only [Stmt.mentions, Stmt.elseMentions, List.append_nil]
    exact List.forall_mem_append.2 ⟨refers_expr test htest hcode.1,
      refers_stmts ht yes hyes hsupplies.1 hcode.2.2 (hoisted_block rfl _)⟩
  | .cond _ test yes (some no), around, es, es', code, h, hsupplies, hcode, hhoisted => by
    obtain ⟨testCode, yesCode, mid, noCode, htest, hyes, hno, -, -, rfl⟩ := stmt_cond_some h
    rw [Stmt.declared_cond, supplies_append, ← stmts_entries yes hyes] at hsupplies
    simp only [hasOnly_append, hasOnly_cons] at hcode
    refine List.forall_mem_append.2 ⟨List.forall_mem_append.2 ⟨refers_expr test htest hcode.1, ?_⟩, ?_⟩
    · exact refers_stmts ht yes hyes hsupplies.1 hcode.2.2.1 (hoisted_block rfl _)
    · exact refers_stmt ht no hno hsupplies.2 hcode.2.2.2.2 (hoisted_block rfl _)
  | .whileLoop _ test body, around, es, es', code, h, hsupplies, hcode, hhoisted => by
    obtain ⟨testCode, bodyCode, htest, hbody, hloop⟩ := stmt_while h
    rw [Stmt.declared_while] at hsupplies
    obtain ⟨htestCode, hbodyCode⟩ := hasOnly_loopCode hloop hcode
    exact List.forall_mem_append.2 ⟨refers_expr test htest htestCode,
      refers_stmts ht body hbody hsupplies hbodyCode (hoisted_block rfl _)⟩
  | .forEach _ name iterable body, around, es, es', code, h, hsupplies, hcode, hhoisted => by
    obtain ⟨iterableCode, bodyCode, loop, hiterable, hbody, hloop, rfl⟩ := stmt_for h
    rw [Stmt.declared_for] at hsupplies
    simp only [hasOnly_append, hasOnly_cons] at hcode
    obtain ⟨hdefine, hbodyCode⟩ := hasOnly_cons.1 (hasOnly_loopCode hloop hcode.2.2).2
    refine List.forall_mem_append.2 ⟨refers_expr iterable hiterable hcode.1, ?_⟩
    refine List.forall_mem_cons.2 ⟨⟨_, hdefine, List.mem_singleton_self _⟩, ?_⟩
    exact refers_stmts ht body hbody hsupplies hbodyCode (hoisted_block rfl _)
  | .block _ body, around, es, es', code, h, hsupplies, hcode, hhoisted => by
    rw [Stmt.declared_block] at hsupplies
    exact refers_stmts ht body (stmt_block h) hsupplies hcode (hoisted_block rfl _)
  | .personality place entries, around, es, es', code, h, hsupplies, hcode, hhoisted => by
    obtain ⟨-, -, hfunction, hblock⟩ := stmt_personality h
    intro c hc
    obtain ⟨e, he, rfl⟩ := List.mem_map.1 hc
    exact hhoisted hfunction hblock place entries (List.mem_singleton_self _) e he
  | .giveBack _ none, _, _, _, _, _, _, _, _ => fun c hc => absurd hc List.not_mem_nil
  | .giveBack _ (some e), around, es, es', code, h, hsupplies, hcode, hhoisted => by
    obtain ⟨-, value, he, rfl⟩ := stmt_giveBack_some h
    exact refers_expr e he (hasOnly_append.1 hcode).1
  | .leave _, _, _, _, _, _, _, _, _ => fun c hc => absurd hc List.not_mem_nil
  | .again _, _, _, _, _, _, _, _, _ => fun c hc => absurd hc List.not_mem_nil
termination_by structural s => s

theorem refers_stmts {t : Table} (ht : Written pool is t) : ∀ (ss : List Stmt) {around : Surroundings}
    {es es' : List Nat} {code : Code},
    (stmts pool around [] ss).run es = .ok (code, es') → Supplies t (Stmt.declaredIn ss) es → HasOnly (· ∈ is) code →
      Hoisted pool is around ss → ∀ c ∈ Stmt.listMentions pool.isFixed ss, Refers pool is c
  | [], _, _, _, _, _, _, _, _ => fun c hc => absurd hc List.not_mem_nil
  | s :: ss, around, es, es', code, h, hsupplies, hcode, hhoisted => by
    obtain ⟨first, mid, rest, hs, hss, rfl⟩ := stmts_cons h
    rw [Stmt.declaredIn_cons, supplies_append, ← stmt_entries s hs] at hsupplies
    rw [hasOnly_append] at hcode
    have hfirst : Hoisted pool is around [s] := fun hf hb place es hmem =>
      hhoisted hf hb place es (List.mem_singleton.1 hmem ▸ List.mem_cons_self ..)
    have hrest : Hoisted pool is (around.after first) ss := fun hf hb place es hmem =>
      hhoisted hf hb place es (List.mem_cons_of_mem _ hmem)
    exact List.forall_mem_append.2 ⟨refers_stmt ht s hs hsupplies.1 hcode.1 hfirst,
      refers_stmts ht ss hss hsupplies.2 hcode.2 hrest⟩
termination_by structural ss => ss

end

/-! ### Programs -/

theorem refers_personality {blocks : List (List TraitEntry)} {code : Code}
    (h : personalityCode pool blocks = .ok code) (hcode : HasOnly (· ∈ is) code) :
    ∀ block ∈ blocks, ∀ e ∈ block, Refers pool is (.ofFloat e.value) := by
  induction blocks generalizing code with
  | nil => exact fun block hblock => absurd hblock List.not_mem_nil
  | cons block blocks ih =>
    obtain ⟨-, rest, hrest, rfl⟩ := personalityCode_cons h
    rw [hasOnly_cons] at hcode
    refine List.forall_mem_cons.2 ⟨fun e he => ⟨_, hcode.1, ?_⟩, ih hrest hcode.2⟩
    simp only [Instruction.indices, List.map_map, List.mem_map]
    exact ⟨e, he, rfl⟩

end

theorem mem_personalityBlocks {p : Program} {place : Coordinate} {es : List TraitEntry}
    (h : .personality place es ∈ p.statements) : es ∈ p.personalityBlocks :=
  List.mem_filterMap.2 ⟨_, h, rfl⟩

/-- Every constant of a compiled program is referred to. -/
theorem Parts.refers {p : Program} (x : Parts p) {is : List Instruction} (h : HasOnly (· ∈ is) x.whole) :
    ∀ c ∈ (Pool.ofProgram p).constants, Refers (Pool.ofProgram p) is c := by
  simp only [Parts.whole, hasOnly_append] at h
  obtain ⟨hcodes, hsetup, hmain, -⟩ := h
  have hwritten : Written (Pool.ofProgram p) is x.table := by
    rintro ⟨entry, body⟩ hbody
    obtain ⟨front, whole, back, hflat, -, hcode⟩ := x.laid.code_at hbody
    rw [hflat] at hcodes
    exact ⟨whole, hcode, (hasOnly_append.1 (hasOnly_append.1 hcodes).2).1⟩
  have hhoisted : Hoisted (Pool.ofProgram p) is ⟨false, false, none⟩ p.statements := fun _ _ place es hes =>
    refers_personality x.setup_ok hsetup es (mem_personalityBlocks hes)
  intro c hc
  rw [Pool.mem_ofProgram] at hc
  exact refers_stmts hwritten p.statements x.main_ok x.supplies hmain hhoisted c hc

end Compilation

open Compilation in
/-- The pool of a compiled program is exact: emission that adds the constants that it does not find comes to
the same bytecode, whose constants are those that were collected; they are all different; and to each of them
an instruction that is decoded from the code refers, if words can count the constants and the bytes in front
of the entry. -/
theorem compile_constants {p : Program} {b : Bytecode} (h : compile p = .ok b) :
    compileGrowing p = .ok b ∧ b.constants = (Pool.ofProgram p).constants ∧ b.constants.Nodup ∧
      (b.constants.length < 2 ^ 64 → b.entry < 2 ^ 64 →
        ∃ is, Instruction.decodeAll b.code = (is, none) ∧
          ∀ idx < b.constants.length, ∃ x ∈ is, idx ∈ x.2.indices) := by
  refine ⟨(compileGrowing_eq p).trans h, ?_⟩
  obtain ⟨x, rfl⟩ := exists_parts h
  have hnodup := Pool.nodup_ofProgram p
  refine ⟨rfl, hnodup, fun hconstants hentry => ?_⟩
  obtain ⟨is, his, hencodable, hcode⟩ := x.exists_encodable hconstants hentry
  refine ⟨Instruction.located 0 is, ?_, fun idx hidx => ?_⟩
  · rw [hcode]
    exact Instruction.decodeAll_eq_iff.2 (Instruction.decodes_located hencodable 0)
  have honly : HasOnly (· ∈ is) x.whole := by
    intro i hi
    rw [his] at hi
    obtain ⟨j, hj, heq⟩ := List.mem_map.1 hi
    cases heq
    exact hj
  obtain ⟨i, hi, hindex⟩ := x.refers honly _ (List.getElem_mem hidx)
  obtain ⟨offset, hlocated⟩ := Instruction.exists_located hi 0
  have hindexOf : (Pool.ofProgram p).indexOf x.bytecode.constants[idx] = idx := hnodup.idxOf_getElem idx hidx
  rw [hindexOf] at hindex
  exact ⟨(offset, i), hlocated, hindex⟩

/-- A program that binds the name of a built-in and uses that of another. -/
def shadowedLen : Program :=
  ⟨[.bind .start "len" (.literal (.string "a")),
    .expr .start (.call .start (.identifier ⟨"print", .start⟩)
      [.identifier ⟨"len", .start⟩, .literal (.string "a")])]⟩

theorem compile_constants_shadowedLen : ∃ b, compile shadowedLen = .ok b ∧ compileGrowing shadowedLen = .ok b ∧
    b.constants = [.string "len", .string "a"] ∧ b.constants.Nodup ∧
    ∃ is, Instruction.decodeAll b.code = (is, none) ∧ ∀ idx < 2, ∃ x ∈ is, idx ∈ x.2.indices := by
  have hcompile : compile shadowedLen =
      .ok ⟨[.string "len", .string "a"], [65, 192, 32, 128, 65, 58, 0], 0⟩ := by decide +kernel
  obtain ⟨hgrowing, -, hnodup, hrefers⟩ := compile_constants hcompile
  exact ⟨_, hcompile, hgrowing, rfl, hnodup, hrefers (by decide) (by decide)⟩

end Persona
