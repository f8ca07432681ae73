import Persona.Proofs.Compilation.Layout
import Persona.Proofs.Syntax.Walk

/-! What compiled code takes from its source.

An instruction has its operands from the pool, where numbers, texts and names stand side by side, and one
text may be all of these. Where they come from is clear all the same: what is pushed is a literal or the
key of a map, what is stored is the target of an assignment, what is defined the name of a statement. -/
namespace Persona.Compilation

/-- The operands that an instruction has from the pool are what the statements have in their place. -/
def Emitted (pool : Pool) (ss : List Stmt) : Instruction → Prop
  | .pushConst idx => ∃ c, idx = pool.indexOf c ∧ ∀ s, c = .string s → s ∈ Stmt.texts ss
  | .loadVar idx => ∃ i, .identifier i ∈ Stmt.parts ss ∧ pool.builtin? i.name = none ∧
      idx = pool.indexOf (.string i.name)
  | .loadBuiltin b => ∃ i, .identifier i ∈ Stmt.parts ss ∧ pool.builtin? i.name = some b
  | .storeVar idx => ∃ target value, .assign target value ∈ Stmt.parts ss ∧
      idx = pool.indexOf (.string target.name)
  | .defineVar idx => ∃ s ∈ ss, ∃ name ∈ s.binds, idx = pool.indexOf (.string name)
  | .makeFunction fn params _ => ∃ d, .function d ∈ ss ∧ fn = pool.indexOf (.string d.name) ∧
      params = d.params.map fun p => pool.indexOf (.string p.name)
  | _ => True

/-! ### Codes -/

section
variable {q : Instruction → Prop} {xs ys code : Code}

theorem HasOnly.append (hx : HasOnly q xs) (hy : HasOnly q ys) : HasOnly q (xs ++ ys) := hasOnly_append.2 ⟨hx, hy⟩

theorem HasOnly.cons {i : Instruction} (hi : q i) (hcode : HasOnly q code) : HasOnly q (.instr i :: code) :=
  hasOnly_cons.2 ⟨hi, hcode⟩

theorem HasOnly.instr {i : Instruction} (hi : q i) : HasOnly q [.instr i] := .cons hi hasOnly_nil

theorem HasOnly.of_mem_instructions (h : HasOnly q code) {i : Instruction} (hi : i ∈ instructions code) : q i := by
  obtain ⟨piece, hpiece, hi⟩ := List.mem_filterMap.1 hi
  cases piece with
  | exit => cases hi
  | instr j =>
    cases hi
    exact h i hpiece

theorem HasOnly.filled {stop off : Nat} {filled : Code} (hfilled : Filled stop off code filled)
    (hjump : ∀ d, q (.jump d)) (h : HasOnly q code) : HasOnly q filled := by
  induction hfilled with
  | nil => exact h
  | instr i _ ih =>
    obtain ⟨hi, hrest⟩ := hasOnly_cons.1 h
    exact .cons hi (ih hrest)
  | exit d _ _ _ ih => exact .cons (hjump d) (ih fun i hi => h i (List.mem_cons_of_mem _ hi))

theorem HasOnly.loopCode {keyword : String} {place : Coordinate} {test body tail : Code} {exit : Int → Instruction}
    (h : loopCode keyword place test exit body tail = .ok code) (hexit : ∀ d, q (exit d)) (hjump : ∀ d, q (.jump d))
    (htest : HasOnly q test) (hbody : HasOnly q body) (htail : HasOnly q tail) : HasOnly q code := by
  obtain ⟨filled, hfill, -, -, rfl⟩ := loopCode_ok h
  have hfilled := HasOnly.filled (filled_of_fillExits hfill 0) hjump hbody
  exact htest.append (.cons (hexit _) (hfilled.append (.cons (hjump _) htail)))

end

/-! ### Expressions -/

variable {pool : Pool} {ss : List Stmt}

theorem emitted_literal {l : Literal} (hl : .literal l ∈ Stmt.parts ss) :
    HasOnly (Emitted pool ss) (literalCode pool l) := by
  cases l with
  | number x => exact .instr ⟨.ofFloat x, rfl, fun s hs => by cases hs⟩
  | string s =>
    refine .instr ⟨.string s, rfl, fun s' hs => ?_⟩
    cases hs
    exact List.mem_flatMap.2 ⟨_, hl, List.mem_singleton_self s⟩
  | bool b =>
    cases b with
    | true => exact .instr trivial
    | false => exact .instr trivial
  | null => exact .instr trivial

theorem emitted_name {i : Identifier} (hi : .identifier i ∈ Stmt.parts ss) :
    HasOnly (Emitted pool ss) (nameCode pool i.name) := by
  unfold nameCode
  split
  · next b hb => exact .instr ⟨i, hi, hb⟩
  · next hnone => exact .instr ⟨i, hi, hnone, rfl⟩

theorem emitted_callCode (argc : Nat) (drop : Bool) : HasOnly (Emitted pool ss) (callCode argc drop) := by
  unfold callCode
  split
  · exact .cons trivial (.instr trivial)
  · exact .instr trivial

mutual

theorem emitted_expr : ∀ (e : Expr) {code : Code}, e.parts ⊆ Stmt.parts ss → expr pool e = .ok code →
    HasOnly (Emitted pool ss) code
  | .literal l, _, hss, h => by
    cases h
    exact emitted_literal (hss (List.mem_singleton_self _))
  | .identifier i, _, hss, h => by
    cases h
    exact emitted_name (hss (List.mem_singleton_self _))
  | .binary op l r, _, hss, h => by
    obtain ⟨-, hss⟩ := List.cons_subset.1 hss
    obtain ⟨hssl, hssr⟩ := List.append_subset.1 hss
    by_cases hand : op = .and
    · subst hand
      obtain ⟨left, right, hl, hr, -, rfl⟩ := expr_and h
      have hright := emitted_expr r hssr hr
      exact (emitted_expr l hssl hl).append (.cons trivial (hright.append (.cons trivial (.instr trivial))))
    by_cases hor : op = .or
    · subst hor
      obtain ⟨left, right, hl, hr, -, rfl⟩ := expr_or h
      have hright := emitted_expr r hssr hr
      exact (emitted_expr l hssl hl).append (.cons trivial (.cons trivial (.cons trivial hright)))
    obtain ⟨left, right, hl, hr, rfl⟩ := expr_binary hand hor h
    exact (emitted_expr l hssl hl).append ((emitted_expr r hssr hr).append (.instr trivial))
  | .unary op e, _, hss, h => by
    obtain ⟨operand, he, rfl⟩ := expr_unary h
    exact (emitted_expr e (List.cons_subset.1 hss).2 he).append (.instr trivial)
  | .assign target value, _, hss, h => by
    obtain ⟨hassign, hss⟩ := List.cons_subset.1 hss
    obtain ⟨valueCode, he, rfl⟩ := expr_assign h
    exact (emitted_expr value hss he).append (.instr ⟨target, value, hassign, rfl⟩)
  | .call place callee arguments, _, hss, h => by
    obtain ⟨-, hss⟩ := List.cons_subset.1 hss
    obtain ⟨hcallee, harguments⟩ := List.append_subset.1 hss
    obtain ⟨-, function, values, hf, hvs, rfl⟩ := expr_call h
    have hvalues := hasOnly_flatten.2 (emitted_exprs arguments harguments hvs)
    exact (emitted_expr callee hcallee hf).append (hvalues.append (emitted_callCode _ false))
  | .array elements, _, hss, h => by
    obtain ⟨values, hvs, rfl⟩ := expr_array h
    exact hasOnly_segments (fun _ => trivial) trivial (emitted_exprs elements (List.cons_subset.1 hss).2 hvs)
  | .map es, _, hss, h => by
    obtain ⟨hmap, hss⟩ := List.cons_subset.1 hss
    obtain ⟨values, hvs, rfl⟩ := expr_map h
    have hkeys : ∀ e ∈ es, e.1 ∈ Stmt.texts ss := fun e he =>
      List.mem_flatMap.2 ⟨_, hmap, List.mem_map_of_mem he⟩
    exact hasOnly_segments (fun _ => trivial) trivial (emitted_entries es hkeys hss hvs)
  | .index object key, _, hss, h => by
    obtain ⟨-, hss⟩ := List.cons_subset.1 hss
    obtain ⟨hobject, hkey⟩ := List.append_subset.1 hss
    obtain ⟨o, k, ho, hk, rfl⟩ := expr_index h
    exact (emitted_expr object hobject ho).append ((emitted_expr key hkey hk).append (.instr trivial))
termination_by structural e => e

theorem emitted_exprs : ∀ (es : List Expr) {values : List Code}, Expr.listParts es ⊆ Stmt.parts ss →
    exprs pool es = .ok values → ∀ v ∈ values, HasOnly (Emitted pool ss) v
  | [], _, _, h => by
    obtain rfl := exprs_nil h
    exact fun v hv => absurd hv List.not_mem_nil
  | e :: es, _, hss, h => by
    obtain ⟨he, hes⟩ := List.append_subset.1 hss
    obtain ⟨first, rest, hfirst, hrest, rfl⟩ := exprs_cons h
    exact List.forall_mem_cons.2 ⟨emitted_expr e he hfirst, emitted_exprs es hes hrest⟩
termination_by structural es => es

theorem emitted_entries : ∀ (es : List (String × Expr)) {values : List Code},
    (∀ e ∈ es, e.1 ∈ Stmt.texts ss) → Expr.entryParts es ⊆ Stmt.parts ss → entries pool es = .ok values →
    ∀ v ∈ values, HasOnly (Emitted pool ss) v
  | [], _, _, _, h => by
    obtain rfl := entries_nil h
    exact fun v hv => absurd hv List.not_mem_nil
  | (key, value) :: es, _, hkeys, hss, h => by
    obtain ⟨hkey, hkeys⟩ := List.forall_mem_cons.1 hkeys
    obtain ⟨hvalue, hes⟩ := List.append_subset.1 hss
    obtain ⟨first, rest, hfirst, hrest, rfl⟩ := entries_cons h
    have hpush : Emitted pool ss (.pushConst (pool.indexOf (.string key))) := by
      refine ⟨.string key, rfl, fun s hs => ?_⟩
      cases hs
      exact hkey
    exact List.forall_mem_cons.2
      ⟨.cons hpush (emitted_expr value hvalue hfirst), emitted_entries es hkeys hes hrest⟩
termination_by structural es => es

end

theorem emitted_dropped {e : Expr} {code : Code} (hss : e.parts ⊆ Stmt.parts ss) (h : dropped pool e = .ok code) :
    HasOnly (Emitted pool ss) code := by
  by_cases hcall : ∃ place callee arguments, e = .call place callee arguments
  · obtain ⟨place, callee, arguments, rfl⟩ := hcall
    obtain ⟨-, hss⟩ := List.cons_subset.1 hss
    obtain ⟨hcallee, harguments⟩ := List.append_subset.1 hss
    obtain ⟨-, function, values, hf, hvs, rfl⟩ := dropped_call h
    have hvalues := hasOnly_flatten.2 (emitted_exprs arguments harguments hvs)
    exact (emitted_expr callee hcallee hf).append (hvalues.append (emitted_callCode _ true))
  · obtain ⟨value, he, rfl⟩ := dropped_other (fun p c as heq => hcall ⟨p, c, as, heq⟩) h
    exact (emitted_expr e hss he).append (.instr trivial)

/-! ### Statements -/

/-- The code of an expression that stands in one of the statements. -/
theorem emitted_site {s : Stmt} {e : Expr} {code : Code} (hs : s ∈ ss) (he : e ∈ s.exprs)
    (h : expr pool e = .ok code) : HasOnly (Emitted pool ss) code :=
  emitted_expr e (Stmt.parts_subset hs he) h

theorem emitted_define {s : Stmt} {name : String} (hs : s ∈ ss) (hname : name ∈ s.binds) :
    Emitted pool ss (.defineVar (pool.indexOf (.string name))) := ⟨s, hs, name, hname, rfl⟩

theorem emitted_returnCode (around : Surroundings) : HasOnly (Emitted pool ss) (returnCode around) := by
  unfold returnCode
  split
  · exact .instr trivial
  · exact .cons trivial (.instr trivial)

mutual

theorem emitted_stmt : ∀ (s : Stmt) {around : Surroundings} {es es' : List Nat} {code : Code},
    s.deep ⊆ ss → (stmt pool around s).run es = .ok (code, es') → HasOnly (Emitted pool ss) code
  | .expr _ e, _, _, _, _, hss, h =>
    emitted_dropped (Stmt.parts_subset (hss (List.mem_singleton_self _)) (List.mem_singleton_self e))
      (stmt_expr h).2
  | .bind _ name e, _, _, _, _, hss, h => by
    have hsite := hss (List.mem_singleton_self _)
    obtain ⟨-, value, he, rfl⟩ := stmt_bind h
    have hvalue := emitted_site hsite (List.mem_singleton_self e) he
    exact hvalue.append (.instr (emitted_define hsite (List.mem_singleton_self name)))
  | .function d, _, _, _, _, hss, h => by
    have hsite := hss (Stmt.mem_deep _)
    obtain ⟨-, entry, -, rfl⟩ := stmt_function h
    exact .cons ⟨d, hsite, rfl, rfl⟩ (.instr (emitted_define hsite (List.mem_singleton_self d.name)))
  | .cond _ test yes none, _, _, _, _, hss, h => by
    obtain ⟨hsite, hss⟩ := List.cons_subset.1 hss
    obtain ⟨testCode, yesCode, ht, hy, -, rfl⟩ := stmt_cond_none h
    have hyes := emitted_stmts yes (List.append_subset.1 hss).1 hy
    exact (emitted_site hsite (List.mem_singleton_self test) ht).append (.cons trivial hyes)
  | .cond _ test yes (some no), _, _, _, _, hss, h => by
    obtain ⟨hsite, hss⟩ := List.cons_subset.1 hss
    obtain ⟨hssYes, hssNo⟩ := List.append_subset.1 hss
    obtain ⟨testCode, yesCode, _, noCode, ht, hy, hn, -, -, rfl⟩ := stmt_cond_some h
    have hyes := emitted_stmts yes hssYes hy
    have hno := emitted_stmt no hssNo hn
    exact (emitted_site hsite (List.mem_singleton_self test) ht).append
      (.cons trivial (hyes.append (.cons trivial hno)))
  | .whileLoop _ test body, _, _, _, _, hss, h => by
    obtain ⟨hsite, hss⟩ := List.cons_subset.1 hss
    obtain ⟨testCode, bodyCode, ht, hb, hl⟩ := stmt_while h
    have htest := emitted_site hsite (List.mem_singleton_self test) ht
    exact .loopCode hl (fun _ => trivial) (fun _ => trivial) htest (emitted_stmts body hss hb) hasOnly_nil
  | .forEach _ name iterable body, _, _, _, _, hss, h => by
    obtain ⟨hsite, hss⟩ := List.cons_subset.1 hss
    obtain ⟨iterableCode, bodyCode, loop, hi, hb, hl, rfl⟩ := stmt_for h
    have hround : HasOnly (Emitted pool ss) (.instr (.defineVar (pool.indexOf (.string name))) :: bodyCode) :=
      .cons (emitted_define hsite (List.mem_singleton_self name)) (emitted_stmts body hss hb)
    have hloop := HasOnly.loopCode hl (fun _ => trivial) (fun _ => trivial) hasOnly_nil hround
      (.cons trivial (.instr trivial))
    exact (emitted_site hsite (List.mem_singleton_self iterable) hi).append (.cons trivial hloop)
  | .block _ body, _, _, _, _, hss, h => emitted_stmts body (List.cons_subset.1 hss).2 (stmt_block h)
  | .personality .., _, _, _, _, _, h => by
    obtain ⟨-, rfl, -⟩ := stmt_personality h
    exact hasOnly_nil
  | .giveBack _ none, around, _, _, _, _, h => by
    obtain ⟨-, rfl⟩ := stmt_giveBack_none h
    exact .cons trivial (emitted_returnCode around)
  | .giveBack _ (some e), around, _, _, _, hss, h => by
    obtain ⟨-, value, he, rfl⟩ := stmt_giveBack_some h
    have hvalue := emitted_site (hss (List.mem_singleton_self _)) (List.mem_singleton_self e) he
    exact hvalue.append (emitted_returnCode around)
  | .leave _, _, _, _, _, _, h => by
    obtain ⟨-, rfl, -⟩ := stmt_leave h
    exact fun i hi => nomatch List.mem_singleton.1 hi
  | .again _, _, _, _, _, _, h => by
    obtain ⟨-, n, -, -, rfl⟩ := stmt_again h
    exact .instr trivial
termination_by structural s => s

theorem emitted_stmts : ∀ (rest : List Stmt) {around : Surroundings} {es es' : List Nat} {code : Code},
    Stmt.deepList rest ⊆ ss → (stmts pool around [] rest).run es = .ok (code, es') → HasOnly (Emitted pool ss) code
  | [], _, _, _, _, _, h => by
    obtain ⟨-, rfl⟩ := stmts_nil h
    exact hasOnly_nil
  | s :: rest, _, _, _, _, hss, h => by
    obtain ⟨hfirst, hrest⟩ := List.append_subset.1 hss
    obtain ⟨first, _, others, hs, ho, rfl⟩ := stmts_cons h
    exact (emitted_stmt s hfirst hs).append (emitted_stmts rest hrest ho)
termination_by structural rest => rest

end

/-! ### Programs -/

theorem emitted_addBody {d : FunctionDecl} {inner : List Nat} {b b' : Bodies} (hss : Stmt.deepList d.body ⊆ ss)
    (hb : ∀ code ∈ b.code, HasOnly (Emitted pool ss) code) (h : addBody pool d inner b = .ok b') :
    ∀ code ∈ b'.code, HasOnly (Emitted pool ss) code := by
  obtain ⟨_, code, hrun, rfl⟩ := addBody_ok h
  have hbody := emitted_stmts d.body hss hrun
  exact List.forall_mem_cons.2 ⟨hbody.append (.cons trivial (.instr trivial)), hb⟩

mutual

theorem emitted_bodies : ∀ (s : Stmt) {b b' : Bodies}, s.deep ⊆ ss →
    (∀ code ∈ b.code, HasOnly (Emitted pool ss) code) → bodies pool s b = .ok b' →
    ∀ code ∈ b'.code, HasOnly (Emitted pool ss) code
  | .function ⟨_, _, _, _, body⟩, b, _, hss, hb, h => by
    obtain ⟨-, hss⟩ := List.cons_subset.1 hss
    rw [bodies, bind_eq_ok] at h
    obtain ⟨inner, hinner, hadd⟩ := h
    have hcodes := emitted_bodiesOf body hss (b := { b with entries := [] }) hb hinner
    exact emitted_addBody (b := { inner with entries := b.entries }) hss hcodes hadd
  | .cond _ _ yes no, _, _, hss, hb, h => by
    obtain ⟨hyes, hno⟩ := List.append_subset.1 (List.cons_subset.1 hss).2
    rw [bodies, bind_eq_ok] at h
    obtain ⟨mid, hmid, hlast⟩ := h
    exact emitted_bodiesElse no hno (emitted_bodiesOf yes hyes hb hmid) hlast
  | .whileLoop _ _ body, _, _, hss, hb, h | .forEach _ _ _ body, _, _, hss, hb, h
  | .block _ body, _, _, hss, hb, h => emitted_bodiesOf body (List.cons_subset.1 hss).2 hb h
  | .expr .., _, _, _, hb, h | .bind .., _, _, _, hb, h | .personality .., _, _, _, hb, h
  | .giveBack .., _, _, _, hb, h | .leave _, _, _, _, hb, h | .again _, _, _, _, hb, h => by
    cases h
    exact hb
termination_by structural s => s

theorem emitted_bodiesOf : ∀ (rest : List Stmt) {b b' : Bodies}, Stmt.deepList rest ⊆ ss →
    (∀ code ∈ b.code, HasOnly (Emitted pool ss) code) → bodiesOf pool rest b = .ok b' →
    ∀ code ∈ b'.code, HasOnly (Emitted pool ss) code
  | [], _, _, _, hb, h => by
    cases h
    exact hb
  | s :: rest, _, _, hss, hb, h => by
    obtain ⟨hfirst, hrest⟩ := List.append_subset.1 hss
    rw [bodiesOf, bind_eq_ok] at h
    obtain ⟨mid, hmid, hlast⟩ := h
    exact emitted_bodiesOf rest hrest (emitted_bodies s hfirst hb hmid) hlast
termination_by structural rest => rest

theorem emitted_bodiesElse : ∀ (no : Option Stmt) {b b' : Bodies}, Stmt.deepElse no ⊆ ss →
    (∀ code ∈ b.code, HasOnly (Emitted pool ss) code) → bodiesElse pool no b = .ok b' →
    ∀ code ∈ b'.code, HasOnly (Emitted pool ss) code
  | none, _, _, _, hb, h => by
    cases h
    exact hb
  | some s, _, _, hss, hb, h => emitted_bodies s hss hb h
termination_by structural no => no

end

theorem emitted_personalityCode {blocks : List (List TraitEntry)} {code : Code}
    (h : personalityCode pool blocks = .ok code) : HasOnly (Emitted pool ss) code := by
  induction blocks generalizing code with
  | nil =>
    cases h
    exact hasOnly_nil
  | cons block blocks ih =>
    obtain ⟨-, rest, hrest, rfl⟩ := personalityCode_cons h
    exact .cons trivial (ih hrest)

/-- All instructions of a program have their operands from its statements. -/
theorem exists_parts_emitted {p : Program} {b : Bytecode} (h : compile p = .ok b) :
    ∃ x : Parts p, b = x.bytecode ∧ HasOnly (Emitted (Pool.ofProgram p) (Stmt.deepList p.statements)) x.whole := by
  obtain ⟨x, hx, codes, hbodies, hcodes⟩ := exists_parts_of_bodies h
  refine ⟨x, hx, HasOnly.append (hasOnly_flatten.2 ?_) ?_⟩
  · intro code hcode
    have hall := emitted_bodiesOf p.statements (List.Subset.refl _) (List.forall_mem_nil _) hbodies
    exact hall code (hcodes ▸ List.mem_reverse.2 hcode)
  · have hmain := emitted_stmts p.statements (List.Subset.refl _) x.main_ok
    exact (emitted_personalityCode x.setup_ok).append (hmain.append (.instr trivial))

/-! ### Constants -/

/-- Nothing else stands at the index of a constant. -/
theorem eq_of_getElem?_indexOf {c k : Constant} (h : pool.constants[pool.indexOf c]? = some k) : k = c := by
  obtain ⟨hlt, -⟩ := List.getElem?_eq_some_iff.1 h
  rw [Pool.getElem?_indexOf (List.idxOf_lt_length_iff.1 hlt)] at h
  exact (Option.some.inj h).symm

end Persona.Compilation
