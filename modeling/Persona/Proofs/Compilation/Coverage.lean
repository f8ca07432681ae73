import Persona.Compilation.Pool
import Persona.Proofs.Syntax.Walk

/-! The pool of a program has everything that the program mentions.

`Covers…` says so of a part of a program: the constants that it mentions are in the
pool, and the names that it binds are among the bound ones. It follows the syntax, so
that the parts of a covered part are covered by definition. -/
namespace Persona

/-! ### Assigned names -/

namespace Expr

/-- The names assigned in an expression are those in its parts, apart from its own. -/
theorem assigned_append {e : Expr} {before after : List Expr} (h : e.parts = e :: (before ++ after))
    (hown : ∀ target value, e ≠ assign target value) :
    e.assigned = before.filterMap (fun | assign target _ => some target.name | _ => none) ++
      after.filterMap (fun | assign target _ => some target.name | _ => none) := by
  unfold assigned
  rw [h, ← List.filterMap_append, List.filterMap_cons]
  split
  · rfl
  · next heq =>
    cases e with
    | assign target value => exact absurd rfl (hown target value)
    | _ => cases heq

theorem mem_assigned_listParts {es : List Expr} {e : Expr} {n : String} (he : e ∈ es)
    (h : n ∈ e.assigned) :
    n ∈ (listParts es).filterMap fun | assign target _ => some target.name | _ => none := by
  rw [listParts_eq, List.filterMap_flatMap]
  exact List.mem_flatMap.2 ⟨e, he, h⟩

theorem mem_assigned_entryParts {es : List (String × Expr)} {e : String × Expr} {n : String}
    (he : e ∈ es) (h : n ∈ e.2.assigned) :
    n ∈ (entryParts es).filterMap fun | assign target _ => some target.name | _ => none := by
  rw [entryParts_eq, List.filterMap_flatMap]
  exact List.mem_flatMap.2 ⟨e, he, h⟩

end Expr

namespace Pool

/-- A name that stands for a built-in throughout. -/
def isFixed (pool : Pool) (name : String) : Bool := (pool.builtin? name).isSome

/-- A name is in the pool and among the bound ones. -/
def Binds (pool : Pool) (name : String) : Prop := .string name ∈ pool.constants ∧ name ∈ pool.bound

mutual

def CoversExpr (pool : Pool) : Expr → Prop
  | .literal (.number x) => .ofFloat x ∈ pool.constants
  | .literal (.string s) => Constant.string s ∈ pool.constants
  | .literal _ => True
  | .identifier i => pool.isFixed i.name = false → Constant.string i.name ∈ pool.constants
  | .binary _ l r => CoversExpr pool l ∧ CoversExpr pool r
  | .unary _ e => CoversExpr pool e
  | .assign target value => pool.Binds target.name ∧ CoversExpr pool value
  | .call _ callee arguments => CoversExpr pool callee ∧ CoversExprs pool arguments
  | .array elements => CoversExprs pool elements
  | .map entries => CoversEntries pool entries
  | .index object key => CoversExpr pool object ∧ CoversExpr pool key
termination_by structural e => e

def CoversExprs (pool : Pool) : List Expr → Prop
  | [] => True
  | e :: es => CoversExpr pool e ∧ CoversExprs pool es
termination_by structural es => es

def CoversEntries (pool : Pool) : List (String × Expr) → Prop
  | [] => True
  | (key, value) :: es =>
    Constant.string key ∈ pool.constants ∧ CoversExpr pool value ∧ CoversEntries pool es
termination_by structural es => es

end

mutual

def CoversStmt (pool : Pool) : Stmt → Prop
  | .expr _ e => pool.CoversExpr e
  | .bind _ name value => pool.Binds name ∧ pool.CoversExpr value
  | .function ⟨_, name, params, _, body⟩ =>
    pool.Binds name ∧ (∀ p ∈ params, pool.Binds p.name) ∧ CoversStmts pool body
  | .cond _ test yes no => pool.CoversExpr test ∧ CoversStmts pool yes ∧ CoversElse pool no
  | .whileLoop _ test body => pool.CoversExpr test ∧ CoversStmts pool body
  | .forEach _ name iterable body =>
    pool.Binds name ∧ pool.CoversExpr iterable ∧ CoversStmts pool body
  | .block _ body => CoversStmts pool body
  | .personality _ entries => ∀ e ∈ entries, .ofFloat e.value ∈ pool.constants
  | .giveBack _ (some e) => pool.CoversExpr e
  | .giveBack _ none | .leave _ | .again _ => True
termination_by structural s => s

def CoversStmts (pool : Pool) : List Stmt → Prop
  | [] => True
  | s :: ss => CoversStmt pool s ∧ CoversStmts pool ss
termination_by structural ss => ss

def CoversElse (pool : Pool) : Option Stmt → Prop
  | none => True
  | some s => CoversStmt pool s
termination_by structural no => no

end

variable {pool : Pool}

/-- A name stands for its built-in if the program does not bind it. -/
theorem builtin?_eq_some {name : String} {b : Builtin} :
    pool.builtin? name = some b ↔ name ∉ pool.bound ∧ Builtin.ofName? name = some b := by
  rw [builtin?, Option.ite_none_left_eq_some, List.contains_iff_mem]

/-- A constant of the pool is found at its index. -/
theorem getElem?_indexOf {c : Constant} (h : c ∈ pool.constants) :
    pool.constants[pool.indexOf c]? = some c := by
  have hlt := List.idxOf_lt_length_of_mem h
  rw [indexOf, List.getElem?_eq_getElem hlt, List.getElem_idxOf]

theorem indexOf_lt {c : Constant} (h : c ∈ pool.constants) :
    pool.indexOf c < pool.constants.length :=
  List.idxOf_lt_length_of_mem h

/-! ### From mentions -/

mutual

/-- An expression is covered if what it mentions is in the pool and what it assigns is
bound. -/
theorem coversExpr : ∀ e : Expr, (∀ c ∈ e.mentions pool.isFixed, c ∈ pool.constants) →
    (∀ n ∈ e.assigned, n ∈ pool.bound) → pool.CoversExpr e
  | .literal (.number _), hc, _ => hc _ (List.mem_singleton_self _)
  | .literal (.string _), hc, _ => hc _ (List.mem_singleton_self _)
  | .literal (.bool _), _, _ => trivial
  | .literal .null, _, _ => trivial
  | .identifier i, hc, _ => by
    intro hfixed
    refine hc _ ?_
    show _ ∈ if pool.isFixed i.name then [] else [Constant.string i.name]
    rw [hfixed]
    exact List.mem_singleton_self _
  | .binary op l r, hc, hn => by
    have ha := Expr.assigned_append (e := .binary op l r) rfl (by simp)
    rw [ha] at hn
    exact ⟨coversExpr l (fun c h => hc c (List.mem_append_left _ h))
        fun n h => hn n (List.mem_append_left _ h),
      coversExpr r (fun c h => hc c (List.mem_append_right _ h))
        fun n h => hn n (List.mem_append_right _ h)⟩
  | .unary op e, hc, hn => by
    have ha : (Expr.unary op e).assigned = e.assigned := by
      show List.filterMap _ (Expr.unary op e :: e.parts) = _
      rw [List.filterMap_cons_none rfl]
      rfl
    rw [ha] at hn
    exact coversExpr e hc hn
  | .assign target value, hc, hn =>
    ⟨⟨hc _ (List.mem_append_right _ (List.mem_singleton_self _)), hn _ (List.mem_cons_self ..)⟩,
      coversExpr value (fun c h => hc c (List.mem_append_left _ h))
        fun n h => hn n (List.mem_cons_of_mem _ h)⟩
  | .call place callee arguments, hc, hn => by
    have ha := Expr.assigned_append (e := .call place callee arguments) rfl (by simp)
    rw [ha] at hn
    exact ⟨coversExpr callee (fun c h => hc c (List.mem_append_left _ h))
        fun n h => hn n (List.mem_append_left _ h),
      coversExprs arguments (fun c h => hc c (List.mem_append_right _ h))
        fun e he n h => hn n (List.mem_append_right _ (Expr.mem_assigned_listParts he h))⟩
  | .array elements, hc, hn =>
    coversExprs elements hc fun e he n h => hn n (Expr.mem_assigned_listParts he h)
  | .map entries, hc, hn =>
    coversEntries entries hc fun e he n h => hn n (Expr.mem_assigned_entryParts he h)
  | .index object key, hc, hn => by
    have ha := Expr.assigned_append (e := .index object key) rfl (by simp)
    rw [ha] at hn
    exact ⟨coversExpr object (fun c h => hc c (List.mem_append_left _ h))
        fun n h => hn n (List.mem_append_left _ h),
      coversExpr key (fun c h => hc c (List.mem_append_right _ h))
        fun n h => hn n (List.mem_append_right _ h)⟩
termination_by structural e => e

theorem coversExprs : ∀ es : List Expr,
    (∀ c ∈ Expr.listMentions pool.isFixed es, c ∈ pool.constants) →
    (∀ e ∈ es, ∀ n ∈ e.assigned, n ∈ pool.bound) → pool.CoversExprs es
  | [], _, _ => trivial
  | e :: es, hc, hn =>
    ⟨coversExpr e (fun c h => hc c (List.mem_append_left _ h)) (hn e (List.mem_cons_self ..)),
      coversExprs es (fun c h => hc c (List.mem_append_right _ h))
        fun e' he => hn e' (List.mem_cons_of_mem _ he)⟩
termination_by structural es => es

theorem coversEntries : ∀ es : List (String × Expr),
    (∀ c ∈ Expr.entryMentions pool.isFixed es, c ∈ pool.constants) →
    (∀ e ∈ es, ∀ n ∈ e.2.assigned, n ∈ pool.bound) → pool.CoversEntries es
  | [], _, _ => trivial
  | (key, value) :: es, hc, hn =>
    ⟨hc _ (List.mem_cons_self ..),
      coversExpr value (fun c h => hc c (List.mem_cons_of_mem _ (List.mem_append_left _ h)))
        (hn (key, value) (List.mem_cons_self ..)),
      coversEntries es (fun c h => hc c (List.mem_cons_of_mem _ (List.mem_append_right _ h)))
        fun e' he => hn e' (List.mem_cons_of_mem _ he)⟩
termination_by structural es => es

end

/-- The names of a statement and of all inside it. -/
def boundIn (ss : List Stmt) : List String := ss.flatMap Stmt.bound

/-- The one expression of a statement is covered if the statement's names are bound. -/
theorem coversExpr_of_exprs {s : Stmt} {e : Expr} (he : e ∈ s.exprs)
    (hc : ∀ c ∈ e.mentions pool.isFixed, c ∈ pool.constants) (hn : ∀ n ∈ s.bound, n ∈ pool.bound) :
    pool.CoversExpr e :=
  coversExpr e hc fun n h => hn n (List.mem_append_right _ (List.mem_flatMap.2 ⟨e, he, h⟩))

theorem boundIn_cons {s : Stmt} {ss : List Stmt} (h : ∀ n ∈ boundIn (s :: ss), n ∈ pool.bound) :
    (∀ n ∈ s.bound, n ∈ pool.bound) ∧ ∀ n ∈ boundIn ss, n ∈ pool.bound :=
  ⟨fun n hn => h n (List.mem_append_left _ hn), fun n hn => h n (List.mem_append_right _ hn)⟩

theorem boundIn_append {ss ts : List Stmt} (h : ∀ n ∈ boundIn (ss ++ ts), n ∈ pool.bound) :
    (∀ n ∈ boundIn ss, n ∈ pool.bound) ∧ ∀ n ∈ boundIn ts, n ∈ pool.bound := by
  unfold boundIn at h
  rw [List.flatMap_append] at h
  exact ⟨fun n hn => h n (List.mem_append_left _ hn), fun n hn => h n (List.mem_append_right _ hn)⟩

mutual

theorem coversStmt : ∀ s : Stmt, (∀ c ∈ s.mentions pool.isFixed, c ∈ pool.constants) →
    (∀ n ∈ boundIn s.deep, n ∈ pool.bound) → pool.CoversStmt s
  | .expr _ e, hc, hn => coversExpr_of_exprs (List.mem_singleton_self _) hc (boundIn_cons hn).1
  | .bind _ name value, hc, hn => by
    have hs := (boundIn_cons hn).1
    exact ⟨⟨hc _ (List.mem_cons_self ..), hs _ (List.mem_cons_self ..)⟩,
      coversExpr_of_exprs (List.mem_singleton_self _) (fun c h => hc c (List.mem_cons_of_mem _ h)) hs⟩
  | .function ⟨_, name, params, _, body⟩, hc, hn => by
    obtain ⟨hs, hbody⟩ := boundIn_cons hn
    refine ⟨⟨hc _ (List.mem_cons_self ..), hs _ (List.mem_cons_self ..)⟩, ?_, coversStmts body ?_ hbody⟩
    · intro p hp
      have hparam : p.name ∈ params.map (·.name) := List.mem_map_of_mem hp
      have hconstant : Constant.string p.name ∈ params.map fun p => Constant.string p.name :=
        List.mem_map.2 ⟨p, hp, rfl⟩
      exact ⟨hc _ (List.mem_append_left _ (List.mem_cons_of_mem _ hconstant)),
        hs _ (List.mem_append_left _ (List.mem_cons_of_mem _ hparam))⟩
    · exact fun c h => hc c (List.mem_append_right _ h)
  | .cond _ test yes no, hc, hn => by
    obtain ⟨hs, hrest⟩ := boundIn_cons hn
    obtain ⟨hyes, hno⟩ := boundIn_append hrest
    exact ⟨coversExpr_of_exprs (List.mem_singleton_self _)
        (fun c h => hc c (List.mem_append_left _ (List.mem_append_left _ h))) hs,
      coversStmts yes (fun c h => hc c (List.mem_append_left _ (List.mem_append_right _ h))) hyes,
      coversElse no (fun c h => hc c (List.mem_append_right _ h)) hno⟩
  | .whileLoop _ test body, hc, hn => by
    obtain ⟨hs, hbody⟩ := boundIn_cons hn
    exact ⟨coversExpr_of_exprs (List.mem_singleton_self _)
        (fun c h => hc c (List.mem_append_left _ h)) hs,
      coversStmts body (fun c h => hc c (List.mem_append_right _ h)) hbody⟩
  | .forEach _ name iterable body, hc, hn => by
    obtain ⟨hs, hbody⟩ := boundIn_cons hn
    exact ⟨⟨hc _ (List.mem_append_right _ (List.mem_cons_self ..)), hs _ (List.mem_cons_self ..)⟩,
      coversExpr_of_exprs (List.mem_singleton_self _)
        (fun c h => hc c (List.mem_append_left _ h)) hs,
      coversStmts body (fun c h => hc c (List.mem_append_right _ (List.mem_cons_of_mem _ h))) hbody⟩
  | .block _ body, hc, hn => coversStmts body hc (boundIn_cons hn).2
  | .personality _ entries, hc, _ => fun e he => hc _ (List.mem_map.2 ⟨e, he, rfl⟩)
  | .giveBack _ (some e), hc, hn =>
    coversExpr_of_exprs (List.mem_singleton_self _) hc (boundIn_cons hn).1
  | .giveBack _ none, _, _ => trivial
  | .leave _, _, _ => trivial
  | .again _, _, _ => trivial
termination_by structural s => s

theorem coversStmts : ∀ ss : List Stmt,
    (∀ c ∈ Stmt.listMentions pool.isFixed ss, c ∈ pool.constants) →
    (∀ n ∈ boundIn (Stmt.deepList ss), n ∈ pool.bound) → pool.CoversStmts ss
  | [], _, _ => trivial
  | s :: ss, hc, hn => by
    obtain ⟨hs, hss⟩ := boundIn_append hn
    exact ⟨coversStmt s (fun c h => hc c (List.mem_append_left _ h)) hs,
      coversStmts ss (fun c h => hc c (List.mem_append_right _ h)) hss⟩
termination_by structural ss => ss

theorem coversElse : ∀ no : Option Stmt,
    (∀ c ∈ Stmt.elseMentions pool.isFixed no, c ∈ pool.constants) →
    (∀ n ∈ boundIn (Stmt.deepElse no), n ∈ pool.bound) → pool.CoversElse no
  | none, _, _ => trivial
  | some s, hc, hn => coversStmt s hc hn
termination_by structural no => no

end

/-! ### Whole programs -/

theorem mem_intern (pool : Pool) (c : Constant) {d : Constant} :
    d ∈ (pool.intern c).constants ↔ d ∈ pool.constants ∨ d = c := by
  unfold intern
  split
  · next h =>
    constructor
    · exact .inl
    · rintro (hd | rfl)
      · exact hd
      · exact h
  · simp

theorem bound_intern (pool : Pool) (c : Constant) : (pool.intern c).bound = pool.bound := by
  unfold intern
  split <;> rfl

theorem mem_internAll (pool : Pool) (cs : List Constant) {d : Constant} :
    d ∈ (pool.internAll cs).constants ↔ d ∈ pool.constants ∨ d ∈ cs := by
  induction cs generalizing pool with
  | nil => simp [internAll]
  | cons c cs ih =>
    show d ∈ ((pool.intern c).internAll cs).constants ↔ _
    rw [ih, mem_intern, List.mem_cons, or_assoc]

theorem bound_internAll (pool : Pool) (cs : List Constant) :
    (pool.internAll cs).bound = pool.bound := by
  induction cs generalizing pool with
  | nil => rfl
  | cons c cs ih =>
    show ((pool.intern c).internAll cs).bound = _
    rw [ih, bound_intern]

theorem nodup_internAll {pool : Pool} (h : pool.constants.Nodup) (cs : List Constant) :
    (pool.internAll cs).constants.Nodup := by
  induction cs generalizing pool with
  | nil => exact h
  | cons c cs ih => exact ih (nodup_intern h c)

/-- No two constants of a program are of the same type and value. -/
theorem nodup_ofProgram (p : Program) : (ofProgram p).constants.Nodup := nodup_internAll List.nodup_nil _

theorem isFixed_ofProgram (p : Program) :
    (ofProgram p).isFixed = fun name => ((⟨[], p.bound⟩ : Pool).builtin? name).isSome := by
  have hbound : (ofProgram p).bound = p.bound := bound_internAll _ _
  funext name
  rw [isFixed, builtin?, hbound]
  rfl

/-- The pool of a program has what the program mentions. -/
theorem mem_ofProgram (p : Program) {c : Constant} :
    c ∈ (ofProgram p).constants ↔ c ∈ Stmt.listMentions (ofProgram p).isFixed p.statements := by
  rw [isFixed_ofProgram]
  exact (mem_internAll _ _).trans (or_iff_right List.not_mem_nil)

/-- The pool of a program covers the program. -/
theorem covers_ofProgram (p : Program) : (ofProgram p).CoversStmts p.statements := by
  refine coversStmts p.statements (fun c hc => (mem_ofProgram p).2 hc) fun n hn => ?_
  have hbound : (ofProgram p).bound = p.bound := bound_internAll _ _
  rw [hbound]
  exact hn

end Pool

end Persona
