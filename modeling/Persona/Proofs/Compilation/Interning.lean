import Persona.Compilation.Interning
import Persona.Proofs.Compilation.Coverage
import Persona.Proofs.Compilation.Validity

/-! Emission finds all constants.

Collection and emission go through a program each in its own way. They agree on what has to be in the
pool: emission that adds what it does not find adds nothing to the pool that was collected, and so it is
the emission that only reads the pool. -/
namespace Persona.Compilation

/-! ### Settled emission -/

/-- From this pool, emission with a growing pool comes to what emission with a fixed one comes to, and
the pool stays as it is. -/
def Settled (pool : Pool) (x : Growing α) (y : Except CompileError α) : Prop := x.run pool = (·, pool) <$> y

/-- The same for statements, whatever the entries of their functions are. -/
def SettledEmit (pool : Pool) (x : Growing.Emit α) (y : Emit α) : Prop := ∀ es, Settled pool (x.run es) (y.run es)

section
variable {pool : Pool} {α β : Type}

namespace Settled

variable {x : Growing α} {y : Except CompileError α} {f : α → Growing β} {g : α → Except CompileError β}

theorem pure (a : α) : Settled pool (pure a) (.ok a) := rfl

theorem throw (e : CompileError) : Settled pool (throw e : Growing α) (.error e) := rfl

theorem get {f : Pool → Growing β} {z : Except CompileError β} (hf : Settled pool (f pool) z) :
    Settled pool (get >>= f) z := hf

theorem lift (y : Except CompileError α) : Settled pool (liftM y) y := by
  cases y with
  | error e => rfl
  | ok a => rfl

theorem bind (hx : Settled pool x y) (hf : ∀ a, Settled pool (f a) (g a)) : Settled pool (x >>= f) (y >>= g) := by
  unfold Settled at hx hf ⊢
  rw [StateT.run_bind, hx]
  cases y with
  | error e => rfl
  | ok a => exact hf a

/-- A constant of the pool is found at its index. -/
theorem index {c : Constant} (hc : c ∈ pool.constants) : Settled pool (Growing.index c) (.ok (pool.indexOf c)) := by
  have hfound : pool.intern c = pool := by rw [Pool.intern, if_pos hc]
  have hrun : (Growing.index c).run pool = .ok ((pool.intern c).indexOf c, pool.intern c) := rfl
  rw [Settled, hrun, hfound]
  rfl

theorem ok_bind {a : α} {z : Except CompileError β} (hx : Settled pool x (.ok a)) (hf : Settled pool (f a) z) :
    Settled pool (x >>= f) z := by
  unfold Settled at hx hf ⊢
  rw [StateT.run_bind, hx]
  exact hf

theorem mapM {f : α → Growing β} {g : α → β} {as : List α} (h : ∀ a ∈ as, Settled pool (f a) (.ok (g a))) :
    Settled pool (as.mapM f) (.ok (as.map g)) := by
  induction as with
  | nil => exact .pure []
  | cons a as ih =>
    obtain ⟨ha, has⟩ := List.forall_mem_cons.1 h
    rw [List.mapM_cons, List.map_cons]
    exact ha.ok_bind ((ih has).ok_bind (.pure _))

end Settled

namespace SettledEmit

variable {x : Growing.Emit α} {y : Emit α} {f : α → Growing.Emit β} {g : α → Emit β}

theorem pure (a : α) : SettledEmit pool (pure a) (pure a) := fun _ => rfl

theorem throw (e : CompileError) : SettledEmit pool (throw e : Growing.Emit α) (throw e) := fun _ => rfl

theorem lift {x : Growing α} {y : Except CompileError α} (h : Settled pool x y) :
    SettledEmit pool (liftM x) (liftM y) := fun es => h.bind fun a => .pure (a, es)

/-- What does not look at the pool. -/
theorem raise (y : Except CompileError α) : SettledEmit pool (liftM y) (liftM y) := by
  intro es
  cases y with
  | error e => rfl
  | ok a => rfl

theorem bind (hx : SettledEmit pool x y) (hf : ∀ a, SettledEmit pool (f a) (g a)) :
    SettledEmit pool (x >>= f) (y >>= g) :=
  fun es => (hx es).bind fun r => hf r.1 r.2

theorem index_bind {c : Constant} (hc : c ∈ pool.constants) {f : Nat → Growing.Emit β} {z : Emit β}
    (hf : SettledEmit pool (f (pool.indexOf c)) z) :
    SettledEmit pool (liftM (Growing.index c) >>= f) z := by
  intro es
  have hindex : Settled pool ((liftM (Growing.index c) : Growing.Emit Nat).run es) (.ok (pool.indexOf c, es)) :=
    (Settled.index hc).ok_bind (f := fun idx => Pure.pure (idx, es)) (.pure _)
  exact hindex.ok_bind (f := fun r => (f r.1).run r.2) (hf es)

theorem takeEntry (place : Coordinate) : SettledEmit pool (Growing.takeEntry place) (takeEntry place) := by
  intro es
  cases es with
  | nil => rfl
  | cons entry es => rfl

end SettledEmit

/-! ### Expressions -/

theorem settled_literalCode {l : Literal} (h : pool.CoversExpr (.literal l)) :
    Settled pool (Growing.literalCode l) (.ok (literalCode pool l)) := by
  cases l with
  | number x => exact (Settled.index h).ok_bind (.pure _)
  | string s => exact (Settled.index h).ok_bind (.pure _)
  | bool b => cases b <;> exact .pure _
  | null => exact .pure _

theorem settled_nameCode {i : Identifier} (h : pool.CoversExpr (.identifier i)) :
    Settled pool (Growing.nameCode i.name) (.ok (nameCode pool i.name)) := by
  unfold Growing.nameCode nameCode
  apply Settled.get
  cases hb : pool.builtin? i.name with
  | some b => exact .pure _
  | none =>
    have hconstant : Constant.string i.name ∈ pool.constants := h (by rw [Pool.isFixed, hb]; rfl)
    exact (Settled.index hconstant).ok_bind (.pure _)

mutual

theorem settled_expr : ∀ e : Expr, pool.CoversExpr e → Settled pool (Growing.expr e) (expr pool e)
  | .literal _, h => settled_literalCode h
  | .identifier _, h => settled_nameCode h
  | .binary op l r, h => by
    have hl := settled_expr l h.1
    have hr := settled_expr r h.2
    cases op with
    | and | or => exact hl.bind fun left => hr.bind fun right => (Settled.lift _).bind fun _ => .pure _
    | _ => exact hl.bind fun left => hr.bind fun right => .pure _
  | .unary _ e, h => (settled_expr e h).bind fun _ => .pure _
  | .assign _ value, h => (settled_expr value h.2).bind fun _ => (Settled.index h.1.1).ok_bind (.pure _)
  | .call _ callee arguments, h => by
    rw [Growing.expr, expr]
    split
    · exact .throw _
    · exact (settled_expr callee h.1).bind fun _ => (settled_exprs arguments h.2).bind fun _ => .pure _
  | .array elements, h => (settled_exprs elements h).bind fun _ => .pure _
  | .map es, h => (settled_entries es h).bind fun _ => .pure _
  | .index object key, h => (settled_expr object h.1).bind fun _ => (settled_expr key h.2).bind fun _ => .pure _
termination_by structural e => e

theorem settled_exprs : ∀ es : List Expr, pool.CoversExprs es → Settled pool (Growing.exprs es) (exprs pool es)
  | [], _ => .pure []
  | e :: es, h => (settled_expr e h.1).bind fun _ => (settled_exprs es h.2).bind fun _ => .pure _
termination_by structural es => es

theorem settled_entries : ∀ es : List (String × Expr), pool.CoversEntries es →
    Settled pool (Growing.entries es) (entries pool es)
  | [], _ => .pure []
  | (_, value) :: es, h =>
    (Settled.index h.1).ok_bind
      ((settled_expr value h.2.1).bind fun _ => (settled_entries es h.2.2).bind fun _ => .pure _)
termination_by structural es => es

end

theorem settled_dropped {e : Expr} (h : pool.CoversExpr e) : Settled pool (Growing.dropped e) (dropped pool e) := by
  cases e with
  | call place callee arguments =>
    rw [Growing.dropped, dropped]
    split
    · exact .throw _
    · exact (settled_expr callee h.1).bind fun _ => (settled_exprs arguments h.2).bind fun _ => .pure _
  | _ => exact (settled_expr _ h).bind fun _ => .pure _

/-! ### Statements -/

theorem settled_functionCode {d : FunctionDecl} (hname : pool.Binds d.name) (hparams : ∀ p ∈ d.params, pool.Binds p.name)
    (entry : Nat) : Settled pool (Growing.functionCode d entry) (.ok (functionCode pool d entry)) := by
  have hindices : Settled pool (d.params.mapM fun p => Growing.index (.string p.name))
      (.ok (d.params.map fun p => pool.indexOf (.string p.name))) :=
    .mapM fun p hp => .index (hparams p hp).1
  have hname := Settled.index hname.1
  exact hname.ok_bind (hindices.ok_bind (hname.ok_bind (.pure _)))

mutual

theorem settled_stmt : ∀ (s : Stmt) (around : Surroundings), pool.CoversStmt s →
    SettledEmit pool (Growing.stmt around s) (stmt pool around s)
  | .expr _ e, _, h => .lift (settled_dropped h)
  | .bind _ _ value, _, h =>
    (SettledEmit.lift (settled_expr value h.2)).bind fun _ => .index_bind h.1.1 (.pure _)
  | .function ⟨place, name, params, returnType, body⟩, _, h => by
    rw [Growing.stmt, stmt]
    split
    · exact .throw _
    · refine (SettledEmit.takeEntry _).bind fun entry => ?_
      exact .lift (settled_functionCode h.1 h.2.1 entry)
  | .cond _ test yes none, around, h =>
    (SettledEmit.lift (settled_expr test h.1)).bind fun _ => (settled_stmts yes _ _ h.2.1).bind fun _ =>
      (SettledEmit.raise _).bind fun _ => .pure _
  | .cond _ test yes (some no), around, h =>
    (SettledEmit.lift (settled_expr test h.1)).bind fun _ => (settled_stmts yes _ _ h.2.1).bind fun _ =>
      (SettledEmit.raise _).bind fun _ => (settled_stmt no _ h.2.2).bind fun _ =>
        (SettledEmit.raise _).bind fun _ => .pure _
  | .whileLoop _ test body, around, h =>
    (SettledEmit.lift (settled_expr test h.1)).bind fun _ => (settled_stmts body _ _ h.2).bind fun _ => .raise _
  | .forEach _ _ iterable body, around, h =>
    (SettledEmit.lift (settled_expr iterable h.2.1)).bind fun _ => .index_bind h.1.1
      ((settled_stmts body _ _ h.2.2).bind fun _ => (SettledEmit.raise _).bind fun _ => .pure _)
  | .block _ body, around, h => settled_stmts body _ _ h
  | .personality .., around, _ => by
    rw [Growing.stmt, stmt]
    split
    · exact .throw _
    · exact .pure _
  | .giveBack _ (some e), _, h => (SettledEmit.lift (settled_expr e h)).bind fun _ => .pure _
  | .giveBack _ none, _, _ => .pure _
  | .leave _, _, _ => by
    rw [Growing.stmt, stmt]
    split
    · exact .pure _
    · exact .throw _
  | .again _, around, _ => by
    rw [Growing.stmt, stmt]
    cases around.sinceLoop with
    | some n => exact .raise _
    | none => exact .throw _
termination_by structural s => s

theorem settled_stmts : ∀ (ss : List Stmt) (around : Surroundings) (before : List Code), pool.CoversStmts ss →
    SettledEmit pool (Growing.stmts around before ss) (stmts pool around before ss)
  | [], _, _, _ => .pure _
  | s :: ss, around, _, h => (settled_stmt s around h.1).bind fun _ => settled_stmts ss _ _ h.2
termination_by structural ss => ss

end

/-! ### Programs -/

theorem settled_addBody {d : FunctionDecl} (h : pool.CoversStmts d.body) (inner : List Nat) (b : Bodies) :
    Settled pool (Growing.addBody d inner b) (addBody pool d inner b) :=
  (settled_stmts d.body _ _ h inner).bind fun _ => .pure _

mutual

theorem settled_bodies : ∀ (s : Stmt) (b : Bodies), pool.CoversStmt s →
    Settled pool (Growing.bodies s b) (bodies pool s b)
  | .function ⟨_, _, _, _, body⟩, _, h =>
    (settled_bodiesOf body _ h.2.2).bind fun _ => settled_addBody h.2.2 _ _
  | .cond _ _ yes no, b, h => (settled_bodiesOf yes b h.2.1).bind fun mid => settled_bodiesElse no mid h.2.2
  | .whileLoop _ _ body, b, h => settled_bodiesOf body b h.2
  | .forEach _ _ _ body, b, h => settled_bodiesOf body b h.2.2
  | .block _ body, b, h => settled_bodiesOf body b h
  | .expr .., b, _ | .bind .., b, _ | .personality .., b, _ | .giveBack .., b, _ | .leave _, b, _ | .again _, b, _ =>
    .pure b
termination_by structural s => s

theorem settled_bodiesOf : ∀ (ss : List Stmt) (b : Bodies), pool.CoversStmts ss →
    Settled pool (Growing.bodiesOf ss b) (bodiesOf pool ss b)
  | [], b, _ => .pure b
  | s :: ss, b, h => (settled_bodies s b h.1).bind fun mid => settled_bodiesOf ss mid h.2
termination_by structural ss => ss

theorem settled_bodiesElse : ∀ (no : Option Stmt) (b : Bodies), pool.CoversElse no →
    Settled pool (Growing.bodiesElse no b) (bodiesElse pool no b)
  | none, b, _ => .pure b
  | some s, b, h => settled_bodies s b h
termination_by structural no => no

end

theorem settled_personalityCode {blocks : List (List TraitEntry)}
    (h : ∀ block ∈ blocks, ∀ e ∈ block, .ofFloat e.value ∈ pool.constants) :
    Settled pool (Growing.personalityCode blocks) (personalityCode pool blocks) := by
  induction blocks with
  | nil => exact .pure []
  | cons block blocks ih =>
    obtain ⟨hblock, hblocks⟩ := List.forall_mem_cons.1 h
    rw [Growing.personalityCode, personalityCode]
    split
    · exact .throw _
    · have hentries : Settled pool (block.mapM fun e => do return (e.key, ← Growing.index (.ofFloat e.value)))
          (.ok (block.map fun e => (e.key, pool.indexOf (.ofFloat e.value)))) :=
        .mapM fun e he => (Settled.index (hblock e he)).ok_bind (.pure _)
      exact hentries.ok_bind ((ih hblocks).bind fun _ => .pure _)

end

end Persona.Compilation

namespace Persona

open Compilation

/-- Emission that adds the constants that it does not find is the emission that only reads the pool of the
program: it finds them all. -/
theorem compileGrowing_eq (p : Program) : compileGrowing p = compile p := by
  have hcovers := Pool.covers_ofProgram p
  have hprogram : Settled (Pool.ofProgram p) (Growing.program p) (do
      let b ← bodiesOf (Pool.ofProgram p) p.statements ⟨[], 0, []⟩
      let setup ← personalityCode (Pool.ofProgram p) p.personalityBlocks
      let main ← (stmts (Pool.ofProgram p) ⟨false, false, none⟩ [] p.statements).run b.entries.reverse
      return (b.code.reverse.flatten ++ setup ++ main.1 ++ [.instr .halt], b.size)) := by
    refine (settled_bodiesOf p.statements _ hcovers).bind fun b => ?_
    refine (settled_personalityCode (covers_personalityBlocks hcovers)).bind fun setup => ?_
    exact (settled_stmts p.statements _ _ hcovers _).bind fun _ => .pure _
  unfold Settled at hprogram
  rw [compileGrowing, compile, hprogram]
  simp [map_bind]

end Persona
