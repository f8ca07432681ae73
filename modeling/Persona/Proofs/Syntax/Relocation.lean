import Mathlib.Data.List.Forall2
import Persona.Syntax

/-! Trees with other coordinates.

A coordinate says where something was written and not what was written. Two trees say the same if
they are equal with every coordinate replaced by one and the same. -/
namespace Persona

namespace Expr

mutual

/-- The expression with its coordinates mapped. -/
def relocate (f : Coordinate → Coordinate) : Expr → Expr
  | literal l => literal l
  | identifier i => identifier ⟨i.name, f i.place⟩
  | binary op l r => binary op (l.relocate f) (r.relocate f)
  | unary op e => unary op (e.relocate f)
  | assign target value => assign ⟨target.name, f target.place⟩ (value.relocate f)
  | call place callee arguments => call (f place) (callee.relocate f) (listRelocate f arguments)
  | array elements => array (listRelocate f elements)
  | map entries => map (entriesRelocate f entries)
  | index object key => index (object.relocate f) (key.relocate f)
termination_by structural e => e

def listRelocate (f : Coordinate → Coordinate) : List Expr → List Expr
  | [] => []
  | e :: es => e.relocate f :: listRelocate f es
termination_by structural es => es

def entriesRelocate (f : Coordinate → Coordinate) : List (String × Expr) → List (String × Expr)
  | [] => []
  | (key, e) :: es => (key, e.relocate f) :: entriesRelocate f es
termination_by structural es => es

end

mutual

theorem relocate_id : ∀ e : Expr, e.relocate id = e
  | literal _ | identifier _ => rfl
  | binary op l r => by rw [relocate, relocate_id l, relocate_id r]
  | unary op e => by rw [relocate, relocate_id e]
  | assign target value => by
    rw [relocate, relocate_id value]
    rfl
  | call place callee arguments => by
    rw [relocate, relocate_id callee, listRelocate_id arguments]
    rfl
  | array elements => by rw [relocate, listRelocate_id elements]
  | map entries => by rw [relocate, entriesRelocate_id entries]
  | index object key => by rw [relocate, relocate_id object, relocate_id key]
termination_by structural e => e

theorem listRelocate_id : ∀ es : List Expr, listRelocate id es = es
  | [] => rfl
  | e :: es => by rw [listRelocate, relocate_id e, listRelocate_id es]
termination_by structural es => es

theorem entriesRelocate_id : ∀ es : List (String × Expr), entriesRelocate id es = es
  | [] => rfl
  | (key, e) :: es => by rw [entriesRelocate, relocate_id e, entriesRelocate_id es]
termination_by structural es => es

end

variable {f : Coordinate → Coordinate}

theorem listRelocate_congr {es es' : List Expr} (h : List.Forall₂ (fun e e' => e.relocate f = e'.relocate f) es es') :
    listRelocate f es = listRelocate f es' := by
  induction h with
  | nil => rfl
  | cons h _ ih => rw [listRelocate, listRelocate, h, ih]

theorem entriesRelocate_congr {es es' : List (String × Expr)}
    (h : List.Forall₂ (fun e e' => e.1 = e'.1 ∧ e.2.relocate f = e'.2.relocate f) es es') :
    entriesRelocate f es = entriesRelocate f es' := by
  induction h with
  | nil => rfl
  | cons h _ ih => rw [entriesRelocate, entriesRelocate, h.1, h.2, ih]

end Expr

/-- The entry with its coordinate mapped. -/
def TraitEntry.relocate (f : Coordinate → Coordinate) (e : TraitEntry) : TraitEntry := { e with place := f e.place }

theorem TraitEntry.map_relocate_congr {f : Coordinate → Coordinate} {es es' : List TraitEntry}
    (h : List.Forall₂ (fun e e' => e.relocate f = e'.relocate f) es es') :
    es.map (relocate f) = es'.map (relocate f) := by
  induction h with
  | nil => rfl
  | cons h _ ih => rw [List.map_cons, List.map_cons, h, ih]

namespace Stmt

mutual

/-- The statement with its coordinates mapped. -/
def relocate (f : Coordinate → Coordinate) : Stmt → Stmt
  | expr place e => expr (f place) (e.relocate f)
  | bind place name value => bind (f place) name (value.relocate f)
  | function ⟨place, name, params, returnType, body⟩ =>
    function ⟨f place, name, params, returnType, listRelocate f body⟩
  | cond place test yes no => cond (f place) (test.relocate f) (listRelocate f yes) (elseRelocate f no)
  | whileLoop place test body => whileLoop (f place) (test.relocate f) (listRelocate f body)
  | forEach place name iterable body => forEach (f place) name (iterable.relocate f) (listRelocate f body)
  | block place body => block (f place) (listRelocate f body)
  | personality place entries => personality (f place) (entries.map (TraitEntry.relocate f))
  | giveBack place value => giveBack (f place) (value.map (Expr.relocate f))
  | leave place => leave (f place)
  | again place => again (f place)
termination_by structural s => s

def listRelocate (f : Coordinate → Coordinate) : List Stmt → List Stmt
  | [] => []
  | s :: ss => s.relocate f :: listRelocate f ss
termination_by structural ss => ss

def elseRelocate (f : Coordinate → Coordinate) : Option Stmt → Option Stmt
  | none => none
  | some s => some (s.relocate f)
termination_by structural no => no

end

mutual

theorem relocate_id : ∀ s : Stmt, s.relocate id = s
  | expr _ e | bind _ _ e => by
    rw [relocate, e.relocate_id]
    rfl
  | function ⟨_, _, _, _, body⟩ | block _ body => by
    rw [relocate, listRelocate_id body]
    rfl
  | cond _ test yes no => by
    rw [relocate, test.relocate_id, listRelocate_id yes, elseRelocate_id no]
    rfl
  | whileLoop _ e body | forEach _ _ e body => by
    rw [relocate, e.relocate_id, listRelocate_id body]
    rfl
  | personality _ entries => congrArg (personality _) (List.map_id entries)
  | giveBack place value => by
    cases value with
    | none => rfl
    | some e => exact congrArg (fun e => giveBack place (some e)) e.relocate_id
  | leave _ | again _ => rfl
termination_by structural s => s

theorem listRelocate_id : ∀ ss : List Stmt, listRelocate id ss = ss
  | [] => rfl
  | s :: ss => by rw [listRelocate, relocate_id s, listRelocate_id ss]
termination_by structural ss => ss

theorem elseRelocate_id : ∀ no : Option Stmt, elseRelocate id no = no
  | none => rfl
  | some s => congrArg some (relocate_id s)
termination_by structural no => no

end

theorem listRelocate_congr {f : Coordinate → Coordinate} {ss ss' : List Stmt}
    (h : List.Forall₂ (fun s s' => s.relocate f = s'.relocate f) ss ss') :
    listRelocate f ss = listRelocate f ss' := by
  induction h with
  | nil => rfl
  | cons h _ ih => rw [listRelocate, listRelocate, h, ih]

end Stmt

namespace Program

/-- The program with its coordinates mapped. -/
def relocate (f : Coordinate → Coordinate) (p : Program) : Program := ⟨Stmt.listRelocate f p.statements⟩

theorem relocate_id (p : Program) : p.relocate id = p := by
  rw [relocate, Stmt.listRelocate_id]

end Program

end Persona
