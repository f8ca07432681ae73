import Mathlib.Data.List.MinMax
import Mathlib.Order.Nat
import Persona.Syntax.Walk

/-! Where the parts of a program stand.

Every statement of a program runs outside of its functions or in the body of one of them, and of one
only. So what is said of all statements inside can be said of the program by itself and of the body of
each of its functions. -/
namespace Persona

namespace Expr

theorem listParts_eq (es : List Expr) : listParts es = es.flatMap parts := by
  induction es with
  | nil => rfl
  | cons e es ih => rw [listParts, ih, List.flatMap_cons]

theorem entryParts_eq (es : List (String × Expr)) : entryParts es = es.flatMap fun e => e.2.parts := by
  induction es with
  | nil => rfl
  | cons e es ih => rw [entryParts, ih, List.flatMap_cons]

end Expr

namespace Stmt

/-- The statements in the bodies of the functions that are among these. -/
def bodies (ss : List Stmt) : List Stmt :=
  (ss.filterMap fun
    | function d => some d
    | _ => none).flatMap fun d => ownList d.body

theorem bodies_append (ss ss' : List Stmt) : bodies (ss ++ ss') = bodies ss ++ bodies ss' := by
  rw [bodies, List.filterMap_append, List.flatMap_append]
  rfl

theorem append_perm {α : Type} {a b a₁ a₂ b₁ b₂ : List α} (ha : a.Perm (a₁ ++ a₂)) (hb : b.Perm (b₁ ++ b₂)) :
    (a ++ b).Perm ((a₁ ++ b₁) ++ (a₂ ++ b₂)) := by
  refine (ha.append hb).trans ?_
  rw [List.append_assoc, List.append_assoc]
  exact (List.perm_append_comm_assoc ..).append_left _

mutual

theorem deep_perm : ∀ s : Stmt, (deep s).Perm (own s ++ bodies (deep s))
  | .cond _ _ yes no => by
    have hparts := append_perm (deepList_perm yes) (deepElse_perm no)
    rw [← bodies_append] at hparts
    exact hparts.cons _
  | .whileLoop _ _ body | .forEach _ _ _ body | .block _ body | .function ⟨_, _, _, _, body⟩ =>
    (deepList_perm body).cons _
  | .expr .. | .bind .. | .personality .. | .giveBack .. | .leave .. | .again .. => List.Perm.refl _
termination_by structural s => s

/-- The statements inside are those outside of functions and those in the functions' bodies. -/
theorem deepList_perm : ∀ ss : List Stmt, (deepList ss).Perm (ownList ss ++ bodies (deepList ss))
  | [] => List.Perm.refl _
  | s :: rest => by
    have hparts := append_perm (deep_perm s) (deepList_perm rest)
    rwa [← bodies_append] at hparts
termination_by structural ss => ss

theorem deepElse_perm : ∀ no : Option Stmt, (deepElse no).Perm (ownElse no ++ bodies (deepElse no))
  | none => List.Perm.refl _
  | some s => deep_perm s
termination_by structural no => no

end

variable {s : Stmt} {ss : List Stmt} {d : FunctionDecl}

theorem mem_functions : d ∈ functions ss ↔ .function d ∈ deepList ss := by
  unfold functions
  rw [List.mem_filterMap]
  constructor
  · rintro ⟨s, hs, hd⟩
    cases s with
    | function e =>
      cases hd
      exact hs
    | _ => cases hd
  · exact fun h => ⟨.function d, h, rfl⟩

theorem mem_deep (s : Stmt) : s ∈ s.deep := by
  cases s with
  | function d =>
    obtain ⟨place, name, params, returnType, body⟩ := d
    exact List.mem_cons_self ..
  | _ => exact List.mem_cons_self ..

theorem mem_deepList_of_mem_deep {t : Stmt} (ht : t ∈ ss) (h : s ∈ t.deep) : s ∈ deepList ss := by
  induction ss with
  | nil => cases ht
  | cons first rest ih =>
    rcases List.mem_cons.1 ht with rfl | ht
    · exact List.mem_append_left _ h
    · exact List.mem_append_right _ (ih ht)

theorem mem_deepList_of_mem (h : s ∈ ss) : s ∈ deepList ss := mem_deepList_of_mem_deep h (mem_deep s)

theorem mem_deepList_of_mem_ownList (h : s ∈ ownList ss) : s ∈ deepList ss :=
  (deepList_perm ss).mem_iff.2 (List.mem_append_left _ h)

theorem mem_deepList_of_mem_body (hd : d ∈ functions ss) (h : s ∈ ownList d.body) : s ∈ deepList ss :=
  (deepList_perm ss).mem_iff.2 (List.mem_append_right _ (List.mem_flatMap.2 ⟨d, hd, h⟩))

/-- The expressions in statements, and all expressions inside them. -/
def parts (ss : List Stmt) : List Expr := ss.flatMap fun s => s.exprs.flatMap Expr.parts

/-- The expressions of a statement are among those of all statements. -/
theorem parts_subset {e : Expr} (hs : s ∈ ss) (he : e ∈ s.exprs) : e.parts ⊆ parts ss :=
  fun _ hpart => List.mem_flatMap.2 ⟨s, hs, List.mem_flatMap.2 ⟨e, he, hpart⟩⟩

end Stmt

/-! ### Texts -/

/-- The texts that an expression makes values of: a literal, or the keys of a map. -/
def Expr.texts : Expr → List String
  | literal (.string s) => [s]
  | map entries => entries.map Prod.fst
  | _ => []

def Stmt.texts (ss : List Stmt) : List String := (parts ss).flatMap Expr.texts

namespace Program

/-- The texts that are written out in the source of a program. -/
def texts (p : Program) : List String := Stmt.texts (Stmt.deepList p.statements)

end Program

end Persona
