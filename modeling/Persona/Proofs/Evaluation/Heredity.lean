import Mathlib
import Persona.Proofs.Analysis.Scopes
import Persona.Proofs.Syntax.Walk
import Persona.Proofs.Value.Hereditary

/-! Hereditary properties in a walk of the tree.

A walk takes values from the texts and the declarations of the program, and makes all others out
of them. So a hereditary property that these have is had by all variables and arguments at every
moment of a run. -/
namespace Persona

/-- A hereditary property of the texts of a program and of the functions that it declares. -/
structure Program.Grants (p : Program) (h : Host) (V : Value → Prop) : Prop extends Value.Hereditary h V where
  text : ∀ s ∈ p.texts, V (.string s)
  declared : ∀ {f}, V (.function f) → p.Declares f
  made : ∀ {f}, p.Declares f → V (.function f)

namespace Program.Grants

variable {p : Program} {h : Host} {V : Value → Prop}

theorem literal (G : p.Grants h V) {l : Literal} (hl : .literal l ∈ Stmt.parts (Stmt.deepList p.statements)) :
    V (.ofLiteral l) := by
  cases l with
  | number x => exact G.number x
  | bool b => exact G.bool b
  | null => exact G.null
  | string s => exact G.text s (List.mem_flatMap.2 ⟨_, hl, List.mem_singleton_self s⟩)

theorem key (G : p.Grants h V) {es : List (String × Expr)} (hes : .map es ∈ Stmt.parts (Stmt.deepList p.statements)) :
    ∀ e ∈ es, V (.string e.1) :=
  fun _ he => G.text _ (List.mem_flatMap.2 ⟨_, hes, List.mem_map_of_mem he⟩)

variable {fuel : Nat} {profile : Profile} {clock : Clock} {m : Evaluation.Moment}

end Program.Grants

end Persona
