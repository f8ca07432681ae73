import Persona.Proofs.Analysis.Reported
import Persona.Proofs.Analysis.Scopes
import Persona.Proofs.Evaluation.Blind

/-! Unused parameters.

A parameter that is reported as unused can be given any value: no run can tell one from another. The
analysis looks at the names that the body uses; that the name is assigned, or bound again in the body,
does no harm, since neither reads it. -/
namespace Persona

namespace Program

variable {source : String} {limit : Nat} {ts : List Token} {p : Program} {d : FunctionDecl} {x : String} {f : Function}
  {vs ws : List Value}

/-- A call of a function with another value for a parameter that is reported as unused gives the same value or
fault, and leaves the same session: the same output, the same calls of services and the same variables. -/
theorem call_of_unused (htokens : tokenize source = .ok ts) (hparse : parse limit ts = .ok p)
    (hd : d ∈ Stmt.functions p.statements)
    (hreport : ⟨.unusedParameter x d.name, d.place⟩ ∈ (analyze p).diagnostics) (hf : d.Makes f)
    (hlength : vs.length = ws.length)
    (hdiffer : ∀ i : Nat, vs[i]? ≠ ws[i]? → (d.params[i]?).map (·.name) = some x) (h : Host) (fuel : Nat)
    (s : Session) :
    Evaluation.call h fuel (.function f) ws s = Evaluation.call h fuel (.function f) vs s := by
  have hfound := Analysis.found_of_parse htokens hparse hd hreport rfl nofun
  have havoids : ∀ i ∈ Stmt.uses d.body, i.name ≠ x := by
    cases hfound with
    | @unused q hq =>
      obtain ⟨-, hunused⟩ := List.mem_filter.1 hq
      rintro i hi hname
      simp only [Bool.and_eq_true, Bool.not_eq_true', List.contains_eq_mem, decide_eq_false_iff_not] at hunused
      exact hunused.2 (hname ▸ List.mem_map_of_mem hi)
  refine Evaluation.call_avoids hf.body havoids hlength (fun i hi => ?_) fuel s
  rw [hf.params, List.getElem?_map]
  exact hdiffer i hi

/-- A parameter that the body only assigns. -/
def idleParam : FunctionDecl :=
  ⟨⟨1, 1⟩, "f", [⟨"a", none⟩, ⟨"x", none⟩], none,
    [.expr ⟨1, 14⟩ (.assign ⟨"x", ⟨1, 14⟩⟩ (.identifier ⟨"a", ⟨1, 18⟩⟩)),
     .giveBack ⟨1, 21⟩ (some (.call ⟨1, 28⟩ (.identifier ⟨"print", ⟨1, 28⟩⟩) [.identifier ⟨"a", ⟨1, 34⟩⟩]))]⟩

theorem call_of_unused_idleParam : ∃ ts, tokenize "fn f(a, x) \x7b x = a; return print(a) \x7d" = .ok ts ∧
    parse 5 ts = .ok ⟨[.function idleParam]⟩ ∧
    (⟨.unusedParameter "x" "f", ⟨1, 1⟩⟩ : Diagnostic) ∈ (analyze ⟨[.function idleParam]⟩).diagnostics ∧
    Evaluation.call {} 3 (.function ⟨⟨0, "f"⟩, ["a", "x"], .script idleParam.body⟩) [.bool true, .string "x"]
      (.start {} .default none) =
    Evaluation.call {} 3 (.function ⟨⟨0, "f"⟩, ["a", "x"], .script idleParam.body⟩) [.bool true, .null]
      (.start {} .default none) := by
  obtain ⟨ts, htokens, hparse⟩ : ∃ ts, tokenize "fn f(a, x) \x7b x = a; return print(a) \x7d" = .ok ts ∧
      parse 5 ts = .ok ⟨[.function idleParam]⟩ := ⟨_, by cbv, by cbv⟩
  have hreport : (⟨.unusedParameter "x" "f", ⟨1, 1⟩⟩ : Diagnostic) ∈ (analyze ⟨[.function idleParam]⟩).diagnostics := by
    decide +kernel
  refine ⟨ts, htokens, hparse, hreport, ?_⟩
  refine call_of_unused htokens hparse (Stmt.mem_functions.2 (List.mem_cons_self ..)) hreport ⟨rfl, rfl, rfl⟩ rfl ?_ _ _ _
  rintro (_ | _ | i) hi
  · exact absurd rfl hi
  · rfl
  · exact absurd rfl hi

end Program

end Persona
