import Persona.Proofs.Analysis.Findings
import Persona.Proofs.Syntax.Head

/-! What a diagnostic is about.

A diagnostic has a place and perhaps names, and not the statement that it is about. No two statements of a
source begin at the same place, so that the place says which one is meant. -/
namespace Persona.Analysis

/-- What is found in a function, and why. -/
inductive Found (globals : List String) (d : FunctionDecl) : Diagnostic → Prop
  | empty : d.body.isEmpty = true → Found globals d ⟨.emptyFunctionBody d.name, d.place⟩
  | unknownType {type : String} : d.returnType = some type → type ∉ knownTypes →
      Found globals d ⟨.unknownReturnType type d.name, d.place⟩
  | noValue {type : String} : d.returnType = some type → type ≠ "null" → returnsValue d.body = false →
      Found globals d ⟨.missingReturnValue d.name type, d.place⟩
  | unresolved {i : Identifier} : i ∈ unresolved globals d →
      Found globals d ⟨.unresolvedIdentifier i.name d.name, i.place⟩
  | unused {q : Param} : q ∈ unusedParams d → Found globals d ⟨.unusedParameter q.name d.name, d.place⟩

variable {p : Program} {globals : List String} {d : FunctionDecl} {finding : Finding} {place : Coordinate}

theorem found_of_mem_returnType {e : Diagnostic} (h : e ∈ returnTypeDiagnostics d) : Found globals d e := by
  unfold returnTypeDiagnostics at h
  split at h
  · cases h
  next type htype =>
  rcases List.mem_append.1 h with h | h
  · split at h
    · cases h
    · next hunknown =>
      cases List.mem_singleton.1 h
      exact .unknownType htype hunknown
  · split at h
    · next hmissing =>
      cases List.mem_singleton.1 h
      exact .noValue htype hmissing.1 (by simpa using hmissing.2)
    · cases h

theorem found_of_mem {e : Diagnostic} (h : e ∈ functionDiagnostics globals d) : Found globals d e := by
  simp only [functionDiagnostics, List.mem_append] at h
  rcases h with ((h | h) | h) | h
  · split at h
    · next hempty =>
      cases List.mem_singleton.1 h
      exact .empty hempty
    · cases h
  · exact found_of_mem_returnType h
  · obtain ⟨i, hi, rfl⟩ := List.mem_map.1 h
    exact .unresolved hi
  · obtain ⟨q, hq, rfl⟩ := List.mem_map.1 h
    exact .unused hq

/-- Names that are not bound are reported where they are used, all else about a function where that begins. -/
theorem Found.place_eq (h : Found globals d ⟨finding, place⟩) (hname : ∀ x f, finding ≠ .unresolvedIdentifier x f) :
    place = d.place := by
  cases h with
  | unresolved => exact absurd rfl (hname _ _)
  | _ => rfl

variable {source : String} {limit : Nat} {ts : List Token}

/-- What is reported of a function is found in it. -/
theorem found_of_parse (htokens : tokenize source = .ok ts) (hparse : parse limit ts = .ok p)
    (hd : d ∈ Stmt.functions p.statements) (hreport : ⟨finding, d.place⟩ ∈ (analyze p).diagnostics)
    (hcheck : finding.check? = some .functions) (hname : ∀ x f, finding ≠ .unresolvedIdentifier x f) :
    Found (Stmt.bindings p.statements) d ⟨finding, d.place⟩ := by
  obtain ⟨e, he, hmem⟩ := List.mem_flatMap.1 ((mem_diagnostics hcheck).1 hreport)
  have hfound := found_of_mem hmem
  obtain rfl : d = e := Stmt.function.inj
    (eq_of_place_eq htokens hparse (Stmt.mem_functions.1 hd) (Stmt.mem_functions.1 he) (hfound.place_eq hname))
  exact hfound

/-- A statement is reported as a loop that does not end only if it is one. -/
theorem isInfiniteLoop_of_parse (htokens : tokenize source = .ok ts) (hparse : parse limit ts = .ok p) {s : Stmt}
    (hs : s ∈ Stmt.deepList p.statements) (hreport : ⟨.infiniteLoop, s.place⟩ ∈ (analyze p).diagnostics) :
    isInfiniteLoop s = true := by
  have hloops : ⟨.infiniteLoop, s.place⟩ ∈ infiniteLoopDiagnostics p.statements :=
    (mem_diagnostics (c := .loops) rfl).1 hreport
  obtain ⟨t, ht, heq⟩ := List.mem_map.1 hloops
  obtain ⟨htdeep, hloop⟩ := List.mem_filter.1 ht
  obtain rfl : t = s := eq_of_place_eq htokens hparse htdeep hs (congrArg Diagnostic.place heq)
  exact hloop

end Persona.Analysis
