import Persona.Analysis

/-! Who finds what.

Every check has findings of its own, so a diagnostic of a program is one of the check that makes such
findings, and of no other. -/
namespace Persona

/-- The checks of an analysis. -/
inductive Check where
  | personality | flow | functions | main | loops

namespace Finding

/-- The check that makes such a finding, unless it is the parser's. -/
def check? : Finding → Option Check
  | syntacticError _ => none
  | traitOutOfRange .. | duplicateTrait _ | traitOverridden .. => some .personality
  | unreachableCode _ => some .flow
  | unresolvedIdentifier .. | unusedParameter .. | unknownReturnType .. | missingReturnValue ..
  | emptyFunctionBody _ => some .functions
  | mainNotCalled => some .main
  | infiniteLoop => some .loops

end Finding

namespace Analysis

/-- All diagnostics come from a check. -/
def OfCheck (c : Check) (ds : List Diagnostic) : Prop := ∀ d ∈ ds, d.finding.check? = some c

/-- What a check has to say about a program. -/
def diagnosticsOf (p : Program) : Check → List Diagnostic
  | .personality => personalityDiagnostics [] p.personalityBlocks
  | .flow => unreachableDiagnostics p.statements
  | .functions => (Stmt.functions p.statements).flatMap (functionDiagnostics (Stmt.bindings p.statements))
  | .main => mainDiagnostics p
  | .loops => infiniteLoopDiagnostics p.statements

namespace OfCheck

variable {c : Check} {ds ds' : List Diagnostic} {d : Diagnostic}

theorem nil : OfCheck c [] := fun _ hd => absurd hd List.not_mem_nil

theorem one (hd : d.finding.check? = some c) : OfCheck c [d] := List.forall_mem_singleton.2 hd

theorem append (hds : OfCheck c ds) (hds' : OfCheck c ds') : OfCheck c (ds ++ ds') :=
  List.forall_mem_append.2 ⟨hds, hds'⟩

theorem ite (b : Prop) [Decidable b] (hds : OfCheck c ds) (hds' : OfCheck c ds') :
    OfCheck c (if b then ds else ds') := by
  split
  · exact hds
  · exact hds'

theorem map {as : List α} {f : α → Diagnostic} (hf : ∀ a, (f a).finding.check? = some c) : OfCheck c (as.map f) :=
  List.forall_mem_map.2 fun a _ => hf a

end OfCheck

theorem ofCheck_entries {seen : List Trait} {entries : List TraitEntry} :
    OfCheck .personality (entryDiagnostics seen entries) := by
  induction entries generalizing seen with
  | nil => exact .nil
  | cons e rest ih => exact ((OfCheck.ite _ .nil (.one rfl)).append (.ite _ (.one rfl) .nil)).append ih

theorem ofCheck_overridden {earlier entries : List TraitEntry} {seen : List Trait} :
    OfCheck .personality (overriddenDiagnostics earlier seen entries) := by
  induction entries generalizing seen with
  | nil => exact .nil
  | cons e rest ih =>
    refine OfCheck.append ?_ ih
    split
    · exact .ite _ .nil (.one rfl)
    · exact .nil

theorem ofCheck_personality {earlier : List TraitEntry} {blocks : List (List TraitEntry)} :
    OfCheck .personality (personalityDiagnostics earlier blocks) := by
  induction blocks generalizing earlier with
  | nil => exact .nil
  | cons entries rest ih => exact (ofCheck_entries.append ofCheck_overridden).append ih

theorem ofCheck_unreachable (ss : List Stmt) : OfCheck .flow (unreachableDiagnostics ss) := by
  intro d hd
  obtain ⟨list, -, hlist⟩ := List.mem_filterMap.1 hd
  obtain ⟨found, -, rfl⟩ := Option.map_eq_some_iff.1 hlist
  rfl

theorem ofCheck_function (globals : List String) (d : FunctionDecl) :
    OfCheck .functions (functionDiagnostics globals d) := by
  have htype : OfCheck .functions (returnTypeDiagnostics d) := by
    unfold returnTypeDiagnostics
    split
    · exact .nil
    · exact (OfCheck.ite _ .nil (.one rfl)).append (.ite _ (.one rfl) .nil)
  exact (((OfCheck.ite _ (.one rfl) .nil).append htype).append (.map fun _ => rfl)).append (.map fun _ => rfl)

theorem ofCheck_main (p : Program) : OfCheck .main (mainDiagnostics p) := by
  unfold mainDiagnostics
  dsimp only
  split
  · exact .ite _ .nil (.one rfl)
  · exact .nil

theorem ofCheck_diagnosticsOf (p : Program) (c : Check) : OfCheck c (diagnosticsOf p c) := by
  cases c with
  | personality => exact ofCheck_personality
  | flow => exact ofCheck_unreachable _
  | functions =>
    intro d hd
    obtain ⟨f, -, hf⟩ := List.mem_flatMap.1 hd
    exact ofCheck_function _ f d hf
  | main => exact ofCheck_main p
  | loops => exact .map fun _ => rfl

theorem mem_diagnostics_iff_exists {p : Program} {d : Diagnostic} :
    d ∈ (analyze p).diagnostics ↔ ∃ c, d ∈ diagnosticsOf p c := by
  simp only [analyze, List.mem_append]
  constructor
  · rintro ((((h | h) | h) | h) | h)
    · exact ⟨.personality, h⟩
    · exact ⟨.flow, h⟩
    · exact ⟨.functions, h⟩
    · exact ⟨.main, h⟩
    · exact ⟨.loops, h⟩
  · rintro ⟨c, h⟩
    cases c with
    | personality => exact .inl (.inl (.inl (.inl h)))
    | flow => exact .inl (.inl (.inl (.inr h)))
    | functions => exact .inl (.inl (.inr h))
    | main => exact .inl (.inr h)
    | loops => exact .inr h

/-- A diagnostic is one of the check that makes such findings. -/
theorem mem_diagnostics {p : Program} {d : Diagnostic} {c : Check} (hd : d.finding.check? = some c) :
    d ∈ (analyze p).diagnostics ↔ d ∈ diagnosticsOf p c := by
  rw [mem_diagnostics_iff_exists]
  refine ⟨fun ⟨c', h⟩ => ?_, fun h => ⟨c, h⟩⟩
  have heq := (ofCheck_diagnosticsOf p c' d h).symm.trans hd
  exact Option.some.inj heq ▸ h

end Analysis

end Persona
