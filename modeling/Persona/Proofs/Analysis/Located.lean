import Persona.Proofs.Analysis.Reported
import Persona.Proofs.Analysis.Unreachable
import Persona.Proofs.Syntax.Blame

/-! Where diagnostics are.

A diagnostic has the place of a statement, of a name or of a trait entry, and these are where tokens start. -/
namespace Persona

namespace Stmt

/-- What cannot be reached is a statement of the program, however deep inside. -/
theorem Cut.mem_deepList {kept : Stmt → Bool} {keyword : String} {next : Stmt} {ss ss' : List Stmt}
    (h : Cut kept keyword next ss ss') : next ∈ deepList ss := by
  induction h with
  | here => exact mem_deepList_of_mem (by simp)
  | yes _ ih => exact mem_deepList_of_mem_deep List.mem_append_cons_self (List.mem_cons_of_mem _ (List.mem_append_left _ ih))
  | no _ ih =>
    rw [deepList, deepList, List.append_nil] at ih
    exact mem_deepList_of_mem_deep List.mem_append_cons_self (List.mem_cons_of_mem _ (List.mem_append_right _ ih))
  | whileLoop _ ih | forEach _ ih | block _ ih | function _ ih =>
    exact mem_deepList_of_mem_deep List.mem_append_cons_self (List.mem_cons_of_mem _ ih)

end Stmt

namespace Analysis

variable {d : Diagnostic} {seen : List Trait} {entries earlier : List TraitEntry} {p : Program}

theorem exists_entry_of_mem_entries (h : d ∈ entryDiagnostics seen entries) : ∃ e ∈ entries, e.place = d.place := by
  induction entries generalizing seen with
  | nil => cases h
  | cons e rest ih =>
    simp only [entryDiagnostics, List.mem_append] at h
    rcases h with (h | h) | h
    · split at h
      · cases h
      · cases List.mem_singleton.1 h
        exact ⟨e, List.mem_cons_self, rfl⟩
    · split at h
      · cases List.mem_singleton.1 h
        exact ⟨e, List.mem_cons_self, rfl⟩
      · cases h
    · obtain ⟨e', he', hplace⟩ := ih h
      exact ⟨e', List.mem_cons_of_mem _ he', hplace⟩

theorem exists_entry_of_mem_overridden (h : d ∈ overriddenDiagnostics earlier seen entries) :
    ∃ e ∈ entries, e.place = d.place := by
  induction entries generalizing seen with
  | nil => cases h
  | cons e rest ih =>
    simp only [overriddenDiagnostics, List.mem_append] at h
    rcases h with h | h
    · split at h
      · split at h
        · cases h
        · cases List.mem_singleton.1 h
          exact ⟨e, List.mem_cons_self, rfl⟩
      · cases h
    · obtain ⟨e', he', hplace⟩ := ih h
      exact ⟨e', List.mem_cons_of_mem _ he', hplace⟩

/-- What is said of personality blocks is said of an entry of one of them. -/
theorem exists_entry_of_mem_personality {blocks : List (List TraitEntry)} (h : d ∈ personalityDiagnostics earlier blocks) :
    ∃ entries ∈ blocks, ∃ e ∈ entries, e.place = d.place := by
  induction blocks generalizing earlier with
  | nil => cases h
  | cons entries rest ih =>
    simp only [personalityDiagnostics, List.mem_append] at h
    rcases h with (h | h) | h
    · exact ⟨entries, List.mem_cons_self, exists_entry_of_mem_entries h⟩
    · exact ⟨entries, List.mem_cons_self, exists_entry_of_mem_overridden h⟩
    · obtain ⟨entries', hentries, he⟩ := ih h
      exact ⟨entries', List.mem_cons_of_mem _ hentries, he⟩

theorem exists_stmt_of_mem_unreachable {ss : List Stmt} (h : d ∈ unreachableDiagnostics ss) :
    ∃ s ∈ Stmt.deepList ss, s.place = d.place := by
  obtain ⟨list, hlist, hreport⟩ := List.mem_filterMap.1 h
  obtain ⟨⟨keyword, next⟩, hnext, rfl⟩ := Option.map_eq_some_iff.1 hreport
  have hcut : ∃ ss', Stmt.Cut (fun _ => false) keyword next ss ss' :=
    Stmt.cut_of_mem hnext (Stmt.cut_of_mem_listsIn hnext ss) hlist
  obtain ⟨ss', hcut⟩ := hcut
  exact ⟨next, hcut.mem_deepList, rfl⟩

theorem exists_stmt_of_mem_main (h : d ∈ mainDiagnostics p) : ∃ s ∈ Stmt.deepList p.statements, s.place = d.place := by
  unfold mainDiagnostics at h
  dsimp only at h
  split at h
  · next main hmain =>
    split at h
    · cases h
    · cases List.mem_singleton.1 h
      obtain ⟨s, hs, hfound⟩ := List.exists_of_findSome?_eq_some hmain
      refine ⟨s, Stmt.mem_deepList_of_mem hs, ?_⟩
      split at hfound
      · split at hfound
        · cases hfound
          rfl
        · cases hfound
      · cases hfound
  · cases h

/-- A name is reported where it is used in a function, and all else about a function where that begins. -/
theorem exists_place_of_mem_functions {globals : List String} {ss : List Stmt}
    (h : d ∈ (Stmt.functions ss).flatMap (functionDiagnostics globals)) :
    d.place ∈ Stmt.listPlaces ss ∨ ∃ s ∈ Stmt.deepList ss, s.place = d.place := by
  obtain ⟨f, hf, hmem⟩ := List.mem_flatMap.1 h
  cases found_of_mem hmem with
  | @unresolved i hi =>
    refine .inl ((Stmt.listPlaces_perm ss).mem_iff.2 (List.mem_append_right _ ?_))
    exact List.mem_flatMap.2 ⟨f, hf, List.mem_map_of_mem (List.mem_filter.1 hi).1⟩
  | _ => exact .inr ⟨.function f, Stmt.mem_functions.1 hf, rfl⟩

end Analysis

open Analysis in
/-- Diagnostics of a program have the places of tokens of its source. -/
theorem exists_token_of_diagnostic {limit : Nat} {ts : List Token} {p : Program} {d : Diagnostic}
    (hparse : parse limit ts = .ok p) (hd : d ∈ (analyze p).diagnostics) : ∃ t ∈ ts, t.start.coordinate = d.place := by
  have hhead : (∃ s ∈ Stmt.deepList p.statements, s.place = d.place) → ∃ t ∈ ts, t.start.coordinate = d.place := by
    rintro ⟨s, hs, hplace⟩
    exact List.mem_map.1 ((heads_sublist_of_parse hparse).subset (List.mem_map.2 ⟨s, hs, hplace⟩))
  obtain ⟨check, hcheck⟩ := mem_diagnostics_iff_exists.1 hd
  cases check with
  | personality =>
    obtain ⟨entries, hentries, e, he, hplace⟩ := exists_entry_of_mem_personality hcheck
    obtain ⟨s, hs, hblock⟩ := List.mem_filterMap.1 hentries
    cases s with
    | personality place entries' =>
      cases hblock
      obtain ⟨t, ht, hstart⟩ := Parser.starts_of_mem_entries hparse hs he
      exact ⟨t, ht, hstart.trans hplace⟩
    | _ => cases hblock
  | flow => exact hhead (exists_stmt_of_mem_unreachable hcheck)
  | functions =>
    rcases exists_place_of_mem_functions hcheck with hname | hstmt
    · exact List.mem_map.1 ((places_sublist_of_parse hparse).subset hname)
    · exact hhead hstmt
  | main => exact hhead (exists_stmt_of_mem_main hcheck)
  | loops =>
    obtain ⟨s, hs, rfl⟩ := List.mem_map.1 hcheck
    exact hhead ⟨s, (List.mem_filter.1 hs).1, rfl⟩

end Persona
