import Persona.Proofs.Analysis.Findings
import Persona.Proofs.Evaluation.Law
import Persona.Proofs.Profile.Blocks

/-! Personality blocks, checked and applied.

The analysis looks at the blocks of a program entry by entry, and a run applies them before its first statement.
Both refuse the same programs: the analysis reports a value or a repeated trait just if a block is not admissible, and
then no statement runs. Otherwise the run goes on with the profile the blocks give, to its end. -/
namespace Persona

/-! ### The diagnostics -/

/-- Findings about blocks that are refused. -/
def Finding.Refuses (f : Finding) : Prop := (∃ t v, f = .traitOutOfRange t v) ∨ ∃ t, f = .duplicateTrait t

namespace Analysis

variable {entries : List TraitEntry} {seen : List Trait} {d : Diagnostic}

theorem refuses_of_mem_entries (h : d ∈ entryDiagnostics seen entries) : d.finding.Refuses := by
  induction entries generalizing seen with
  | nil => simp [entryDiagnostics] at h
  | cons e rest ih =>
    simp only [entryDiagnostics, List.mem_append] at h
    rcases h with (h | h) | h
    · split at h
      · simp at h
      · rw [List.mem_singleton.1 h]
        exact .inl ⟨_, _, rfl⟩
    · split at h
      · rw [List.mem_singleton.1 h]
        exact .inr ⟨_, rfl⟩
      · simp at h
    · exact ih h

theorem not_refuses_of_mem_overridden {earlier : List TraitEntry} (h : d ∈ overriddenDiagnostics earlier seen entries) :
    ¬ d.finding.Refuses := by
  induction entries generalizing seen with
  | nil => simp [overriddenDiagnostics] at h
  | cons e rest ih =>
    simp only [overriddenDiagnostics, List.mem_append] at h
    rcases h with h | h
    · split at h
      · split at h
        · simp at h
        · rw [List.mem_singleton.1 h]
          simp [Finding.Refuses]
      · simp at h
    · exact ih h

/-- Nothing is reported for the entries of an admissible block, and something for all others. -/
theorem entryDiagnostics_eq_nil : entryDiagnostics seen entries = [] ↔
    TraitEntry.Admissible entries ∧ ∀ e ∈ entries, e.key ∉ seen := by
  induction entries generalizing seen with
  | nil => simp [entryDiagnostics, TraitEntry.admissible_nil]
  | cons e rest ih =>
    have hhere : entryDiagnostics seen (e :: rest) = [] ↔
        Profile.inUnit e.value = true ∧ e.key ∉ seen ∧ entryDiagnostics (e.key :: seen) rest = [] := by
      simp [entryDiagnostics]
    rw [hhere, ih, TraitEntry.admissible_cons]
    constructor
    · rintro ⟨hunit, he, hrest, hlater⟩
      simp only [List.mem_cons, not_or] at hlater
      exact ⟨⟨hunit, fun e' he' => (hlater e' he').1, hrest⟩,
        List.forall_mem_cons.2 ⟨he, fun e' he' => (hlater e' he').2⟩⟩
    · rintro ⟨⟨hunit, hfirst, hrest⟩, hseen⟩
      obtain ⟨he, hseen⟩ := List.forall_mem_cons.1 hseen
      refine ⟨hunit, he, hrest, fun e' he' => ?_⟩
      simp [hfirst e' he', hseen e' he']

theorem exists_refuses (earlier : List TraitEntry) {blocks : List (List TraitEntry)} :
    (∃ d ∈ personalityDiagnostics earlier blocks, d.finding.Refuses) ↔
      ∃ block ∈ blocks, ¬ TraitEntry.Admissible block := by
  induction blocks generalizing earlier with
  | nil => simp [personalityDiagnostics]
  | cons block rest ih =>
    have hblock : (∃ d ∈ entryDiagnostics [] block, d.finding.Refuses) ↔ ¬ TraitEntry.Admissible block := by
      have hnil : entryDiagnostics [] block = [] ↔ TraitEntry.Admissible block ∧ ∀ e ∈ block, e.key ∉ [] :=
        entryDiagnostics_eq_nil
      constructor
      · rintro ⟨d, hd, -⟩ hadmissible
        rw [hnil.2 ⟨hadmissible, fun _ _ => List.not_mem_nil⟩] at hd
        exact List.not_mem_nil hd
      · intro hrefused
        obtain ⟨d, hd⟩ := List.exists_mem_of_ne_nil _ fun h => hrefused (hnil.1 h).1
        exact ⟨d, hd, refuses_of_mem_entries hd⟩
    have hoverridden : ¬ ∃ d ∈ overriddenDiagnostics earlier [] block, d.finding.Refuses :=
      fun ⟨_, hd, h⟩ => not_refuses_of_mem_overridden hd h
    simp only [personalityDiagnostics, List.mem_append, or_and_right, exists_or, hblock, hoverridden, or_false, ih,
      List.exists_mem_cons_iff]

theorem mem_errors_of_refuses {p : Program} (h : d.finding.Refuses) :
    d ∈ (analyze p).errors ↔ d ∈ personalityDiagnostics [] p.personalityBlocks := by
  have hd : d.finding.check? = some .personality ∧ d.severity = .error := by
    rw [Diagnostic.severity]
    rcases h with ⟨t, v, h⟩ | ⟨t, h⟩
    · rw [h]
      exact ⟨rfl, rfl⟩
    · rw [h]
      exact ⟨rfl, rfl⟩
  rw [Report.errors, Report.ofSeverity, List.mem_filter, mem_diagnostics hd.1, diagnosticsOf]
  simp [hd.2]

/-- The analysis refuses a program just if one of its blocks is not admissible. -/
theorem exists_error_refuses (p : Program) : (∃ d ∈ (analyze p).errors, d.finding.Refuses) ↔
    ∃ block ∈ p.personalityBlocks, ¬ TraitEntry.Admissible block := by
  rw [← exists_refuses []]
  constructor
  · rintro ⟨d, hd, h⟩
    exact ⟨d, (mem_errors_of_refuses h).1 hd, h⟩
  · rintro ⟨d, hd, h⟩
    exact ⟨d, (mem_errors_of_refuses h).2 hd, h⟩

end Analysis

/-! ### Runs -/

namespace Evaluation

/-- The law of the profile: nothing that runs changes it. -/
def profileLaw (h : Host) (q : Profile) : Law h where
  Inv _ s := s.profile = q
  Val _ := True
  Key _ := True
  node _ _ := True
  site _ _ := True
  null := trivial
  bool _ := trivial
  literal _ := trivial
  lookup _ _ := trivial
  binary _ _ _ := trivial
  unary _ _ := trivial
  index _ _ _ := trivial
  array _ _ := trivial
  key _ _ _ := trivial
  map _ := trivial
  items _ _ _ _ := trivial
  builtin {_ vs b} _ := by
    have hinert : Session.Inert fun s => s.profile = q := ⟨fun _ _ hs => hs, fun _ _ hs => hs, fun _ _ hs _ => hs⟩
    exact (Builtin.plain_call hinert h b vs).imp (fun _ _ => trivial) fun _ _ => trivial
  look hs := hs
  assign _ _ hs := (Session.profile_assign ..).trans hs
  define _ _ _ hs := (Session.profile_define ..).trans hs
  makes _ hs := ⟨hs, trivial⟩
  enter _ _ _ _ hs := (Session.profile_defineAll ..).trans hs
  nodes _ _ _ _ := ⟨trivial, fun _ _ _ _ => trivial⟩
  leave hs := hs

variable {h : Host} {fuel : Nat} {p : Program} {s : Session} {q : Profile} {m : Moment}

/-- The profile that the blocks give is in force at every moment of a run, and after it. -/
theorem profile_of_reaches (hstart : applyBlocks p.personalityBlocks s = (.ok (), { s with profile := q }))
    (hm : Reaches h fuel p s m) : m.session.profile = q ∧ (m.after h).profile = q := by
  have hblocks : ∀ t, applyBlocks p.personalityBlocks s = (.ok (), t) → (profileLaw h q).Inv [] t := by
    intro t happly
    rw [hstart] at happly
    cases happly
    rfl
  have hcode : (profileLaw h q).PermitsBlock [] p.statements := fun _ _ => ⟨trivial, fun _ _ _ _ => trivial⟩
  have hlawful := (profileLaw h q).holds hblocks hcode hm
  exact ⟨hlawful.1, Law.keeps_after hlawful⟩

/-- Where the blocks are refused no statement runs. -/
theorem not_reaches_of_error {e : Stop} {t : Session} (hstart : applyBlocks p.personalityBlocks s = (.error e, t)) :
    ¬ Reaches h fuel p s m := by
  intro hm
  induction hm with
  | start happly =>
    rw [hstart] at happly
    cases happly
  | leads _ _ ih => exact ih

end Evaluation

/-- The analysis and a run refuse the same personality blocks: there is an error about a value outside the unit
interval, or about a trait set twice in a block, just if the run ends with a personality fault before its first
statement. Otherwise one profile is in force throughout. It has the value of the last block that sets a trait, and
the value from before where none does; how the entries of a block are ordered does not matter. -/
theorem personality_checked (h : Host) (p : Program) (profile : Profile) (clock : Clock) (fuel : Nat) :
    ((∃ e, p.interpret? h fuel (.start h profile clock) = some ⟨.faulted (.personality e), "", false, []⟩ ∧
        ∀ m, ¬ Evaluation.Reaches h fuel p (.start h profile clock) m) ↔
      ∃ d ∈ (analyze p).errors, (∃ t v, d.finding = .traitOutOfRange t v) ∨ ∃ t, d.finding = .duplicateTrait t) ∧
    ((∀ d ∈ (analyze p).errors, (∀ t v, d.finding ≠ .traitOutOfRange t v) ∧ ∀ t, d.finding ≠ .duplicateTrait t) →
      ∃ q : Profile,
        Evaluation.Reaches h fuel p (.start h profile clock) ⟨fuel, [], .topLevel p.statements, .start h q clock⟩ ∧
        (∀ m, Evaluation.Reaches h fuel p (.start h profile clock) m →
          m.session.profile = q ∧ (m.after h).profile = q) ∧
        (∀ before block after, p.personalityBlocks = before ++ block :: after →
          ∀ e ∈ block, (∀ later ∈ after, ∀ e' ∈ later, e'.key ≠ e.key) → q.get e.key = e.value) ∧
        (∀ t, (∀ block ∈ p.personalityBlocks, ∀ e ∈ block, e.key ≠ t) → q.get t = profile.get t) ∧
        ∀ blocks, List.Forall₂ List.Perm p.personalityBlocks blocks →
          Evaluation.applyBlocks blocks (.start h profile clock) = (.ok (), .start h q clock)) := by
  have hrefused := Analysis.exists_error_refuses p
  by_cases hblocks : ∀ block ∈ p.personalityBlocks, TraitEntry.Admissible block
  · have happly := Evaluation.applyBlocks_of_admissible (s := .start h profile clock) hblocks
    have hnone : ¬ ∃ block ∈ p.personalityBlocks, ¬ TraitEntry.Admissible block := by simpa using hblocks
    refine ⟨iff_of_false ?_ fun herror => hnone (hrefused.1 herror), fun _ => ?_⟩
    · rintro ⟨_, _, hnever⟩
      exact hnever _ (.start happly)
    refine ⟨profile.putBlocks p.personalityBlocks, .start happly, fun m hm => ?_, ?_, ?_, ?_⟩
    · exact Evaluation.profile_of_reaches happly hm
    · intro before block after heq e he hlater
      rw [heq] at hblocks ⊢
      exact Profile.get_putBlocks_of_mem (hblocks block (by simp)) he hlater
    · exact fun t ht => Profile.get_putBlocks_of_not_mem ht
    · intro blocks hperm
      rw [Evaluation.applyBlocks_of_admissible (TraitEntry.admissible_of_forall₂ hblocks hperm),
        Profile.putBlocks_perm hblocks hperm]
      rfl
  · have hsome : ∃ block ∈ p.personalityBlocks, ¬ TraitEntry.Admissible block := by simpa using hblocks
    have herror := hrefused.2 hsome
    refine ⟨iff_of_true ?_ herror, fun hnone => ?_⟩
    · obtain ⟨e, q, hfault⟩ := Evaluation.applyBlocks_of_refused (s := .start h profile clock) hsome
      refine ⟨e, ?_, fun m => Evaluation.not_reaches_of_error hfault⟩
      rw [Program.interpret?, Evaluation.program, Effect.bind_error hfault]
      rfl
    · obtain ⟨d, hd, hrefuses⟩ := herror
      obtain ⟨hrange, htwice⟩ := hnone d hd
      rcases hrefuses with ⟨t, v, heq⟩ | ⟨t, heq⟩
      · exact absurd heq (hrange t v)
      · exact absurd heq (htwice t)

/-- `personality { humor: 0.25, empathy: 1 } personality { humor: 0.5 }` -/
def twoBlocks : Program :=
  ⟨[.personality ⟨1, 1⟩ [⟨.humor, 0.25, ⟨1, 15⟩⟩, ⟨.empathy, 1, ⟨1, 28⟩⟩],
    .personality ⟨1, 42⟩ [⟨.humor, 0.5, ⟨1, 56⟩⟩]]⟩

theorem personality_checked_twoBlocks :
    (∀ d ∈ (analyze twoBlocks).errors, (∀ t v, d.finding ≠ .traitOutOfRange t v) ∧ ∀ t, d.finding ≠ .duplicateTrait t) ∧
    ∃ q : Profile, Evaluation.Reaches {} 1 twoBlocks (.start {} .default none)
        ⟨1, [], .topLevel twoBlocks.statements, .start {} q none⟩ ∧
      q.get .humor = 0.5 ∧ q.get .empathy = 1 ∧ q.get .openness = Profile.neutral := by
  have hnone : ∀ d ∈ (analyze twoBlocks).errors,
      (∀ t v, d.finding ≠ .traitOutOfRange t v) ∧ ∀ t, d.finding ≠ .duplicateTrait t := by
    have hempty : (analyze twoBlocks).errors = [] := by decide +kernel
    simp [hempty]
  obtain ⟨q, hstart, -, hlast, hunset, -⟩ := (personality_checked {} twoBlocks .default none 1).2 hnone
  refine ⟨hnone, q, hstart, ?_, ?_, ?_⟩
  · exact hlast [_] _ [] rfl ⟨.humor, 0.5, ⟨1, 56⟩⟩ (by simp) (by simp)
  · exact hlast [] _ [_] rfl ⟨.empathy, 1, ⟨1, 28⟩⟩ (by simp) (by simp)
  · rw [hunset .openness (by simp [twoBlocks, Program.personalityBlocks]), Profile.get_default]

end Persona
