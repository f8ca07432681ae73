import Mathlib.Data.List.Forall2
import Persona.Proofs.Evaluation.Closed

/-! What personality blocks do to a profile.

A block is admissible if its values are in the unit interval and it sets no trait twice. Admissible blocks are applied one
after the other, and the last one that sets a trait decides its value; a block that is not admissible is refused, and
with it the run. -/
namespace Persona

/-- Values of the unit interval, and one for each trait at most. -/
structure TraitEntry.Admissible (entries : List TraitEntry) : Prop where
  inUnit : ∀ e ∈ entries, Profile.inUnit e.value = true
  nodup : (entries.map (·.key)).Nodup

theorem TraitEntry.admissible_nil : Admissible [] := ⟨by simp, by simp⟩

theorem TraitEntry.admissible_cons {e : TraitEntry} {rest : List TraitEntry} :
    Admissible (e :: rest) ↔ Profile.inUnit e.value = true ∧ (∀ e' ∈ rest, e'.key ≠ e.key) ∧ Admissible rest := by
  constructor
  · intro h
    obtain ⟨hunit, hrest⟩ := List.forall_mem_cons.1 h.inUnit
    obtain ⟨hfirst, hnodup⟩ := List.nodup_cons.1 h.nodup
    exact ⟨hunit, fun e' he' heq => hfirst (List.mem_map.2 ⟨e', he', heq⟩), hrest, hnodup⟩
  · rintro ⟨hunit, hfirst, hrest⟩
    refine ⟨List.forall_mem_cons.2 ⟨hunit, hrest.inUnit⟩, List.nodup_cons.2 ⟨fun hmem => ?_, hrest.nodup⟩⟩
    obtain ⟨e', he', heq⟩ := List.mem_map.1 hmem
    exact hfirst e' he' heq

theorem TraitEntry.Admissible.perm {a b : List TraitEntry} (h : Admissible a) (hab : a.Perm b) : Admissible b :=
  ⟨fun e he => h.inUnit e (hab.mem_iff.2 he), (hab.map _).nodup_iff.1 h.nodup⟩

theorem TraitEntry.admissible_of_forall₂ {a b : List (List TraitEntry)} (ha : ∀ block ∈ a, Admissible block)
    (hab : List.Forall₂ List.Perm a b) : ∀ block ∈ b, Admissible block := by
  induction hab with
  | nil => simp
  | cons hperm _ ih =>
    obtain ⟨hblock, ha⟩ := List.forall_mem_cons.1 ha
    exact List.forall_mem_cons.2 ⟨hblock.perm hperm, ih ha⟩

namespace Profile

variable {p q : Profile} {t : Trait}

theorem ext_get (h : ∀ t, p.get t = q.get t) : p = q := by
  obtain ⟨a⟩ := p
  obtain ⟨b⟩ := q
  refine congrArg mk (Vector.ext fun i hi => ?_)
  obtain ⟨t, ht⟩ : ∃ t : Trait, (t.index : Nat) = i := by
    have ht : Trait.ofIndex? i = some Trait.all[i] := List.getElem?_eq_getElem hi
    exact ⟨_, Trait.index_of_ofIndex? ht⟩
  subst ht
  exact h t

/-- Sets the traits of a block whatever their values. -/
def putAll (p : Profile) (entries : List TraitEntry) : Profile := entries.foldl (fun p e => p.put e.key e.value) p

/-- Sets the traits of one block after the other. -/
def putBlocks (p : Profile) (blocks : List (List TraitEntry)) : Profile := blocks.foldl putAll p

theorem get_putAll_of_not_mem {entries : List TraitEntry} (h : ∀ e ∈ entries, e.key ≠ t) :
    (p.putAll entries).get t = p.get t := by
  induction entries generalizing p with
  | nil => rfl
  | cons e rest ih =>
    have hrest : ((p.put e.key e.value).putAll rest).get t = (p.put e.key e.value).get t :=
      ih fun e' he' => h e' (List.mem_cons_of_mem e he')
    exact hrest.trans (get_put_of_ne p e.value (h e List.mem_cons_self).symm)

theorem get_putAll_of_mem {entries : List TraitEntry} (hnodup : (entries.map (·.key)).Nodup) {e : TraitEntry}
    (he : e ∈ entries) : (p.putAll entries).get e.key = e.value := by
  induction entries generalizing p with
  | nil => exact absurd he List.not_mem_nil
  | cons first rest ih =>
    obtain ⟨hfirst, hrest⟩ := List.nodup_cons.1 hnodup
    rcases List.mem_cons.1 he with rfl | he
    · have hsame : ((p.put e.key e.value).putAll rest).get e.key = (p.put e.key e.value).get e.key :=
        get_putAll_of_not_mem fun e' he' heq => hfirst (List.mem_map.2 ⟨e', he', heq⟩)
      exact hsame.trans (get_put_self ..)
    · exact ih hrest he

/-- The entries of an admissible block may stand in any order. -/
theorem putAll_perm {a b : List TraitEntry} (ha : TraitEntry.Admissible a) (hab : a.Perm b) : p.putAll a = p.putAll b := by
  refine ext_get fun t => ?_
  by_cases ht : ∃ e ∈ a, e.key = t
  · obtain ⟨e, he, rfl⟩ := ht
    rw [get_putAll_of_mem ha.nodup he, get_putAll_of_mem (ha.perm hab).nodup (hab.mem_iff.1 he)]
  · have hmissing : ∀ e ∈ a, e.key ≠ t := fun e he heq => ht ⟨e, he, heq⟩
    rw [get_putAll_of_not_mem hmissing, get_putAll_of_not_mem fun e he => hmissing e (hab.mem_iff.2 he)]

theorem putBlocks_perm {a b : List (List TraitEntry)} (ha : ∀ block ∈ a, TraitEntry.Admissible block)
    (hab : List.Forall₂ List.Perm a b) : p.putBlocks a = p.putBlocks b := by
  induction hab generalizing p with
  | nil => rfl
  | @cons x y a b hxy _ ih =>
    obtain ⟨hx, ha⟩ := List.forall_mem_cons.1 ha
    show (p.putAll x).putBlocks a = (p.putAll y).putBlocks b
    rw [← putAll_perm hx hxy, ih ha]

theorem get_putBlocks_of_not_mem {blocks : List (List TraitEntry)}
    (h : ∀ block ∈ blocks, ∀ e ∈ block, e.key ≠ t) : (p.putBlocks blocks).get t = p.get t := by
  induction blocks generalizing p with
  | nil => rfl
  | cons block rest ih =>
    obtain ⟨hblock, hrest⟩ := List.forall_mem_cons.1 h
    exact (ih hrest).trans (get_putAll_of_not_mem hblock)

/-- The last block that sets a trait decides. -/
theorem get_putBlocks_of_mem {before after : List (List TraitEntry)} {block : List TraitEntry}
    (hblock : TraitEntry.Admissible block) {e : TraitEntry} (he : e ∈ block)
    (hafter : ∀ later ∈ after, ∀ e' ∈ later, e'.key ≠ e.key) :
    (p.putBlocks (before ++ block :: after)).get e.key = e.value := by
  rw [putBlocks, List.foldl_append]
  exact (get_putBlocks_of_not_mem hafter).trans (get_putAll_of_mem hblock.nodup he)

/-! ### Applying a block -/

/-- The entries as they are handed to a profile. -/
abbrev pairs (entries : List TraitEntry) : List (Trait × Float) := entries.map fun e => (e.key, e.value)

theorem applyBlock_go {seen : List Trait} {entries : List TraitEntry} (hentries : TraitEntry.Admissible entries)
    (hseen : ∀ e ∈ entries, e.key ∉ seen) : applyBlock.go p seen (pairs entries) = .ok (p.putAll entries) := by
  induction entries generalizing p seen with
  | nil => rfl
  | cons e rest ih =>
    obtain ⟨hunit, hfirst, hrest⟩ := TraitEntry.admissible_cons.1 hentries
    obtain ⟨he, hseen⟩ := List.forall_mem_cons.1 hseen
    have hlater : ∀ e' ∈ rest, e'.key ∉ e.key :: seen := by
      intro e' he'
      simp [hfirst e' he', hseen e' he']
    rw [pairs, List.map_cons, applyBlock.go, if_neg he, set, if_pos hunit]
    exact ih hrest hlater

theorem applyBlock_of_admissible {entries : List TraitEntry} (h : TraitEntry.Admissible entries) :
    p.applyBlock (pairs entries) = .ok (p.putAll entries) :=
  applyBlock_go h fun _ _ => List.not_mem_nil

theorem exists_refusal_go {seen : List Trait} {entries : List TraitEntry}
    (h : ¬ (TraitEntry.Admissible entries ∧ ∀ e ∈ entries, e.key ∉ seen)) :
    ∃ e, applyBlock.go p seen (pairs entries) = .error e := by
  induction entries generalizing p seen with
  | nil => exact absurd ⟨TraitEntry.admissible_nil, by simp⟩ h
  | cons e rest ih =>
    rw [pairs, List.map_cons, applyBlock.go]
    by_cases he : e.key ∈ seen
    · exact ⟨_, if_pos he⟩
    rw [if_neg he, set]
    by_cases hunit : inUnit e.value = true
    · rw [if_pos hunit]
      refine ih fun hadmissible => h ⟨TraitEntry.admissible_cons.2 ⟨hunit, fun e' he' heq => ?_, hadmissible.1⟩, ?_⟩
      · exact hadmissible.2 e' he' (by simp [heq])
      · exact List.forall_mem_cons.2 ⟨he, fun e' he' hmem => hadmissible.2 e' he' (List.mem_cons_of_mem _ hmem)⟩
    · rw [if_neg hunit]
      exact ⟨_, rfl⟩

theorem exists_refusal {entries : List TraitEntry} (h : ¬ TraitEntry.Admissible entries) :
    ∃ e, p.applyBlock (pairs entries) = .error e :=
  exists_refusal_go fun hadmissible => h hadmissible.1

end Profile

/-! ### Bindings leave the profile alone -/

namespace Session

theorem profile_define (s : Session) (name : String) (v : Value) : (s.define name v).profile = s.profile := by
  unfold define
  split
  · rfl
  · rfl

theorem profile_assign (s : Session) (name : String) (v : Value) : (s.assign name v).profile = s.profile := by
  unfold assign
  split
  · rfl
  · exact s.profile_define name v

theorem profile_defineAll (s : Session) (bindings : List (String × Value)) :
    (s.defineAll bindings).profile = s.profile := by
  induction bindings generalizing s with
  | nil => rfl
  | cons binding rest ih => exact (ih _).trans (s.profile_define ..)

end Session

/-! ### Applying the blocks of a program -/

namespace Evaluation

variable {s t : Session} {blocks : List (List TraitEntry)}

theorem applyPersonality_of_admissible {entries : List TraitEntry} (h : TraitEntry.Admissible entries) :
    act (Action.applyPersonality (Profile.pairs entries)) s =
      (.ok (), { s with profile := s.profile.putAll entries }) := by
  refine act_ok ?_
  rw [Action.applyPersonality, Effect.get_bind_apply, Profile.applyBlock_of_admissible h]
  rfl

theorem applyPersonality_of_refusal {entries : List TraitEntry} {e : ProfileError}
    (h : s.profile.applyBlock (Profile.pairs entries) = .error e) :
    act (Action.applyPersonality (Profile.pairs entries)) s = (.error (.fault (.personality e)), s) := by
  refine act_error ?_
  rw [Action.applyPersonality, Effect.get_bind_apply, h]
  rfl

/-- Admissible blocks leave a session with their profile. -/
theorem applyBlocks_of_admissible (h : ∀ block ∈ blocks, TraitEntry.Admissible block) :
    applyBlocks blocks s = (.ok (), { s with profile := s.profile.putBlocks blocks }) := by
  induction blocks generalizing s with
  | nil => rfl
  | cons block rest ih =>
    obtain ⟨hblock, hrest⟩ := List.forall_mem_cons.1 h
    rw [applyBlocks, Effect.bind_ok (applyPersonality_of_admissible hblock), ih hrest]
    rfl

/-- A block that is not admissible ends the run, and nothing but the profile has changed. -/
theorem applyBlocks_of_refused (h : ∃ block ∈ blocks, ¬ TraitEntry.Admissible block) :
    ∃ e q, applyBlocks blocks s = (.error (.fault (.personality e)), { s with profile := q }) := by
  induction blocks generalizing s with
  | nil => simp at h
  | cons block rest ih =>
    by_cases hblock : TraitEntry.Admissible block
    · have hrest : ∃ block ∈ rest, ¬ TraitEntry.Admissible block := by simpa [hblock] using h
      obtain ⟨e, q, hfault⟩ := ih (s := { s with profile := s.profile.putAll block }) hrest
      exact ⟨e, q, by rw [applyBlocks, Effect.bind_ok (applyPersonality_of_admissible hblock), hfault]⟩
    · obtain ⟨e, he⟩ := Profile.exists_refusal (p := s.profile) hblock
      exact ⟨e, s.profile, by rw [applyBlocks, Effect.bind_error (applyPersonality_of_refusal he)]⟩

/-- Blocks change the profile alone. -/
theorem exists_profile_of_applyBlocks (h : applyBlocks blocks s = (.ok (), t)) : ∃ q, t = { s with profile := q } := by
  by_cases hblocks : ∀ block ∈ blocks, TraitEntry.Admissible block
  · rw [applyBlocks_of_admissible hblocks] at h
    cases h
    exact ⟨_, rfl⟩
  · obtain ⟨e, q, hfault⟩ := applyBlocks_of_refused (s := s) (by simpa using hblocks)
    rw [hfault] at h
    cases h

end Evaluation

end Persona
