import Persona.Proofs.Builtin.Effect
import Persona.Proofs.Session.Bodies
import Persona.Proofs.Text.Keyed

/-! What all variables hold.

Variables get the values that they are bound to and no others. So a property of values that
all variables have is kept where a variable is bound or changed to a value with the property,
and where scopes begin and end. -/
namespace Persona

namespace Session

/-- The variables of all scopes hold such values. -/
def Every (V : Value → Prop) (s : Session) : Prop := ∀ scope ∈ s.globals :: s.frames, ∀ e ∈ scope, V e.2

section
variable {V : Value → Prop} {s : Session} {v : Value}

theorem every_iff : s.Every V ↔ (∀ e ∈ s.globals, V e.2) ∧ ∀ scope ∈ s.frames, ∀ e ∈ scope, V e.2 :=
  List.forall_mem_cons

theorem every_start (V : Value → Prop) (h : Host) (profile : Profile) (clock : Clock) :
    (Session.start h profile clock).Every V := by
  refine every_iff.2 ⟨fun e he => ?_, fun scope hscope => ?_⟩
  · exact absurd he List.not_mem_nil
  · exact absurd hscope List.not_mem_nil

/-- Printing, calls of services and looks at the clock have nothing to do with variables. -/
theorem inert_every (V : Value → Prop) : Inert (Every V) :=
  ⟨fun _ _ hs => hs, fun _ _ hs => hs, fun _ _ hs _ => hs⟩

theorem Every.scope (hs : s.Every V) : ∀ e ∈ s.scope, V e.2 := by
  obtain ⟨hglobals, hframes⟩ := every_iff.1 hs
  unfold Session.scope
  cases hf : s.frames with
  | nil => exact hglobals
  | cons top rest => exact hframes top (hf ▸ List.mem_cons_self ..)

theorem Every.lookup (hs : s.Every V) (hbuiltin : ∀ b, V (.builtin b)) {name : String}
    (hv : s.lookup? name = some v) : V v := by
  unfold lookup? at hv
  rcases Option.or_eq_some_iff.1 hv with hv | ⟨-, hv⟩
  · exact hs.scope _ (Keyed.mem_of_get? hv)
  rcases Option.or_eq_some_iff.1 hv with hv | ⟨-, hv⟩
  · exact (every_iff.1 hs).1 _ (Keyed.mem_of_get? hv)
  · obtain ⟨b, -, rfl⟩ := Option.map_eq_some_iff.1 hv
    exact hbuiltin b

theorem forall_mem_insert {m : Scope} (hm : ∀ e ∈ m, V e.2) (hv : V v) (name : String) :
    ∀ e ∈ Keyed.insert name v m, V e.2 := by
  intro e he
  rcases Keyed.mem_of_mem_insert he with rfl | he
  · exact hv
  · exact hm e he

theorem Every.define (hs : s.Every V) (hv : V v) (name : String) : (s.define name v).Every V := by
  obtain ⟨hglobals, hframes⟩ := every_iff.1 hs
  unfold Session.define
  split
  · exact every_iff.2 ⟨forall_mem_insert hglobals hv name, hframes⟩
  · next top rest hf =>
    rw [hf] at hframes
    obtain ⟨htop, hrest⟩ := List.forall_mem_cons.1 hframes
    exact every_iff.2 ⟨hglobals, List.forall_mem_cons.2 ⟨forall_mem_insert htop hv name, hrest⟩⟩

theorem Every.assign (hs : s.Every V) (hv : V v) (name : String) : (s.assign name v).Every V := by
  unfold Session.assign
  split
  · exact every_iff.2 ⟨forall_mem_insert (every_iff.1 hs).1 hv name, (every_iff.1 hs).2⟩
  · exact hs.define hv name

theorem Every.defineAll (hs : s.Every V) {names : List String} {vs : List Value} (hvs : ∀ v ∈ vs, V v) :
    (s.defineAll (names.zip vs)).Every V := by
  induction names generalizing s vs with
  | nil => exact hs
  | cons name names ih =>
    cases vs with
    | nil => exact hs
    | cons v vs =>
      obtain ⟨hv, hvs⟩ := List.forall_mem_cons.1 hvs
      exact ih (hs.define hv name) hvs

theorem Every.push (hs : s.Every V) : Every V { s with frames := [] :: s.frames } := by
  obtain ⟨hglobals, hframes⟩ := every_iff.1 hs
  exact every_iff.2 ⟨hglobals, List.forall_mem_cons.2 ⟨fun e he => absurd he List.not_mem_nil, hframes⟩⟩

theorem Every.pop (hs : s.Every V) : s.pop.Every V :=
  every_iff.2 ⟨(every_iff.1 hs).1, fun scope hscope => (every_iff.1 hs).2 scope (List.mem_of_mem_tail hscope)⟩

theorem Every.imp {W : Value → Prop} (hs : s.Every V) (hVW : ∀ v, V v → W v) : s.Every W :=
  fun scope hscope e he => hVW e.2 (hs scope hscope e he)

end

/-- The functions in a session are those in the values that its variables hold. -/
theorem every_holdsOnly {sort : Function → Prop} {s : Session} : s.Every (Value.HoldsOnly sort) ↔ s.HoldsOnly sort := by
  unfold Every HoldsOnly Value.HoldsOnly functions
  constructor
  · intro hs g hg
    obtain ⟨scope, hscope, hg⟩ := List.mem_flatMap.1 hg
    obtain ⟨e, he, hg⟩ := List.mem_flatMap.1 hg
    exact hs scope hscope e he g hg
  · intro hs scope hscope e he g hg
    exact hs g (List.mem_flatMap.2 ⟨scope, hscope, List.mem_flatMap.2 ⟨e, he, hg⟩⟩)

end Session

end Persona
