import Persona.Proofs.Effect
import Persona.Proofs.Value.Bodies
import Persona.Session

/-! Sessions with other function bodies.

Variables are looked up, bound and changed, and calls begin and end, without a look at
what functions are made of. An action is *natural* if on a session with other bodies it
does what it does on the session itself. -/
namespace Persona

variable {f : Function → FunctionBody}

namespace Session

def mapScope (f : Function → FunctionBody) (s : Scope) : Scope := Keyed.mapValues (Value.mapBodies f) s

/-- The session with other bodies in all its functions. -/
def mapBodies (f : Function → FunctionBody) (s : Session) : Session :=
  { s with globals := mapScope f s.globals, frames := s.frames.map (mapScope f) }

/-! ### Variables -/

@[simp] theorem globals_mapBodies (s : Session) : (s.mapBodies f).globals = mapScope f s.globals := rfl

@[simp] theorem frames_mapBodies (s : Session) :
    (s.mapBodies f).frames = s.frames.map (mapScope f) := rfl

@[simp] theorem scope_mapBodies (s : Session) : (s.mapBodies f).scope = mapScope f s.scope := by
  unfold scope
  rw [frames_mapBodies]
  cases s.frames with
  | nil => rfl
  | cons top rest => rfl

theorem get?_mapScope (name : String) (s : Scope) :
    Keyed.get? name (mapScope f s) = (Keyed.get? name s).map (Value.mapBodies f) :=
  Keyed.get?_mapValues ..

theorem lookup?_mapBodies (s : Session) (name : String) :
    (s.mapBodies f).lookup? name = (s.lookup? name).map (Value.mapBodies f) := by
  unfold lookup?
  rw [scope_mapBodies, globals_mapBodies, get?_mapScope, get?_mapScope]
  cases Keyed.get? name s.scope with
  | some v => rfl
  | none =>
    cases Keyed.get? name s.globals with
    | some v => rfl
    | none =>
      cases Builtin.ofName? name with
      | some b => rfl
      | none => rfl

theorem define_mapBodies (s : Session) (name : String) (v : Value) :
    (s.mapBodies f).define name (v.mapBodies f) = (s.define name v).mapBodies f := by
  obtain ⟨globals, frames, profile, output, clock, calls, made⟩ := s
  cases frames with
  | nil =>
    show Session.mk (Keyed.insert name (v.mapBodies f) (Keyed.mapValues _ globals)) .. = _
    rw [Keyed.insert_mapValues]
    rfl
  | cons top rest =>
    show Session.mk _ (Keyed.insert name (v.mapBodies f) (Keyed.mapValues _ top) :: _) .. = _
    rw [Keyed.insert_mapValues]
    rfl

theorem assign_mapBodies (s : Session) (name : String) (v : Value) :
    (s.mapBodies f).assign name (v.mapBodies f) = (s.assign name v).mapBodies f := by
  unfold assign
  rw [scope_mapBodies, globals_mapBodies, get?_mapScope, get?_mapScope, Option.isNone_map,
    Option.isSome_map, define_mapBodies]
  by_cases h : ((Keyed.get? name s.scope).isNone && (Keyed.get? name s.globals).isSome) = true
  · rw [if_pos h, if_pos h]
    show Session.mk (Keyed.insert name (v.mapBodies f) (Keyed.mapValues _ s.globals)) .. = _
    rw [Keyed.insert_mapValues]
    rfl
  · rw [if_neg h, if_neg h]

theorem defineAll_mapBodies (s : Session) (bindings : List (String × Value)) :
    (s.mapBodies f).defineAll (Keyed.mapValues (Value.mapBodies f) bindings) =
      (s.defineAll bindings).mapBodies f := by
  induction bindings generalizing s with
  | nil => rfl
  | cons binding rest ih =>
    obtain ⟨name, v⟩ := binding
    show ((s.mapBodies f).define name (v.mapBodies f)).defineAll (Keyed.mapValues _ rest) = _
    rw [define_mapBodies, ih]
    rfl

theorem pop_mapBodies (s : Session) : (s.mapBodies f).pop = s.pop.mapBodies f := by
  unfold pop mapBodies
  rw [List.map_tail]

@[simp] theorem depth_mapBodies (s : Session) : (s.mapBodies f).depth = s.depth := List.length_map ..

end Session

/-! ### Functions -/

namespace Session

def scopeFunctions (s : Scope) : List Function := s.flatMap fun e => e.2.functions

/-- All functions that variables hold, however deep. -/
def functions (s : Session) : List Function := (s.globals :: s.frames).flatMap scopeFunctions

/-- All functions in the session are of a sort. -/
def HoldsOnly (sort : Function → Prop) (s : Session) : Prop := ∀ g ∈ s.functions, sort g

/-- All functions in the session have bodies of a sort. -/
def Holds (sort : FunctionBody → Prop) (s : Session) : Prop := ∀ g ∈ s.functions, sort g.body

theorem mapScope_eq_self_iff {s : Scope} :
    mapScope f s = s ↔ ∀ g ∈ scopeFunctions s, f g = g.body := by
  rw [mapScope, ← Value.mapEntries_eq, Value.mapEntries_eq_self_iff, Value.functionsOfEntries_eq]
  exact Iff.rfl

theorem map_mapScope_eq_self_iff {scopes : List Scope} :
    scopes.map (mapScope f) = scopes ↔ ∀ g ∈ scopes.flatMap scopeFunctions, f g = g.body := by
  induction scopes with
  | nil => exact ⟨fun _ g hg => absurd hg (List.not_mem_nil), fun _ => rfl⟩
  | cons s scopes ih =>
    rw [List.map_cons, List.cons.injEq, List.flatMap_cons, List.forall_mem_append,
      mapScope_eq_self_iff, ih]

theorem mapBodies_eq_self_iff {s : Session} :
    s.mapBodies f = s ↔ ∀ g ∈ s.functions, f g = g.body := by
  rw [functions, ← map_mapScope_eq_self_iff, List.map_cons, List.cons.injEq]
  constructor
  · intro h
    exact ⟨congrArg globals h, congrArg frames h⟩
  · rintro ⟨hglobals, hframes⟩
    unfold mapBodies
    rw [hglobals, hframes]

theorem holds_iff {sort : Function → Prop} {s : Session} :
    s.HoldsOnly sort ↔ s.mapBodies (.only sort) = s := by
  rw [mapBodies_eq_self_iff]
  exact forall₂_congr fun g _ => FunctionBody.only_eq_self_iff.symm

section
variable {sort : Function → Prop} {s : Session}

theorem HoldsOnly.lookup (hs : s.HoldsOnly sort) {name : String} {v : Value} (hv : s.lookup? name = some v) :
    v.HoldsOnly sort := by
  have hfixed := lookup?_mapBodies (f := .only sort) s name
  rw [holds_iff.1 hs, hv] at hfixed
  exact Value.holds_iff.2 (Option.some.inj hfixed).symm

theorem HoldsOnly.define (hs : s.HoldsOnly sort) {v : Value} (hv : v.HoldsOnly sort) (name : String) :
    (s.define name v).HoldsOnly sort := by
  refine holds_iff.2 ?_
  rw [← define_mapBodies, holds_iff.1 hs, Value.holds_iff.1 hv]

theorem HoldsOnly.assign (hs : s.HoldsOnly sort) {v : Value} (hv : v.HoldsOnly sort) (name : String) :
    (s.assign name v).HoldsOnly sort := by
  refine holds_iff.2 ?_
  rw [← assign_mapBodies, holds_iff.1 hs, Value.holds_iff.1 hv]

theorem HoldsOnly.defineAll (hs : s.HoldsOnly sort) {vs : List Value} (hvs : ∀ v ∈ vs, v.HoldsOnly sort)
    (names : List String) : (s.defineAll (names.zip vs)).HoldsOnly sort := by
  refine holds_iff.2 ?_
  rw [← defineAll_mapBodies, Keyed.mapValues_zip, holds_iff.1 hs, Value.map_eq_of_holds hvs]

theorem HoldsOnly.pop (hs : s.HoldsOnly sort) : s.pop.HoldsOnly sort := by
  refine holds_iff.2 ?_
  rw [← pop_mapBodies, holds_iff.1 hs]

end

section
variable {sort : FunctionBody → Prop} {s : Session}

theorem Holds.define (hs : s.Holds sort) {v : Value} (hv : v.Holds sort) (name : String) :
    (s.define name v).Holds sort := HoldsOnly.define hs hv name

theorem Holds.assign (hs : s.Holds sort) {v : Value} (hv : v.Holds sort) (name : String) :
    (s.assign name v).Holds sort := HoldsOnly.assign hs hv name

theorem Holds.defineAll (hs : s.Holds sort) {vs : List Value} (hvs : ∀ v ∈ vs, v.Holds sort)
    (names : List String) : (s.defineAll (names.zip vs)).Holds sort := HoldsOnly.defineAll hs hvs names

theorem Holds.pop (hs : s.Holds sort) : s.pop.Holds sort := HoldsOnly.pop hs

end

end Session

/-! ### Actions -/

namespace Action

variable {ε : Type}

/-- With other bodies the second action does what the first one does. -/
def Natural (f : Function → FunctionBody) (g : α → β) (a : ExceptT ε (StateM Session) α)
    (b : ExceptT ε (StateM Session) β) : Prop :=
  ∀ s : Session, b (s.mapBodies f) = ((a s).1.map g, (a s).2.mapBodies f)

section
variable {g : α → β}

theorem natural_pure (x : α) : Natural f g (pure x : ExceptT ε (StateM Session) α) (pure (g x)) := fun _ => rfl

theorem natural_throw (e : ε) : Natural f g (throw e : ExceptT ε (StateM Session) α) (throw e) := fun _ => rfl

theorem Natural.bind {g' : γ → δ} {a : ExceptT ε (StateM Session) α} {b : ExceptT ε (StateM Session) β}
    {k : α → ExceptT ε (StateM Session) γ} {l : β → ExceptT ε (StateM Session) δ}
    (h : Natural f g a b) (hk : ∀ x, Natural f g' (k x) (l (g x))) :
    Natural f g' (a >>= k) (b >>= l) := by
  intro s
  have hs := h s
  rw [Effect.bind_apply, Effect.bind_apply, hs]
  cases a s with
  | mk r t =>
    cases r with
    | error e => rfl
    | ok x => exact hk x t

theorem natural_orFault {x : Except Fault α} {y : Except Fault β} (h : y = x.map g) :
    Natural f g (orFault x) (orFault y) := by
  subst h
  cases x with
  | error e => exact natural_throw e
  | ok x => exact natural_pure x

theorem natural_get {k : Session → ExceptT ε (StateM Session) α} {l : Session → ExceptT ε (StateM Session) β}
    (h : ∀ s : Session, Natural f g (k s) (l (s.mapBodies f))) :
    Natural f g (get >>= k) (get >>= l) := fun s => h s s

end

theorem natural_modify {change change' : Session → Session}
    (h : ∀ s, change' (s.mapBodies f) = (change s).mapBodies f) :
    Natural f id (modify change : ExceptT ε (StateM Session) PUnit) (modify change') := by
  intro s
  rw [Effect.modify_apply, Effect.modify_apply, h]
  rfl

theorem natural_lookup (name : String) :
    Natural f (Value.mapBodies f) (lookup name) (lookup name) := by
  intro s
  unfold lookup
  rw [Effect.get_bind_apply, Effect.get_bind_apply, Session.lookup?_mapBodies]
  cases s.lookup? name with
  | none => rfl
  | some v => rfl

theorem natural_checkBudget (h : Host) : Natural f id (checkBudget h) (checkBudget h) := by
  refine natural_get fun s => ?_
  have hclock : (s.mapBodies f).clock = s.clock := rfl
  rw [hclock]
  cases s.clock.look? with
  | none => exact natural_throw _
  | some clock => exact natural_modify fun s => rfl

theorem natural_remainingMs (h : Host) : Natural f id (remainingMs h) (remainingMs h) :=
  natural_get fun _ => natural_pure _

theorem natural_service (h : Host) (call : ServiceCall) (answer : List ServiceCall → Except String α) :
    Natural f id (service h call answer) (service h call answer) := by
  refine (natural_checkBudget h).bind fun u => natural_get fun s => ?_
  have hcall : Natural f id (modify fun s => { s with calls := call :: s.calls } : Action PUnit)
      (modify fun s => { s with calls := call :: s.calls }) := natural_modify fun s => rfl
  refine hcall.bind fun u => ?_
  have hcalls : (s.mapBodies f).calls = s.calls := rfl
  rw [hcalls]
  cases answer s.calls with
  | error message => exact natural_throw _
  | ok x => exact (natural_checkBudget h).bind fun u => natural_pure x

/-! ### What actions keep -/

variable {sort : Function → Prop}

/-- No natural action makes a function. -/
theorem Natural.keeps {g : α → α} {a : Action α} (h : Natural (.only sort) g a a) :
    Effect.Keeps (Session.HoldsOnly sort) (fun _ => True) (fun x => g x = x) a := by
  intro s hs
  have hnatural := h s
  rw [Session.holds_iff.1 hs] at hnatural
  refine ⟨?_, fun x hx => ?_, fun _ _ => trivial⟩
  · exact Session.holds_iff.2 (congrArg Prod.snd hnatural).symm
  · have hresult := congrArg Prod.fst hnatural
    rw [hx] at hresult
    exact (Except.ok.inj hresult).symm

end Action

end Persona
