import Persona.Builtin.Call
import Persona.Proofs.Builtin.Effect
import Persona.Proofs.Session.Bodies
import Persona.Proofs.Value.Operation

/-! Built-ins do not look into functions.

Options are read and services called without regard to functions; what a built-in gives
back on values with other bodies is what it gives back on the values, with the other
bodies. -/
namespace Persona.Builtin

open Persona.Action (Natural natural_pure natural_throw natural_orFault natural_get natural_modify)

variable {f : Function → FunctionBody}

/-! ### Options -/

theorem readOptions_mapBodies (b : Builtin) (options : Option Value) :
    readOptions b (options.map (Value.mapBodies f)) =
      (readOptions b options).map (Keyed.mapValues (Value.mapBodies f)) := by
  cases options with
  | none => rfl
  | some v =>
    cases v with
    | map entries =>
      rw [Option.map_some, Value.mapBodies_map]
      rfl
    | array items =>
      obtain ⟨items⟩ := items
      rfl
    | _ => rfl

theorem readOption_mapBodies {expected : OptionKind} {read : Value → Option α}
    (hread : ∀ v, read (v.mapBodies f) = read v) (options : Options) (key : String) :
    readOption expected read (Keyed.mapValues (Value.mapBodies f) options) key =
      readOption expected read options key := by
  unfold readOption
  rw [Keyed.get?_mapValues]
  cases Keyed.get? key options with
  | none => rfl
  | some v =>
    have hr := hread v
    cases v with
    | array _ | map _ | function _ =>
      simp only [Option.map_some, Value.mapBodies_array, Value.mapBodies_map,
        Value.mapBodies_function] at hr ⊢
      simp only [hr]
      rfl
    | _ => rfl

theorem numberOption_mapBodies (options : Options) (key : String) :
    numberOption (Keyed.mapValues (Value.mapBodies f) options) key = numberOption options key := by
  refine readOption_mapBodies (fun v => ?_) options key
  cases v with
  | array items =>
    obtain ⟨items⟩ := items
    rfl
  | _ => rfl

theorem stringOption_mapBodies (options : Options) (key : String) :
    stringOption (Keyed.mapValues (Value.mapBodies f) options) key = stringOption options key :=
  readOption_mapBodies Value.string?_mapBodies options key

theorem boolOption_mapBodies (options : Options) (key : String) :
    boolOption (Keyed.mapValues (Value.mapBodies f) options) key = boolOption options key := by
  refine readOption_mapBodies (fun v => ?_) options key
  cases v with
  | array items =>
    obtain ⟨items⟩ := items
    rfl
  | _ => rfl

theorem searchFilters_mapBodies (profile : Profile) (options : Options) :
    searchFilters profile (Keyed.mapValues (Value.mapBodies f) options) =
      searchFilters profile options := by
  unfold searchFilters
  rw [numberOption_mapBodies, numberOption_mapBodies, boolOption_mapBodies]

theorem speakOptions_mapBodies (options : Options) :
    speakOptions (Keyed.mapValues (Value.mapBodies f) options) = speakOptions options := by
  unfold speakOptions
  rw [stringOption_mapBodies, numberOption_mapBodies]

theorem listenOptions_mapBodies (remainingMs : Nat) (options : Options) :
    listenOptions remainingMs (Keyed.mapValues (Value.mapBodies f) options) =
      listenOptions remainingMs options := by
  unfold listenOptions
  rw [stringOption_mapBodies, numberOption_mapBodies]

/-! ### Arguments -/

@[simp] theorem integerArgument_mapBodies (b : Builtin) (v : Value) :
    integerArgument b (v.mapBodies f) = integerArgument b v := by
  unfold integerArgument
  rw [Value.integer?_mapBodies, Value.kind_mapBodies]

@[simp] theorem stringArgument_mapBodies (b : Builtin) (v : Value) :
    stringArgument b (v.mapBodies f) = stringArgument b v := by
  cases v with
  | array items =>
    obtain ⟨items⟩ := items
    rfl
  | _ => rfl

@[simp] theorem traitArgument_mapBodies (b : Builtin) (v : Value) :
    traitArgument b (v.mapBodies f) = traitArgument b v := by
  unfold traitArgument
  rw [stringArgument_mapBodies]

/-! ### Functions of values alone -/

theorem length_mapBodies (v : Value) :
    length (v.mapBodies f) = (length v).map (Value.mapBodies f) := by
  cases v with
  | array items =>
    rw [Value.mapBodies_array]
    show Except.ok _ = Except.ok _
    rw [Array.size_map]
    rfl
  | map entries =>
    rw [Value.mapBodies_map]
    show Except.ok _ = Except.ok _
    rw [Keyed.mapValues, List.length_map]
    rfl
  | _ => rfl

theorem integers_mapBodies (limits : Limits) (start stop : Int) :
    (integers limits start stop).map (Value.mapBodies f) = integers limits start stop := by
  unfold integers
  rw [← Value.checked_mapBodies, Value.mapBodies_array, Array.map_map]
  rfl

theorem append_mapBodies (limits : Limits) (v w : Value) :
    append limits (v.mapBodies f) (w.mapBodies f) = (append limits v w).map (Value.mapBodies f) := by
  cases v with
  | array items =>
    rw [Value.mapBodies_array]
    show (do
      Value.checkArrayLength ((items.map (Value.mapBodies f)).size + 1) limits
      return Value.array ((items.map (Value.mapBodies f)).push (w.mapBodies f))) = _
    rw [Array.size_map, ← Array.map_push, ← Value.mapBodies_array]
    exact Value.checked_mapBodies _ _
  | _ => rfl

theorem keysOf_mapBodies (v : Value) :
    keysOf (v.mapBodies f) = (keysOf v).map (Value.mapBodies f) := by
  cases v with
  | map entries =>
    rw [Value.mapBodies_map]
    show Except.ok _ = Except.ok _
    rw [Value.mapBodies_array, Array.map_map, Keyed.mapValues, ← List.map_toArray, Array.map_map]
    rfl
  | array items =>
    obtain ⟨items⟩ := items
    rfl
  | _ => rfl

/-! ### Services -/

@[simp] theorem value_mapBodies (r : KnowledgeRow) : r.value.mapBodies f = r.value := rfl

/-- What reads only its argument. -/
theorem natural_plain {x y : Except Fault α} (h : y = x) :
    Natural f id (Action.orFault x) (Action.orFault y) := by
  refine natural_orFault ?_
  rw [h]
  cases x with
  | error e => rfl
  | ok x => rfl

/-- A result without functions. -/
theorem natural_constant {v : Value} (h : v.mapBodies f = v) :
    Natural f (Value.mapBodies f) (pure v : Action Value) (pure v) := by
  have hpure : Natural f (Value.mapBodies f) (pure v : Action Value) _ := natural_pure v
  rwa [h] at hpure

theorem rows_mapBodies (rows : List KnowledgeRow) :
    (Value.array (rows.map KnowledgeRow.value).toArray).mapBodies f =
      .array (rows.map KnowledgeRow.value).toArray := by
  rw [Value.mapBodies_array, List.map_toArray, List.map_map]
  rfl

theorem natural_searchFor (h : Host) (topic : Value) (options : Option Value) :
    Natural f (Value.mapBodies f) (searchFor h topic options)
      (searchFor h (topic.mapBodies f) (options.map (Value.mapBodies f))) := by
  refine (natural_plain (stringArgument_mapBodies _ _)).bind fun topic => ?_
  refine natural_get fun s => ?_
  have hoptions : (readOptions knowledge (options.map (Value.mapBodies f)) >>= searchFilters s.profile) =
      readOptions knowledge options >>= searchFilters s.profile := by
    rw [readOptions_mapBodies]
    cases readOptions knowledge options with
    | error e => rfl
    | ok entries => exact searchFilters_mapBodies s.profile entries
  refine (natural_plain hoptions).bind fun filters => ?_
  refine (Action.natural_service h _ _).bind fun rows => ?_
  exact natural_constant (rows_mapBodies _)

theorem natural_speak (h : Host) (v : Value) (options : Option Value) :
    Natural f (Value.mapBodies f) (speak h v options)
      (speak h (v.mapBodies f) (options.map (Value.mapBodies f))) := by
  have hoptions : (readOptions say (options.map (Value.mapBodies f)) >>= speakOptions) =
      readOptions say options >>= speakOptions := by
    rw [readOptions_mapBodies]
    cases readOptions say options with
    | error e => rfl
    | ok entries => exact speakOptions_mapBodies entries
  unfold speak
  rw [Value.text_mapBodies]
  refine (natural_plain hoptions).bind fun options => ?_
  exact (Action.natural_service h _ _).bind fun u => natural_constant rfl

theorem natural_hear (h : Host) (options : Option Value) :
    Natural f (Value.mapBodies f) (hear h options)
      (hear h (options.map (Value.mapBodies f))) := by
  refine (natural_orFault (readOptions_mapBodies _ _)).bind fun options => ?_
  refine (Action.natural_remainingMs h).bind fun remaining => ?_
  refine (natural_plain (listenOptions_mapBodies _ _)).bind fun options => ?_
  exact (Action.natural_service h _ _).bind fun heard => natural_constant rfl

/-! ### Calls -/

theorem natural_arity (b : Builtin) (vs : List Value) :
    Natural f (Value.mapBodies f) (throw (.arityMismatch b.name b.arity vs.length) : Action Value)
      (throw (.arityMismatch b.name b.arity (vs.map (Value.mapBodies f)).length)) := by
  rw [List.length_map]
  exact natural_throw _

theorem natural_print (vs : List Value) (h : Host) :
    Natural f (Value.mapBodies f) (call h print vs) (call h print (vs.map (Value.mapBodies f))) := by
  have htexts : (vs.map (Value.mapBodies f)).map Value.text = vs.map Value.text := by
    rw [List.map_map]
    exact List.map_congr_left fun v _ => Value.text_mapBodies v
  have hcall : ∀ ws : List Value, call h print ws = (do
      modify fun s => (s.print (" ".intercalate (ws.map Value.text))).print "\n"
      return .null) := fun ws => rfl
  rw [hcall, hcall, htexts]
  have hprint : Natural f id
      (modify fun s => (s.print (" ".intercalate (vs.map Value.text))).print "\n" : Action PUnit)
      (modify fun s => (s.print (" ".intercalate (vs.map Value.text))).print "\n") :=
    natural_modify fun s => rfl
  exact hprint.bind fun u => natural_constant rfl

theorem natural_call (h : Host) (b : Builtin) (vs : List Value) :
    Natural f (Value.mapBodies f) (call h b vs) (call h b (vs.map (Value.mapBodies f))) := by
  cases haccepts : b.arity.accepts vs.length with
  | false =>
    rw [call_of_not_accepts h haccepts, call_of_not_accepts h (by rwa [List.length_map])]
    exact natural_arity b vs
  | true =>
    cases b with
    | print => exact natural_print vs h
    | len =>
      match vs, haccepts with
      | [v], _ => exact natural_orFault (length_mapBodies v)
    | range =>
      match vs, haccepts with
      | [v], _ =>
        refine (natural_plain (integerArgument_mapBodies _ v)).bind fun stop => ?_
        exact natural_orFault (integers_mapBodies _ _ _).symm
      | [v, w], _ =>
        refine (natural_plain (integerArgument_mapBodies _ v)).bind fun start => ?_
        refine (natural_plain (integerArgument_mapBodies _ w)).bind fun stop => ?_
        exact natural_orFault (integers_mapBodies _ _ _).symm
    | push =>
      match vs, haccepts with
      | [v, w], _ => exact natural_orFault (append_mapBodies _ v w)
    | str =>
      match vs, haccepts with
      | [v], _ =>
        show Natural f _ (return Value.string v.text) (return Value.string (v.mapBodies f).text)
        rw [Value.text_mapBodies]
        exact natural_constant rfl
    | type =>
      match vs, haccepts with
      | [v], _ =>
        show Natural f _ (return Value.string v.kind.name) (return Value.string (v.mapBodies f).kind.name)
        rw [Value.kind_mapBodies]
        exact natural_constant rfl
    | keys =>
      match vs, haccepts with
      | [v], _ => exact natural_orFault (keysOf_mapBodies v)
    | trait | describe =>
      match vs, haccepts with
      | [v], _ =>
        refine (natural_plain (traitArgument_mapBodies _ v)).bind fun t => ?_
        exact natural_get fun s => natural_constant rfl
    | knowledge =>
      match vs, haccepts with
      | [v], _ => exact natural_searchFor h v none
      | [v, w], _ => exact natural_searchFor h v (some w)
    | say =>
      match vs, haccepts with
      | [v], _ => exact natural_speak h v none
      | [v, w], _ => exact natural_speak h v (some w)
    | listen =>
      match vs, haccepts with
      | [], _ => exact natural_hear h none
      | [v], _ => exact natural_hear h (some v)

/-- Built-ins give back functions only of the sorts that there were. -/
theorem keeps_call {h : Host} {sort : Function → Prop} (b : Builtin) {vs : List Value}
    (hvs : ∀ v ∈ vs, v.HoldsOnly sort) :
    Effect.Keeps (Session.HoldsOnly sort) (fun _ => True) (Value.HoldsOnly sort) (call h b vs) := by
  have hnatural := natural_call (f := .only sort) h b vs
  rw [Value.map_eq_of_holds hvs] at hnatural
  exact hnatural.keeps.imp (fun _ _ => trivial) fun v hv => Value.holds_iff.2 hv

end Persona.Builtin
