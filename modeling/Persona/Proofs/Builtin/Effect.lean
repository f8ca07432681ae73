import Persona.Builtin.Call
import Persona.Proofs.Effect
import Persona.Proofs.Fault

/-! What actions do to a session.

A built-in prints, asks services and looks at the clock. A property of sessions that is
*inert* does not change by that, and so no built-in changes it. -/
namespace Persona

/-- A property that printing, service calls and looks at the clock keep. -/
structure Session.Inert (I : Session → Prop) : Prop where
  print : ∀ s text, I s → I (s.print text)
  call : ∀ s call, I s → I { s with calls := call :: s.calls }
  look : ∀ s clock, I s → s.clock.look? = some clock → I { s with clock }

/-- A property that nothing but the beginning and the end of a call can change. -/
structure Session.Tame (I : Session → Prop) : Prop extends Session.Inert I where
  define : ∀ s name v, I s → I (s.define name v)
  assign : ∀ s name v, I s → I (s.assign name v)
  profile : ∀ s profile, I s → I { s with profile }
  made : ∀ s made, I s → I { s with made }

namespace Session

theorem clock_define (s : Session) (name : String) (v : Value) : (s.define name v).clock = s.clock := by
  unfold define
  split
  · rfl
  · rfl

theorem clock_assign (s : Session) (name : String) (v : Value) : (s.assign name v).clock = s.clock := by
  unfold assign
  split
  · rfl
  · exact s.clock_define name v

theorem depth_define (s : Session) (name : String) (v : Value) : (s.define name v).depth = s.depth := by
  unfold define
  split
  · rfl
  · next hframes =>
    unfold depth
    rw [hframes]
    rfl

theorem depth_assign (s : Session) (name : String) (v : Value) : (s.assign name v).depth = s.depth := by
  unfold assign
  split
  · rfl
  · exact s.depth_define name v

end Session

theorem Session.Tame.defineAll {I : Session → Prop} (hI : Session.Tame I) {s : Session} (hs : I s)
    (bindings : List (String × Value)) : I (s.defineAll bindings) := by
  induction bindings generalizing s with
  | nil => exact hs
  | cons binding rest ih => exact ih (hI.define s binding.1 binding.2 hs)

namespace Builtin

theorem fails_readOptions (b : Builtin) (options : Option Value) :
    Fails Fault.Plain (readOptions b options) := by
  unfold readOptions
  split
  · exact fails_ok _
  · exact fails_ok _
  · exact fails_ok _
  · exact fails_error (plain_type _)

theorem fails_readOption (expected : OptionKind) (read : Value → Option α) (options : Options)
    (key : String) : Fails Fault.Plain (readOption expected read options key) := by
  unfold readOption
  split
  · exact fails_ok _
  · exact fails_ok _
  · split
    · exact fails_ok _
    · exact fails_error (plain_type _)

theorem fails_searchFilters (profile : Profile) (options : Options) :
    Fails Fault.Plain (searchFilters profile options) := by
  have hrest : ∀ limit : Nat, Fails Fault.Plain (do
      let verifiedOnly := (← boolOption options "verified_only").getD false
      let minConfidence := (← numberOption options "min_confidence").getD 0.0
      return SearchFilters.mk limit minConfidence verifiedOnly) := fun limit =>
    (fails_readOption _ _ _ _).bind fun _ => (fails_readOption _ _ _ _).bind fun _ => fails_ok _
  refine (fails_readOption _ _ _ _).bind fun limit => ?_
  cases limit with
  | none => exact hrest _
  | some x =>
    simp only
    split
    · exact hrest _
    · exact fails_error (plain_type _)

theorem fails_speakOptions (options : Options) : Fails Fault.Plain (speakOptions options) :=
  (fails_readOption _ _ _ _).bind fun _ => (fails_readOption _ _ _ _).bind fun _ => fails_ok _

theorem fails_listenOptions (remainingMs : Nat) (options : Options) :
    Fails Fault.Plain (listenOptions remainingMs options) := by
  have hrest : ∀ timeoutMs : Nat, Fails Fault.Plain (do
      return ListenOptions.mk (← stringOption options "prompt") timeoutMs) := fun timeoutMs =>
    (fails_readOption _ _ _ _).bind fun _ => fails_ok _
  refine (fails_readOption _ _ _ _).bind fun timeoutMs => ?_
  cases timeoutMs with
  | none => exact hrest _
  | some x =>
    simp only
    split
    · exact hrest _
    · exact fails_error (plain_type _)

theorem fails_integerArgument (b : Builtin) (v : Value) : Fails Fault.Plain (integerArgument b v) := by
  unfold integerArgument
  split
  · exact fails_ok _
  · exact fails_error (plain_type _)

theorem fails_stringArgument (b : Builtin) (v : Value) : Fails Fault.Plain (stringArgument b v) := by
  unfold stringArgument
  split
  · exact fails_ok _
  · exact fails_error (plain_type _)

theorem fails_traitArgument (b : Builtin) (v : Value) : Fails Fault.Plain (traitArgument b v) := by
  refine (fails_stringArgument _ _).bind fun name => ?_
  split
  · exact fails_ok _
  · exact fails_error fun _ h => nomatch h

theorem fails_length (v : Value) : Fails Fault.Plain (length v) := by
  unfold length
  split
  · exact fails_ok _
  · exact fails_ok _
  · exact fails_ok _
  · exact fails_error (plain_type _)

theorem fails_integers (limits : Limits) (start stop : Int) :
    Fails Fault.Plain (integers limits start stop) :=
  (Value.fails_checkArrayLength _ _).bind fun _ => fails_ok _

theorem fails_append (limits : Limits) (v w : Value) : Fails Fault.Plain (append limits v w) := by
  unfold append
  split
  · exact (Value.fails_checkArrayLength _ _).bind fun _ => fails_ok _
  · exact fails_error (plain_type _)

theorem fails_keysOf (v : Value) : Fails Fault.Plain (keysOf v) := by
  unfold keysOf
  split
  · exact fails_ok _
  · exact fails_error (plain_type _)

end Builtin

/-! ### Actions -/

namespace Action

open Persona.Effect (Keeps)

variable {I : Session → Prop}

/-- The action keeps a property of the session and has no faults of the code. -/
abbrev IsPlain (I : Session → Prop) (a : Action α) : Prop := Keeps I Fault.Plain (fun _ => True) a

theorem plain_orFault {x : Except Fault α} (h : Fails Fault.Plain x) : IsPlain I (orFault x) := by
  cases x with
  | error e => exact Keeps.throw (h e rfl)
  | ok x => exact Keeps.pure trivial

theorem plain_checkBudget (hI : Session.Inert I) (h : Host) : IsPlain I (checkBudget h) := by
  intro s hs
  unfold checkBudget
  rw [Effect.get_bind_apply]
  cases hlook : s.clock.look? with
  | none =>
    refine ⟨hs, fun x hx => ?_, fun e he => ?_⟩
    · cases hx
    · cases he
      exact fun _ h => nomatch h
  | some clock =>
    refine ⟨hI.look s clock hs hlook, fun _ _ => trivial, fun e he => ?_⟩
    cases he

theorem checkBudget_eq (h : Host) (s : Session) :
    checkBudget h s = match s.clock.look? with
      | some clock => (.ok (), { s with clock })
      | none => (.error (.timeout h.limits.executionTimeoutMs), s) := by
  unfold checkBudget
  rw [Effect.get_bind_apply]
  cases s.clock.look? with
  | none => rfl
  | some clock => rfl

theorem push_eq (h : Host) (s : Session) :
    push h s = match s.clock.look? with
      | some clock => if h.limits.maxCallDepth ≤ s.depth then
          (.error (.stackOverflow h.limits.maxCallDepth), { s with clock })
        else (.ok (), { s with clock, frames := [] :: s.frames })
      | none => (.error (.timeout h.limits.executionTimeoutMs), s) := by
  unfold push
  rw [Effect.bind_apply, checkBudget_eq]
  cases s.clock.look? with
  | none => rfl
  | some clock =>
    simp only
    rw [Effect.get_bind_apply, show Session.depth { s with clock } = s.depth from rfl]
    by_cases hdepth : h.limits.maxCallDepth ≤ s.depth
    · simp only [hdepth, if_true]
      rfl
    · simp only [hdepth, if_false]
      rfl

/-- Without a budget a look at the clock does nothing. -/
theorem checkBudget_apply {s : Session} (hs : s.clock = none) (h : Host) :
    checkBudget h s = (.ok (), s) := by
  obtain ⟨globals, frames, profile, output, clock, calls, made⟩ := s
  subst hs
  rfl

theorem push_apply {s : Session} (hs : s.clock = none) (h : Host) :
    push h s = if h.limits.maxCallDepth ≤ s.depth then
      (.error (.stackOverflow h.limits.maxCallDepth), s)
    else (.ok (), { s with frames := [] :: s.frames }) := by
  obtain ⟨globals, frames, profile, output, clock, calls, made⟩ := s
  subst hs
  exact push_eq h _

/-- A spent budget is found so by every look. -/
theorem checkBudget_spent {s : Session} (hs : s.clock = some 0) (h : Host) :
    checkBudget h s = (.error (.timeout h.limits.executionTimeoutMs), s) := by
  rw [checkBudget_eq, hs]
  rfl

theorem push_spent {s : Session} (hs : s.clock = some 0) (h : Host) :
    push h s = (.error (.timeout h.limits.executionTimeoutMs), s) := by
  rw [push_eq, hs]
  rfl

theorem plain_lookup (name : String) : IsPlain I (lookup name) := by
  refine Keeps.get fun s _ => ?_
  split
  · exact Keeps.pure trivial
  · exact Keeps.throw fun _ h => nomatch h

theorem plain_push (hI : Session.Inert I) (hframe : ∀ s, I s → I { s with frames := [] :: s.frames })
    (h : Host) : IsPlain I (push h) := by
  refine (plain_checkBudget hI h).bind fun _ _ => Keeps.get fun s _ => ?_
  simp only
  split
  · exact Keeps.throw fun _ h => nomatch h
  · exact Keeps.modify hframe

theorem plain_applyPersonality (hprofile : ∀ s profile, I s → I { s with profile })
    (entries : List (Trait × Float)) : IsPlain I (applyPersonality entries) := by
  refine Keeps.get fun s _ => ?_
  split
  · next profile _ => exact Keeps.modify fun s hs => hprofile s profile hs
  · exact Keeps.throw fun _ h => nomatch h

theorem plain_service (hI : Session.Inert I) (h : Host) (call : ServiceCall) (answer : List ServiceCall → Except String α) :
    IsPlain I (service h call answer) := by
  refine (plain_checkBudget hI h).bind fun _ _ => Keeps.get fun s _ => ?_
  refine (Keeps.modify fun s hs => hI.call s call hs).bind fun _ _ => ?_
  split
  · exact Keeps.throw fun _ h => nomatch h
  · exact (plain_checkBudget hI h).bind fun _ _ => Keeps.pure trivial

end Action

namespace Builtin

open Persona.Action Persona.Effect

variable {I : Session → Prop}

theorem plain_searchFor (hI : Session.Inert I) (h : Host) (topic : Value) (options : Option Value) :
    IsPlain I (searchFor h topic options) := by
  refine (plain_orFault (fails_stringArgument _ _)).bind fun _ _ => Keeps.get fun s _ => ?_
  refine (plain_orFault ?_).bind fun _ _ => (plain_service hI _ _ _).bind fun _ _ => Keeps.pure trivial
  exact (fails_readOptions _ _).bind fun _ => fails_searchFilters _ _

theorem plain_speak (hI : Session.Inert I) (h : Host) (v : Value) (options : Option Value) :
    IsPlain I (speak h v options) := by
  refine (plain_orFault ?_).bind fun _ _ => (plain_service hI _ _ _).bind fun _ _ => Keeps.pure trivial
  exact (fails_readOptions _ _).bind fun _ => fails_speakOptions _

theorem plain_hear (hI : Session.Inert I) (h : Host) (options : Option Value) : IsPlain I (hear h options) := by
  have hremaining : IsPlain I (remainingMs h) := Keeps.get fun s _ => Keeps.pure trivial
  refine (plain_orFault (fails_readOptions _ _)).bind fun _ _ => ?_
  refine hremaining.bind fun _ _ => ?_
  refine (plain_orFault (fails_listenOptions _ _)).bind fun _ _ => ?_
  exact (plain_service hI _ _ _).bind fun _ _ => Keeps.pure trivial

/-- A call with a number of arguments that is not accepted does nothing. -/
theorem call_of_not_accepts (h : Host) {b : Builtin} {vs : List Value}
    (hb : b.arity.accepts vs.length = false) : call h b vs = throw (.arityMismatch b.name b.arity vs.length) := by
  unfold call
  split <;> first | rfl | cases hb

/-- Built-ins print, ask services and look at the clock, and do nothing else to a session;
none has a fault of the code. -/
theorem plain_call (hI : Session.Inert I) (h : Host) (b : Builtin) (vs : List Value) :
    IsPlain I (call h b vs) := by
  unfold call
  split
  · exact (Keeps.modify fun s hs => hI.print _ _ (hI.print s _ hs)).bind fun _ _ => Keeps.pure trivial
  · exact plain_orFault (fails_length _)
  · exact (plain_orFault (fails_integerArgument _ _)).bind fun _ _ =>
      plain_orFault (fails_integers _ _ _)
  · exact (plain_orFault (fails_integerArgument _ _)).bind fun _ _ =>
      (plain_orFault (fails_integerArgument _ _)).bind fun _ _ => plain_orFault (fails_integers _ _ _)
  · exact plain_orFault (fails_append _ _ _)
  · exact Keeps.pure trivial
  · exact Keeps.pure trivial
  · exact plain_orFault (fails_keysOf _)
  · exact (plain_orFault (fails_traitArgument _ _)).bind fun _ _ =>
      Keeps.get fun _ _ => Keeps.pure trivial
  · exact (plain_orFault (fails_traitArgument _ _)).bind fun _ _ =>
      Keeps.get fun _ _ => Keeps.pure trivial
  · exact plain_searchFor hI _ _ _
  · exact plain_searchFor hI _ _ _
  · exact plain_speak hI _ _ _
  · exact plain_speak hI _ _ _
  · exact plain_hear hI _ _
  · exact plain_hear hI _ _
  · exact Keeps.throw fun _ h => nomatch h

end Builtin

/-! ### Tame actions -/

namespace Action

open Persona.Effect (Keeps)

/-- The action neither begins nor ends a call. -/
def IsTame (a : Action α) : Prop :=
  ∀ I, Session.Tame I → Keeps I (fun _ => True) (fun _ => True) a

theorem tame_orFault (x : Except Fault α) : IsTame (orFault x) := by
  intro I _
  cases x with
  | error e => exact Keeps.throw trivial
  | ok x => exact Keeps.pure trivial

theorem IsTame.of_plain {a : Action α} (ha : ∀ I, Session.Tame I → IsPlain I a) : IsTame a :=
  fun I hI => (ha I hI).imp (fun _ _ => trivial) fun _ _ => trivial

theorem tame_lookup (name : String) : IsTame (lookup name) := IsTame.of_plain fun _ _ => plain_lookup name

theorem tame_checkBudget (h : Host) : IsTame (checkBudget h) :=
  IsTame.of_plain fun _ hI => plain_checkBudget hI.toInert h

theorem tame_makeFunction (name : String) (params : List String) (body : FunctionBody) :
    IsTame (makeFunction name params body) :=
  fun _ hI => Keeps.get fun _ _ => (Keeps.modify fun s hs => hI.made s _ hs).bind fun _ _ => Keeps.pure trivial

theorem tame_applyPersonality (entries : List (Trait × Float)) : IsTame (applyPersonality entries) :=
  IsTame.of_plain fun _ hI => plain_applyPersonality hI.profile entries

theorem tame_call (h : Host) (b : Builtin) (vs : List Value) : IsTame (b.call h vs) :=
  IsTame.of_plain fun _ hI => Builtin.plain_call hI.toInert h b vs

end Action

end Persona
