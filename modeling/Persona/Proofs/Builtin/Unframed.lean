import Persona.Builtin.Call
import Persona.Proofs.Effect

/-! What does not look at the scopes of calls.

An action is *unframed* if it neither reads nor changes the scopes of the calls: with other scopes it
does the same, and leaves those. Built-ins are, and so is all that does not name a variable and neither
begins nor ends a call. -/
namespace Persona

/-- With other scopes the computation does the same, and those stay. -/
def Unframed (a : ExceptT ε (StateM Session) α) : Prop :=
  ∀ (s : Session) (frames : List Scope), a { s with frames } = ((a s).1, { (a s).2 with frames })

namespace Unframed

variable {ε : Type} {a : ExceptT ε (StateM Session) α}

theorem frames_eq (ha : Unframed a) (s : Session) : (a s).2.frames = s.frames :=
  congrArg (·.2.frames) (ha s s.frames)

theorem pure (x : α) : Unframed (pure x : ExceptT ε (StateM Session) α) := fun _ _ => rfl

theorem throw (e : ε) : Unframed (throw e : ExceptT ε (StateM Session) α) := fun _ _ => rfl

theorem bind {k : α → ExceptT ε (StateM Session) β} (ha : Unframed a) (hk : ∀ x, Unframed (k x)) :
    Unframed (a >>= k) := by
  intro s frames
  rw [Effect.bind_apply, Effect.bind_apply, ha s frames]
  cases a s with
  | mk r t =>
    cases r with
    | ok x => exact hk x t frames
    | error e => rfl

/-- What is read may not be the scopes of calls. -/
theorem get {k : Session → ExceptT ε (StateM Session) α} (hread : ∀ (s : Session) frames, k { s with frames } = k s)
    (hk : ∀ s, Unframed (k s)) : Unframed (get >>= k) := by
  intro s frames
  rw [Effect.get_bind_apply, Effect.get_bind_apply, hread]
  exact hk s s frames

theorem modify {change : Session → Session}
    (hchange : ∀ (s : Session) frames, change { s with frames } = { change s with frames }) :
    Unframed (modify change : ExceptT ε (StateM Session) PUnit) := by
  intro s frames
  rw [Effect.modify_apply, Effect.modify_apply, hchange]

end Unframed

/-! ### Actions -/

namespace Action

theorem unframed_orFault (x : Except Fault α) : Unframed (orFault x) := by
  cases x with
  | ok x => exact .pure x
  | error f => exact .throw f

theorem unframed_checkBudget (h : Host) : Unframed (checkBudget h) := by
  refine .get (fun _ _ => rfl) fun s => ?_
  cases s.clock.look? with
  | none => exact .throw _
  | some clock => exact .modify fun _ _ => rfl

theorem unframed_makeFunction (name : String) (params : List String) (body : FunctionBody) :
    Unframed (makeFunction name params body) :=
  .get (fun _ _ => rfl) fun _ => .bind (.modify fun _ _ => rfl) fun _ => .pure _

theorem unframed_remainingMs (h : Host) : Unframed (remainingMs h) := .get (fun _ _ => rfl) fun _ => .pure _

theorem unframed_service (h : Host) (call : ServiceCall) (answer : List ServiceCall → Except String α) :
    Unframed (service h call answer) := by
  refine (unframed_checkBudget h).bind fun _ => .get (fun _ _ => rfl) fun s => ?_
  refine .bind (.modify fun _ _ => rfl) fun _ => ?_
  cases answer s.calls with
  | error message => exact .throw _
  | ok x => exact (unframed_checkBudget h).bind fun _ => .pure x

end Action

/-! ### Built-ins -/

namespace Builtin

open Persona.Action

theorem unframed_searchFor (h : Host) (topic : Value) (options : Option Value) :
    Unframed (searchFor h topic options) := by
  refine (unframed_orFault _).bind fun _ => .get (fun _ _ => rfl) fun _ => (unframed_orFault _).bind fun _ => ?_
  exact (unframed_service _ _ _).bind fun _ => .pure _

theorem unframed_speak (h : Host) (v : Value) (options : Option Value) : Unframed (speak h v options) :=
  (unframed_orFault _).bind fun _ => (unframed_service _ _ _).bind fun _ => .pure _

theorem unframed_hear (h : Host) (options : Option Value) : Unframed (hear h options) := by
  refine (unframed_orFault _).bind fun _ => (unframed_remainingMs h).bind fun _ => (unframed_orFault _).bind fun _ => ?_
  exact (unframed_service _ _ _).bind fun _ => .pure _

/-- Built-ins do not look at the scopes of calls. -/
theorem unframed_call (h : Host) (b : Builtin) (vs : List Value) : Unframed (call h b vs) := by
  unfold call
  split
  · exact .bind (.modify fun _ _ => rfl) fun _ => .pure _
  · exact unframed_orFault _
  · exact (unframed_orFault _).bind fun _ => unframed_orFault _
  · exact (unframed_orFault _).bind fun _ => (unframed_orFault _).bind fun _ => unframed_orFault _
  · exact unframed_orFault _
  · exact .pure _
  · exact .pure _
  · exact unframed_orFault _
  · exact (unframed_orFault _).bind fun _ => .get (fun _ _ => rfl) fun _ => .pure _
  · exact (unframed_orFault _).bind fun _ => .get (fun _ _ => rfl) fun _ => .pure _
  · exact unframed_searchFor h _ none
  · exact unframed_searchFor h _ _
  · exact unframed_speak h _ none
  · exact unframed_speak h _ _
  · exact unframed_hear h none
  · exact unframed_hear h _
  · exact .throw _

end Builtin

end Persona
