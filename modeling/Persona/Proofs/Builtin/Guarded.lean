import Persona.Proofs.Session.Guarded

/-! Built-ins that take their arguments by place.

A call looks up how many arguments there may be and then takes them one by one. The row of the
table and the arguments are there: the first because every built-in has its place, the others
because their number has been checked. -/
namespace Persona.Builtin

open Guarded

/-- The check of the number of arguments, with the row that belongs to the built-in. -/
def guardedArity (b : Builtin) (count : Nat) : Guarded Fault Session Unit := do
  let row ← given all[b.index]?
  unless row.arity.accepts count do throw (.arityMismatch row.name row.arity count)

/-- `call`, with the arguments by their places. -/
def guardedCall (h : Host) (b : Builtin) (vs : List Value) : Guarded Fault Session Value := do
  guardedArity b vs.length
  match b with
  | print => do
    Action.guardedModify fun s => do
      let output ← s.output.guardedWrite (" ".intercalate (vs.map Value.text))
      let output ← output.guardedWrite "\n"
      return { s with output }
    return .null
  | range | listen => total (call h b vs)
  | len | str | type | keys | trait | describe => do
    let v ← given vs[0]?
    total (call h b [v])
  | push => do
    let items ← given vs[0]?
    let v ← given vs[1]?
    total (call h push [items, v])
  | knowledge => do
    let topic ← given vs[0]?
    total (searchFor h topic vs[1]?)
  | say => do
    let v ← given vs[0]?
    total (speak h v vs[1]?)

theorem guardedArity_eq (b : Builtin) (count : Nat) :
    guardedArity b count =
      total (unless b.arity.accepts count do throw (.arityMismatch b.name b.arity count)) := by
  have hrow : all[b.index]? = some b := ofIndex?_index b
  unfold guardedArity
  rw [hrow]
  simp only [given_some, throw_eq, pure_eq, ite_eq, bind_eq, pure_bind]

theorem guardedCall_eq (h : Host) (b : Builtin) (vs : List Value) : guardedCall h b vs = total (call h b vs) := by
  unfold guardedCall
  rw [guardedArity_eq]
  cases hb : b.arity.accepts vs.length with
  | false =>
    rw [call_of_not_accepts h hb]
    rfl
  | true =>
    show (total (pure ()) >>= _) = _
    rw [pure_bind_eq]
    cases b with
    | print =>
      have hprint : ∀ s : Session, (do
          let output ← s.output.guardedWrite (" ".intercalate (vs.map Value.text))
          let output ← output.guardedWrite "\n"
          return { s with output } : Option Session) =
            some ((s.print (" ".intercalate (vs.map Value.text))).print "\n") := by
        intro s
        simp only [Output.guardedWrite_eq]
        rfl
      dsimp only
      rw [Action.guardedModify_eq hprint]
      exact bind_eq _ _
    | range | listen => rfl
    | len | str | type | keys | trait | describe =>
      match vs, hb with
      | [_], _ => rfl
    | push =>
      match vs, hb with
      | [_, _], _ => rfl
    | knowledge | say =>
      match vs, hb with
      | [_], _ => rfl
      | [_, _], _ => rfl

end Persona.Builtin
