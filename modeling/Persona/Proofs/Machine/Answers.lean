import Persona.Proofs.Evaluation.Answers
import Persona.Proofs.Machine.Growth

/-! What a machine learns from services.

Only calls of built-ins have to do with services. So a machine takes the steps that it has taken
also with a host that answers no other calls than those that have been made. -/
namespace Persona.Machine

variable {h : Host} {log : List ServiceCall} {c : Code} {n : Nat} {m m' : Machine}

theorem deliver_within {a b : Action Value} (hab : Repeats log a b) {discard : Bool}
    (hlog : (deliver h a discard m).2.session.calls <:+ log) : deliver (h.within log) b discard m = deliver h a discard m := by
  cases ha : a m.session with
  | mk r s =>
    have hb := (hab.eq ha).2
    cases r with
    | error e =>
      rw [deliver_error ha] at hlog ⊢
      exact deliver_error (hb hlog) discard
    | ok v =>
      cases discard with
      | true =>
        rw [deliver_dropped ha] at hlog ⊢
        exact deliver_dropped (hb hlog)
      | false =>
        have hsession : (deliver h a false m).2.session = s := by
          rw [deliver_ok ha]
          split
          · rfl
          · rfl
        rw [hsession] at hlog
        rw [deliver_ok ha, deliver_ok (hb hlog)]
        rfl

theorem call_within {next argc : Nat} {discard : Bool}
    (hlog : (execute h c next (.call argc discard) m).2.session.calls <:+ log) :
    execute (h.within log) c next (.call argc discard) m = execute h c next (.call argc discard) m := by
  unfold execute call at hlog ⊢
  simp only [Effect.bind_apply] at hlog ⊢
  cases hmany : popMany argc m with
  | mk r t =>
    rw [hmany] at hlog
    cases r with
    | error e => rfl
    | ok vs =>
      simp only at hlog ⊢
      cases hpop : pop t with
      | mk r t =>
        rw [hpop] at hlog
        cases r with
        | error e => rfl
        | ok v =>
          cases v with
          | builtin b =>
            simp only [← Effect.bind_apply, deliver_eq] at hlog ⊢
            exact deliver_within (Builtin.repeats_call b vs) hlog
          | _ => rfl

/-- A step that has made no other calls than those of the log. -/
theorem step_within (hlog : (step h c m).2.session.calls <:+ log) : step (h.within log) c m = step h c m := by
  cases hfetch : c.fetch m.pointer with
  | error e =>
    unfold step
    rw [Effect.get_bind_apply, Effect.get_bind_apply, hfetch]
  | ok found =>
    obtain ⟨i, next⟩ := found
    rw [step_eq hfetch] at hlog ⊢
    rw [step_eq hfetch]
    cases i with
    | call argc discard => exact call_within hlog
    | _ => rfl

/-- The steps to a machine are taken with the answers that it has got. -/
theorem Steps.within (hsteps : Steps h c n m m') (hlog : m'.session.calls <:+ log) :
    Steps (h.within log) c n m m' := by
  induction hsteps with
  | none m => exact .none m
  | @more _ a b _ hstep hsteps ih =>
    have hwithin : step (h.within log) c a = step h c a := by
      refine step_within ?_
      rw [hstep]
      exact hsteps.before.calls_suffix.trans hlog
    exact .more (hwithin.trans hstep) (ih hlog)

end Persona.Machine
