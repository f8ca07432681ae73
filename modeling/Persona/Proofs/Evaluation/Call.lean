import Persona.Proofs.Evaluation.Closed

/-! What a call of a function is made of.

Whether a call begins is seen before any scope is. A call that is refused leaves the session as it
was, but for a look at the clock; one that begins runs the body of the function in a scope of its own,
which holds the arguments, and the scope goes when the body ends, however it ends. -/
namespace Persona.Evaluation

/-- The session in which the body of a function begins. -/
def entered (f : Function) (vs : List Value) (clock : Clock) (s : Session) : Session :=
  Session.defineAll { s with clock, frames := [] :: s.frames } (f.params.zip vs)

variable {h : Host} {f : Function} {vs : List Value} {s : Session} {body : List Stmt} {runBody : List Stmt → Eval Flow}

theorem applyWith_script (hbody : f.body = .script body) (harity : f.params.length = vs.length) :
    applyWith h runBody (.function f) vs s = match s.clock.look? with
      | some clock => if h.limits.maxCallDepth ≤ s.depth then
          (.error (.fault (.stackOverflow h.limits.maxCallDepth)), { s with clock })
        else inFrame (runBody body) (entered f vs clock s)
      | none => (.error (.fault (.timeout h.limits.executionTimeoutMs)), s) := by
  have hpush := Action.push_eq h s
  simp only [applyWith, hbody, harity, ne_eq, not_true_eq_false, if_false]
  cases hlook : s.clock.look? with
  | none =>
    rw [hlook] at hpush
    rw [Effect.bind_error (act_error hpush)]
  | some clock =>
    rw [hlook] at hpush
    by_cases hdepth : h.limits.maxCallDepth ≤ s.depth
    · simp only [if_pos hdepth] at hpush ⊢
      rw [Effect.bind_error (act_error hpush)]
    · simp only [if_neg hdepth] at hpush ⊢
      rw [Effect.bind_ok (act_ok hpush), Effect.modify_bind_apply]
      rfl

theorem applyWith_arity (hbody : f.body = .script body) (harity : f.params.length ≠ vs.length) :
    applyWith h runBody (.function f) vs s =
      (.error (.fault (.arityMismatch f.id.name (.exactly f.params.length) vs.length)), s) := by
  simp only [applyWith, hbody, if_pos harity]
  rfl

/-- A call is refused or it begins, by the number of its arguments, the clock and the depth of calls. -/
theorem applyWith_function (h : Host) (f : Function) (count : Nat) (clock : Clock) (depth : Nat) :
    (∃ e clock', ∀ runBody vs (s : Session), vs.length = count → s.clock = clock → s.depth = depth →
      applyWith h runBody (.function f) vs s = (.error e, { s with clock := clock' })) ∨
    ∃ body clock', f.body = .script body ∧ f.params.length = count ∧ ∀ runBody vs (s : Session),
      vs.length = count → s.clock = clock → s.depth = depth →
        applyWith h runBody (.function f) vs s = inFrame (runBody body) (entered f vs clock' s) := by
  cases hbody : f.body with
  | compiled entry =>
    refine .inl ⟨.fault (.code (.notInterpretable f.id.name)), clock, fun runBody vs s _ hclock _ => ?_⟩
    subst hclock
    simp only [applyWith, hbody]
    rfl
  | script body =>
    by_cases harity : f.params.length = count
    · cases hlook : clock.look? with
      | none =>
        refine .inl ⟨.fault (.timeout h.limits.executionTimeoutMs), clock, fun runBody vs s hcount hclock _ => ?_⟩
        rw [applyWith_script hbody (harity.trans hcount.symm), hclock, hlook]
        subst hclock
        rfl
      | some clock' =>
        by_cases hdepth : h.limits.maxCallDepth ≤ depth
        · refine .inl ⟨.fault (.stackOverflow h.limits.maxCallDepth), clock', fun runBody vs s hcount hclock hs => ?_⟩
          rw [applyWith_script hbody (harity.trans hcount.symm), hclock, hlook, hs]
          exact if_pos hdepth
        · refine .inr ⟨body, clock', rfl, harity, fun runBody vs s hcount hclock hs => ?_⟩
          rw [applyWith_script hbody (harity.trans hcount.symm), hclock, hlook, hs]
          exact if_neg hdepth
    · refine .inl ⟨.fault (.arityMismatch f.id.name (.exactly f.params.length) count), clock,
        fun runBody vs s hcount hclock _ => ?_⟩
      subst hcount
      subst hclock
      exact applyWith_arity hbody harity

end Persona.Evaluation
