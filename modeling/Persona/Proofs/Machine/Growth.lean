import Persona.Proofs.Evaluation.Growth
import Persona.Proofs.Machine.Lasting

/-! What a machine has printed and asked stays.

No instruction takes anything back, so that a run ends with all the output and calls that it
had on its way. -/
namespace Persona.Machine

open Session (Before)

variable {h : Host} {c : Code} {n : Nat} {m m' : Machine}

/-- After this session nothing is taken back. -/
theorem lasting_before (h : Host) (s : Session) : Lasting h fun m => s.Before m.session where
  stack _ _ _ hm := hm
  session _ _ _ := Before.tame s
  goto _ _ hm := hm
  enter _ _ _ hm := hm.trans (.of_eq rfl rfl)
  leave _ _ _ _ hm := hm.trans (.of_eq rfl rfl)

/-- A step has the output and the calls that there were before. -/
theorem before_step (m : Machine) : m.session.Before (step h c m).2.session :=
  (kept_step (lasting_before h m.session) m (Before.refl m.session)).1

theorem Steps.before (hsteps : Steps h c n m m') : m.session.Before m'.session := by
  induction hsteps with
  | none m => exact Before.refl m.session
  | @more _ a b _ hstep _ ih =>
    have hb := before_step (h := h) (c := c) a
    rw [hstep] at hb
    exact hb.trans ih

theorem Ends.before {r : Except Fault Unit} (hm : Ends h c m r m') : m.session.Before m'.session := by
  obtain ⟨n, a, hsteps, hend⟩ := hm
  have ha := before_step (h := h) (c := c) a
  rw [hend] at ha
  exact hsteps.before.trans ha

end Persona.Machine
