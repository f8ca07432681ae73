import Persona.Proofs.Machine.Calm
import Persona.Proofs.Machine.Steps

/-! What every step keeps.

A calm property survives all instructions but calls, returns and jumps. If it also survives what calls
and jumps do to the machine, it is *steady*: nothing but a return changes it. If it survives returns
too, it *lasts*: each step keeps it, whether the run goes on, halts or ends with a fault, and so does
the whole run. -/
namespace Persona.Machine

open Effect (Keeps)

/-- A property that the beginning of a call does not change either, nor a jump. -/
structure Steady (h : Host) (J : Machine → Prop) : Prop extends Calm h J where
  goto : ∀ m pointer, J m → J { m with pointer }
  enter : ∀ m f, m.session.depth < h.limits.maxCallDepth → J m →
    J { m with frames := f :: m.frames, session := { m.session with frames := [] :: m.session.frames } }

/-- A property that the end of a call does not change either. -/
structure Lasting (h : Host) (J : Machine → Prop) : Prop extends Steady h J where
  leave : ∀ m f rest, m.frames = f :: rest → J m → J { m with frames := rest, session := m.session.pop }

variable {J : Machine → Prop} {h : Host} {c : Code} {next : Nat}

theorem kept_goto (hJ : Steady h J) (offset : Nat) : Kept J (goto offset) :=
  Keeps.modify fun m hm => hJ.goto m offset hm

theorem kept_jump (hJ : Steady h J) (d : Int) : Kept J (jump c next d) := by
  unfold jump
  split
  · split
    · exact kept_goto hJ _
    · exact Keeps.throw trivial
  · exact Keeps.throw trivial

/-- A call of a function of the program, when its arguments and itself are off the stack. -/
theorem kept_enter (hJ : Steady h J) (bindings : List (String × Value)) (discard : Bool) (entry : Nat) :
    Kept J (do
      act (Action.push h)
      modify fun m => { m with
        session := m.session.defineAll bindings
        frames := ⟨next, m.stack.height, discard⟩ :: m.frames
        pointer := entry }) := by
  intro m hm
  rw [Effect.bind_apply, act_apply, Action.push_eq]
  cases hlook : m.session.clock.look? with
  | none => exact Keeps.throw trivial m hm
  | some clock =>
    have hlooked : J { m with session := { m.session with clock } } :=
      (hJ.session m.pointer m.stack m.frames).look m.session clock hm hlook
    by_cases hdepth : h.limits.maxCallDepth ≤ m.session.depth
    · simp only [if_pos hdepth]
      exact Keeps.throw trivial _ hlooked
    · have hentered := hJ.goto _ entry
        (hJ.enter { m with session := { m.session with clock } } ⟨next, m.stack.height, discard⟩
          (Nat.lt_of_not_le hdepth) hlooked)
      simp only [if_neg hdepth]
      exact ⟨(hJ.session _ _ _).defineAll hentered bindings, fun _ _ => trivial, fun _ _ => trivial⟩

theorem kept_call (hJ : Steady h J) (argc : Nat) (discard : Bool) : Kept J (call h next argc discard) := by
  have hcalm := hJ.toCalm
  refine (kept_popMany hcalm argc).bind fun vs _ => (kept_pop hcalm).bind fun v _ => ?_
  cases v with
  | builtin b =>
    refine (kept_act hcalm (Action.tame_call h b vs)).bind fun result _ => ?_
    cases discard with
    | true => exact Keeps.pure trivial
    | false => exact kept_push hcalm result
  | function g =>
    simp only
    cases g.body with
    | script body => exact Keeps.throw trivial
    | compiled entry =>
      simp only
      split
      · exact Keeps.throw trivial
      · exact kept_enter hJ _ discard entry
  | _ => exact Keeps.throw trivial

theorem kept_ret (hJ : Lasting h J) : Kept J (ret h) := by
  have hcalm := hJ.toCalm
  refine (kept_pop hcalm).bind fun v _ => ?_
  intro m hm
  rw [Effect.get_bind_apply]
  cases hframes : m.frames with
  | nil => exact Keeps.pure trivial m hm
  | cons f rest =>
    simp only
    rw [Effect.modify_bind_apply]
    have hleft := hJ.goto _ f.returnTo (hJ.leave _ f rest hframes hm)
    have hheight : (m.stack.truncate f.base).height ≤ max m.stack.height h.limits.maxStackSize :=
      Nat.le_trans (Nat.sub_le ..) (Nat.le_max_left ..)
    have htruncated := hcalm.stack { m with frames := rest, session := m.session.pop, pointer := f.returnTo }
      (m.stack.truncate f.base) hheight hleft
    cases f.discard with
    | true => exact Keeps.pure trivial _ htruncated
    | false => exact kept_pushed hcalm v _ htruncated

theorem pos_of_iterator? {vs : List Value} {found : Array Value × Nat} (hfound : iterator? vs = some found) :
    0 < vs.length := by
  cases vs with
  | nil => cases hfound
  | cons v rest => exact Nat.succ_pos _

theorem kept_forNext (hJ : Steady h J) (d : Int) : Kept J (forNext h c next d) := by
  have hcalm := hJ.toCalm
  intro m hm
  unfold forNext
  rw [Effect.get_bind_apply]
  dsimp only
  cases hiterator : iterator? m.stack.values with
  | none => exact Keeps.throw trivial m hm
  | some found =>
    dsimp only
    cases found.1[found.2]? with
    | none =>
      have hheight : (m.stack.drop 2).height ≤ max m.stack.height h.limits.maxStackSize :=
        Nat.le_trans (Nat.sub_le ..) (Nat.le_max_left ..)
      exact kept_jump hJ d _ (hcalm.stack m _ hheight hm)
    | some item =>
      dsimp only
      rw [Effect.bind_apply, act_apply, Action.checkBudget_eq]
      cases hlook : m.session.clock.look? with
      | none => exact Keeps.throw trivial m hm
      | some clock =>
        have hlooked : J { m with session := { m.session with clock } } :=
          (hJ.session m.pointer m.stack m.frames).look m.session clock hm hlook
        have hpos : 0 < m.stack.height := by
          rw [m.stack.height_eq]
          exact pos_of_iterator? hiterator
        have hheight : ((m.stack.drop 1).push (.number (found.2 + 1).toFloat)).height ≤
            max m.stack.height h.limits.maxStackSize := by
          show m.stack.height - 1 + 1 ≤ _
          omega
        exact kept_push hcalm item _ (hcalm.stack { m with session := { m.session with clock } } _ hheight hlooked)

/-- Instructions that are no returns keep what is steady. -/
theorem kept_onward (hJ : Steady h J) {i : Instruction} (hi : i ≠ .ret) : Kept J (execute h c next i) := by
  have hcalm := hJ.toCalm
  have hgo : ∀ {x : Exec Unit}, Kept J x → Kept J (do x; return Progress.running) :=
    fun hx => hx.bind fun _ _ => Keeps.pure trivial
  by_cases hstraight : i.IsStraight = true
  · exact kept_execute hcalm hstraight
  cases i with
  | call argc discard => exact hgo (kept_call hJ argc discard)
  | ret => exact absurd rfl hi
  | jump d =>
    unfold execute
    simp only
    split
    · exact (kept_act hcalm (Action.tame_checkBudget h)).bind fun _ _ => hgo (kept_jump hJ d)
    · exact hgo (kept_jump hJ d)
  | jumpIfFalse d =>
    refine (kept_pop hcalm).bind fun v _ => ?_
    cases v.isTruthy with
    | true => exact Keeps.pure trivial
    | false => exact hgo (kept_jump hJ d)
  | forNext d => exact hgo (kept_forNext hJ d)
  | _ => exact absurd rfl hstraight

theorem kept_instruction (hJ : Lasting h J) (i : Instruction) : Kept J (execute h c next i) := by
  by_cases hret : i = .ret
  · subst hret
    exact kept_ret hJ
  · exact kept_onward hJ.toSteady hret

/-- A step keeps what lasts, however it ends. -/
theorem kept_step (hJ : Lasting h J) : Kept J (step h c) := by
  refine Keeps.get fun m _ => ?_
  split
  · exact Keeps.throw trivial
  · exact (kept_goto hJ.toSteady _).bind fun _ _ => kept_instruction hJ _

/-- So does a run, however many steps it takes. -/
theorem kept_run (hJ : Lasting h J) (fuel : Nat) {m : Machine} (hm : J m) : J (run h c fuel m).2 := by
  induction fuel generalizing m with
  | zero => exact hm
  | succ fuel ih =>
    have hstep := (kept_step (c := c) hJ m hm).1
    unfold run
    cases hr : step h c m with
    | mk r t =>
      rw [hr] at hstep
      cases r with
      | error e => exact hstep
      | ok r =>
        cases r with
        | running => exact ih hstep
        | halted => exact hstep

end Persona.Machine
