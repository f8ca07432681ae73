import Persona.Proofs.Builtin.Effect
import Persona.Proofs.Machine.Operands

/-! What instructions leave alone.

Most instructions only work on operands and on the session, and go on behind themselves.
A property of the machine is *calm* if that cannot change it; only calls, returns and jumps
can. -/
namespace Persona

/-- The instruction goes on behind itself, if anywhere. -/
def Instruction.IsStraight : Instruction → Bool
  | call .. | ret | jump _ | jumpIfFalse _ | forNext _ => false
  | _ => true

namespace Machine

open Effect (Keeps)

/-- A property that tame actions do not change, nor operands on a stack that stays within its
limit. -/
structure Calm (h : Host) (J : Machine → Prop) : Prop where
  stack : ∀ m stack, stack.height ≤ max m.stack.height h.limits.maxStackSize → J m → J { m with stack }
  session : ∀ pointer stack frames, Session.Tame fun s => J ⟨pointer, stack, frames, s⟩

/-- The computation keeps a property of the machine. -/
abbrev Kept (J : Machine → Prop) (x : Exec α) : Prop := Keeps J (fun _ => True) (fun _ => True) x

variable {J : Machine → Prop} {h : Host} {c : Code}

/-! ### Parts of instructions -/

theorem kept_push (hJ : Calm h J) (v : Value) : Kept J (push h v) := by
  intro m hm
  unfold push
  rw [Effect.get_bind_apply]
  dsimp only
  split
  · exact Keeps.throw trivial m hm
  · next hroom =>
    have hheight : (m.stack.push v).height ≤ max m.stack.height h.limits.maxStackSize :=
      Nat.le_trans (Nat.lt_of_not_le hroom) (Nat.le_max_right ..)
    exact ⟨hJ.stack m _ hheight hm, fun _ _ => trivial, fun _ _ => trivial⟩

theorem kept_pop (hJ : Calm h J) : Kept J pop := by
  intro m hm
  unfold pop
  rw [Effect.get_bind_apply]
  cases hpop : m.stack.pop? with
  | none => exact Keeps.throw trivial m hm
  | some top =>
    have hheight : top.2.height ≤ max m.stack.height h.limits.maxStackSize :=
      Nat.le_trans (Stack.height_of_pop? hpop) (Nat.le_max_left ..)
    exact ⟨hJ.stack m _ hheight hm, fun _ _ => trivial, fun _ _ => trivial⟩

theorem kept_popMany (hJ : Calm h J) (count : Nat) : Kept J (popMany count) := by
  intro m hm
  unfold popMany
  rw [Effect.get_bind_apply]
  cases hpop : m.stack.popMany? count with
  | none => exact Keeps.throw trivial m hm
  | some top =>
    have hheight : top.2.height ≤ max m.stack.height h.limits.maxStackSize :=
      Nat.le_trans (Stack.height_of_popMany? hpop) (Nat.le_max_left ..)
    exact ⟨hJ.stack m _ hheight hm, fun _ _ => trivial, fun _ _ => trivial⟩

theorem kept_act (hJ : Calm h J) {a : Action α} (ha : a.IsTame) : Kept J (act a) :=
  fun ⟨pointer, stack, frames, session⟩ hm => ha _ (hJ.session pointer stack frames) session hm

theorem kept_constant (idx : Nat) : Kept J (constant c idx) := by
  unfold constant
  split
  · exact Keeps.pure trivial
  · exact Keeps.throw trivial

theorem kept_name (idx : Nat) : Kept J (name c idx) := by
  unfold name
  split
  · exact Keeps.pure trivial
  · exact Keeps.throw trivial

theorem kept_names (idxs : List Nat) : Kept J (names c idxs) := by
  induction idxs with
  | nil => exact Keeps.pure trivial
  | cons idx rest ih => exact (kept_name idx).bind fun _ _ => ih.bind fun _ _ => Keeps.pure trivial

theorem kept_traitValues (entries : List (Trait × Nat)) : Kept J (traitValues c entries) := by
  induction entries with
  | nil => exact Keeps.pure trivial
  | cons entry rest ih =>
    refine (kept_constant entry.2).bind fun v _ => ?_
    split
    · exact ih.bind fun _ _ => Keeps.pure trivial
    · exact Keeps.throw trivial

/-! ### Instructions -/

theorem kept_pushed (hJ : Calm h J) (v : Value) :
    Kept J (do push h v; return Progress.running) :=
  (kept_push hJ v).bind fun _ _ => Keeps.pure trivial

theorem kept_computed (hJ : Calm h J) {a : Action Value} (ha : a.IsTame) :
    Kept J (do push h (← act a); return Progress.running) :=
  (kept_act hJ ha).bind fun v _ => kept_pushed hJ v

/-- Instructions that are no calls, returns or jumps keep what is calm. -/
theorem kept_execute (hJ : Calm h J) {next : Nat} {i : Instruction} (hi : i.IsStraight = true) :
    Kept J (execute h c next i) := by
  cases i with
  | halt => exact Keeps.pure trivial
  | pushConst idx => exact (kept_constant idx).bind fun v _ => kept_pushed hJ v
  | pushNull | pushTrue | pushFalse | loadBuiltin b => exact kept_pushed hJ _
  | pop => exact (kept_pop hJ).bind fun _ _ => Keeps.pure trivial
  | loadVar idx => exact (kept_name idx).bind fun s _ => kept_computed hJ (Action.tame_lookup s)
  | storeVar idx =>
    refine (kept_name idx).bind fun s _ => Keeps.get fun m _ => ?_
    split
    · exact Keeps.throw trivial
    · next v _ _ =>
      refine (Keeps.modify fun m hm => ?_).bind fun _ _ => Keeps.pure trivial
      exact (hJ.session m.pointer m.stack m.frames).assign m.session s v hm
  | defineVar idx =>
    refine (kept_name idx).bind fun s _ => (kept_pop hJ).bind fun v _ => ?_
    refine (Keeps.modify fun m hm => ?_).bind fun _ _ => Keeps.pure trivial
    exact (hJ.session m.pointer m.stack m.frames).define m.session s v hm
  | binOp op =>
    exact (kept_pop hJ).bind fun _ _ => (kept_pop hJ).bind fun _ _ => kept_computed hJ (Action.tame_orFault _)
  | unOp op => exact (kept_pop hJ).bind fun _ _ => kept_computed hJ (Action.tame_orFault _)
  | index =>
    exact (kept_pop hJ).bind fun _ _ => (kept_pop hJ).bind fun _ _ => kept_computed hJ (Action.tame_orFault _)
  | makeArray count =>
    exact (kept_act hJ (Action.tame_orFault _)).bind fun _ _ =>
      (kept_popMany hJ count).bind fun _ _ => kept_pushed hJ _
  | makeMap count => exact (kept_popMany hJ _).bind fun _ _ => kept_computed hJ (Action.tame_orFault _)
  | extend =>
    exact (kept_pop hJ).bind fun _ _ => (kept_pop hJ).bind fun _ _ => kept_computed hJ (Action.tame_orFault _)
  | makeFunction fn params entry =>
    exact (kept_name fn).bind fun _ _ => (kept_names params).bind fun _ _ =>
      kept_computed hJ (Action.tame_makeFunction _ _ _)
  | iterInit =>
    exact (kept_pop hJ).bind fun _ _ => (kept_act hJ (Action.tame_orFault _)).bind fun _ _ =>
      (kept_push hJ _).bind fun _ _ => kept_pushed hJ _
  | personality entries =>
    exact (kept_traitValues entries).bind fun _ _ =>
      (kept_act hJ (Action.tame_applyPersonality _)).bind fun _ _ => Keeps.pure trivial
  | call | ret | jump | jumpIfFalse | forNext => cases hi

end Machine

end Persona
