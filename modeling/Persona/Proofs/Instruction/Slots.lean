import Mathlib.Data.List.Forall2
import Persona.Instruction

/-! The slots of the operand stack.

What instructions find on the operand stack is said by a *chart*: at which offsets a run may
stand, and what each place above the base of the present call holds there. A chart goes on
along every instruction that it has: what the instruction leaves on the stack is what the
chart has where the run goes on. -/
namespace Persona

/-- What a place on the operand stack holds: any value, the items of an array literal, the
entries of a map literal, how many items a loop has used, or the items of a loop. -/
inductive Slot where
  | value
  | items
  | entries
  | cursor
  | loop
deriving DecidableEq

/-- What a loop runs over is no value of the program: nothing uses it but the loop. -/
def Slot.isOperand : Slot → Bool
  | loop => false
  | _ => true

/-- The other slot holds whatever this one does. -/
def Slot.Covers (s t : Slot) : Prop := t = s ∨ t = .value ∧ s.isOperand = true

theorem Slot.covers_refl (σ : List Slot) : List.Forall₂ Covers σ σ := by
  induction σ with
  | nil => exact .nil
  | cons s σ ih => exact .cons (.inl rfl) ih

/-- The slots above the base of the present call, the top first, and whether it is the call of
a function. -/
structure Site where
  inFunction : Bool
  slots : List Slot
deriving DecidableEq

/-- Offsets of the code with what is on the stack there. -/
abbrev Chart := Nat → Option Site

/-- Where functions are entered. -/
def Site.entry : Site := ⟨true, []⟩

namespace Instruction

/-- The number of operands that an instruction reads or takes. -/
def needs : Instruction → Nat
  | pop | storeVar _ | defineVar _ | ret | jumpIfFalse _ | unOp _ | iterInit => 1
  | binOp _ | index | extend | forNext _ => 2
  | call argc _ => argc + 1
  | makeArray count => count
  | makeMap count => 2 * count
  | _ => 0

/-- What an instruction leaves of the slots, if there are enough. Jumps, returns and
instructions that make functions are told apart where they are checked. -/
def leaves : Instruction → List Slot → Option (List Slot)
  | pushConst _, σ | pushNull, σ | pushTrue, σ | pushFalse, σ | loadVar _, σ | loadBuiltin _, σ =>
    some (.value :: σ)
  | pop, _ :: σ | defineVar _, _ :: σ => some σ
  | storeVar _, s :: σ => some (s :: σ)
  | call argc discard, σ =>
    if argc < σ.length then some ((if discard then [] else [.value]) ++ σ.drop (argc + 1)) else none
  | binOp .and, _ | binOp .or, _ => none
  | binOp _, _ :: _ :: σ | index, _ :: _ :: σ | unOp _, _ :: σ => some (.value :: σ)
  | makeArray count, σ => if count ≤ σ.length then some (.items :: σ.drop count) else none
  | makeMap count, σ => if 2 * count ≤ σ.length then some (.entries :: σ.drop (2 * count)) else none
  | extend, .items :: .items :: σ => some (.items :: σ)
  | extend, .entries :: .entries :: σ => some (.entries :: σ)
  | iterInit, _ :: σ => some (.cursor :: .loop :: σ)
  | personality _, σ => some σ
  | _, _ => none

/-- What an instruction takes are values of the program. What it drops can be anything. -/
def findsOperands : Instruction → List Slot → Bool
  | pop, _ => true
  | i, σ => (σ.take i.needs).all Slot.isOperand

/-- What an instruction leaves of the slots, if it finds its operands. -/
def effect (i : Instruction) (σ : List Slot) : Option (List Slot) :=
  if i.findsOperands σ then i.leaves σ else none

theorem effect_eq_some {i : Instruction} {σ τ : List Slot} :
    i.effect σ = some τ ↔ i.findsOperands σ = true ∧ i.leaves σ = some τ := Option.ite_none_right_eq_some

end Instruction

namespace Chart

/-- The chart has a place for slots like these. -/
def Takes (t : Chart) (o : Nat) (inFunction : Bool) (σ : List Slot) : Prop :=
  ∃ τ, List.Forall₂ Slot.Covers σ τ ∧ t o = some ⟨inFunction, τ⟩

theorem takes_of_site {t : Chart} {o : Nat} {s : Site} (hs : t o = some s) : t.Takes o s.inFunction s.slots :=
  ⟨s.slots, Slot.covers_refl s.slots, hs⟩

/-- How many slots the chart has at an offset. -/
def height (t : Chart) (o : Nat) : Nat := ((t o).map (·.slots.length)).getD 0

/-- A jump leads to a place with this site. -/
def Lands (t : Chart) (next : Nat) (d : Int) (s : Site) : Prop :=
  ∃ target : Nat, (next : Int) + d = target ∧ t target = some s

/-- The instruction finds its operands, and the chart has what it leaves. A jump that is no
plain one leads forward. -/
def Checks (t : Chart) (o : Nat) (s : Site) : Instruction → Prop
  | .halt => True
  | .ret => ∃ top σ, s.slots = top :: σ ∧ top.isOperand = true
  | .jump d => t.Lands (o + 3) d s
  | .jumpIfFalse d => 0 ≤ d ∧ ∃ top σ, s.slots = top :: σ ∧ t (o + 3) = some ⟨s.inFunction, σ⟩ ∧
    t.Lands (o + 3) d ⟨s.inFunction, σ⟩
  | .forNext d => 0 ≤ d ∧ ∃ σ, s.slots = .cursor :: .loop :: σ ∧
    t (o + 3) = some ⟨s.inFunction, .value :: s.slots⟩ ∧ t.Lands (o + 3) d ⟨s.inFunction, σ⟩
  | .makeFunction name params entry => t entry = some .entry ∧
    t.Takes (o + (Instruction.makeFunction name params entry).size) s.inFunction (.value :: s.slots)
  | i => ∃ σ, i.effect s.slots = some σ ∧ t.Takes (o + i.size) s.inFunction σ

end Chart

/-- Items go on with items, and entries with entries. -/
theorem Instruction.of_leaves_extend {σ τ : List Slot} (h : extend.leaves σ = some τ) :
    (∃ ρ, σ = .items :: .items :: ρ ∧ τ = .items :: ρ) ∨
      (∃ ρ, σ = .entries :: .entries :: ρ ∧ τ = .entries :: ρ) := by
  cases σ with
  | nil => cases h
  | cons s σ =>
    cases σ with
    | nil => cases s <;> cases h
    | cons s' ρ =>
      cases s <;> cases s' <;> cases h
      · exact .inl ⟨ρ, rfl, rfl⟩
      · exact .inr ⟨ρ, rfl, rfl⟩

/-- What has an effect finds its operands. -/
theorem Instruction.needs_le_of_effect {i : Instruction} {σ τ : List Slot} (heffect : i.effect σ = some τ) :
    i.needs ≤ σ.length := by
  have h := (effect_eq_some.1 heffect).2
  cases i with
  | call argc discard =>
    simp only [leaves, Option.ite_none_right_eq_some] at h
    exact h.1
  | makeArray count | makeMap count =>
    simp only [leaves, Option.ite_none_right_eq_some] at h
    exact h.1
  | binOp op =>
    match σ with
    | _ :: _ :: σ => exact Nat.le_add_left 2 σ.length
    | [] | [_] => cases op <;> cases h
  | index =>
    match σ with
    | _ :: _ :: σ => exact Nat.le_add_left 2 σ.length
    | [] | [_] => cases h
  | extend =>
    match σ with
    | _ :: _ :: σ => exact Nat.le_add_left 2 σ.length
    | [] => cases h
    | [s] => cases s <;> cases h
  | pop | storeVar _ | defineVar _ | unOp _ | iterInit =>
    cases σ with
    | nil => cases h
    | cons s σ => exact Nat.le_add_left 1 σ.length
  | ret | jumpIfFalse _ | forNext _ => cases h
  | _ => exact Nat.zero_le _

/-- An instruction is checked by its effect. -/
theorem Chart.checks_of_effect {t : Chart} {o : Nat} {s : Site} {i : Instruction} {σ : List Slot}
    (heffect : i.effect s.slots = some σ) (htakes : t.Takes (o + i.size) s.inFunction σ) : t.Checks o s i := by
  cases i with
  | halt | ret | jump d | jumpIfFalse d | forNext d | makeFunction name params entry =>
    cases (Instruction.effect_eq_some.1 heffect).2
  | _ => exact ⟨σ, heffect, htakes⟩

/-- What the chart checks finds its operands. -/
theorem Chart.Checks.needs_le {t : Chart} {o : Nat} {s : Site} {i : Instruction} (h : t.Checks o s i) :
    i.needs ≤ s.slots.length := by
  cases i with
  | halt | jump d | makeFunction name params entry => exact Nat.zero_le _
  | ret =>
    obtain ⟨top, σ, hslots, -⟩ := h
    rw [hslots]
    exact Nat.le_add_left 1 σ.length
  | jumpIfFalse d =>
    obtain ⟨-, top, σ, hslots, -⟩ := h
    rw [hslots]
    exact Nat.le_add_left 1 σ.length
  | forNext d =>
    obtain ⟨-, σ, hslots, -⟩ := h
    rw [hslots]
    exact Nat.le_add_left 2 σ.length
  | _ =>
    obtain ⟨σ, heffect, -⟩ := h
    exact Instruction.needs_le_of_effect heffect

end Persona
