import Persona.Proofs.Effect

/-! Computations that guard what they take apart.

A difference, an element of a list or a part of it need not be there. A guarded computation
that comes upon one that is not has nothing to go on with: no result, no error and no state. It is
total if this happens nowhere. -/
namespace Persona

/-- What changes a state and may stop with an error, as long as all it takes is there. -/
abbrev Guarded (ε σ α : Type) := ExceptT ε (StateT σ Option) α

namespace Guarded

variable {ε σ α β : Type}

/-- A computation that takes nothing apart. -/
def total (a : ExceptT ε (StateM σ) α) : Guarded ε σ α := fun s => some (a s)

/-- What is there, if it is. -/
def given (x : Option α) : Guarded ε σ α := fun s => x.map fun v => (.ok v, s)

/-- The first number without the second, which must not be greater. -/
def minus? (a b : Nat) : Option Nat := if b ≤ a then some (a - b) else none

/-- Both sides of a place, which must not lie behind the end. -/
def split? (xs : List α) (place : Nat) : Option (List α × List α) :=
  if place ≤ xs.length then some (xs.splitAt place) else none

theorem minus?_of_le {a b : Nat} (h : b ≤ a) : minus? a b = some (a - b) := if_pos h

theorem split?_of_le {xs : List α} {place : Nat} (h : place ≤ xs.length) :
    split? xs place = some (xs.take place, xs.drop place) := by
  rw [split?, if_pos h, List.splitAt_eq]

/-! ### Total computations -/

theorem pure_eq (x : α) : (pure x : Guarded ε σ α) = total (pure x) := rfl

theorem throw_eq (e : ε) : (throw e : Guarded ε σ α) = total (throw e) := rfl

theorem get_eq : (get : Guarded ε σ σ) = total get := rfl

theorem modify_eq (g : σ → σ) : (modify g : Guarded ε σ PUnit) = total (modify g) := rfl

theorem given_some (x : α) : (given (some x) : Guarded ε σ α) = total (pure x) := rfl

theorem bind_eq (a : ExceptT ε (StateM σ) α) (k : α → ExceptT ε (StateM σ) β) :
    (total a >>= fun x => total (k x)) = total (a >>= k) := by
  funext s
  show (StateT.bind (total a) (ExceptT.bindCont fun x => total (k x)) s : Option _) = some ((a >>= k) s)
  rw [Effect.bind_apply]
  show (match a s with
    | (r, t) => ExceptT.bindCont (fun x => total (k x)) r t) = _
  cases a s with
  | mk r t =>
    cases r with
    | ok x => rfl
    | error e => rfl

theorem pure_bind_eq (x : α) (k : α → Guarded ε σ β) : (total (pure x) >>= k) = k x := rfl

theorem get_bind_apply (k : σ → Guarded ε σ α) (s : σ) : (total get >>= k) s = k s s := rfl

theorem ite_eq {p : Prop} [Decidable p] (a b : ExceptT ε (StateM σ) α) :
    (if p then total a else total b) = total (if p then a else b) := by
  split
  · rfl
  · rfl

end Guarded

end Persona
