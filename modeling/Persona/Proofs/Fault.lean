import Mathlib.Tactic.SplitIfs
import Persona.Value.Operation

/-! Which faults there can be.

Only instructions have faults of the program's code. Operations on values do not know
them, except that the logical operators are not defined on values and that segments of a
literal are of one kind. -/
namespace Persona

/-- No fault of the code. -/
def Fault.Plain (e : Fault) : Prop := ∀ c, e ≠ .code c

/-- All errors are of a sort. -/
def Fails (F : ε → Prop) (x : Except ε α) : Prop := ∀ e, x = .error e → F e

section
variable {ε : Type u} {F : ε → Prop}

theorem fails_ok (x : α) : Fails F (.ok x) := fun e he => by cases he

theorem fails_error {e : ε} (h : F e) : Fails F (.error e : Except ε α) := by
  intro e' he
  cases he
  exact h

theorem bind_eq_ok {x : Except ε α} {k : α → Except ε β} {b : β} :
    x >>= k = .ok b ↔ ∃ a, x = .ok a ∧ k a = .ok b := by
  cases x with
  | error e =>
    constructor
    · intro h
      cases h
    · rintro ⟨a, h, -⟩
      cases h
  | ok a =>
    constructor
    · intro h
      exact ⟨a, rfl, h⟩
    · rintro ⟨a', h, hk⟩
      cases h
      exact hk

theorem Fails.bind_of_ok {x : Except ε α} {k : α → Except ε β} (hx : Fails F x)
    (hk : ∀ a, x = .ok a → Fails F (k a)) : Fails F (x >>= k) := by
  cases x with
  | error e => exact fails_error (hx e rfl)
  | ok a => exact hk a rfl

theorem Fails.bind {x : Except ε α} {k : α → Except ε β} (hx : Fails F x) (hk : ∀ a, Fails F (k a)) :
    Fails F (x >>= k) :=
  hx.bind_of_ok fun a _ => hk a

theorem Fails.map {x : Except ε α} {g : α → β} (hx : Fails F x) : Fails F (x.map g) := by
  cases x with
  | error e => exact fails_error (hx e rfl)
  | ok a => exact fails_ok _

theorem Fails.imp {F' : ε → Prop} {x : Except ε α} (h : Fails F x) (hF : ∀ e, F e → F' e) :
    Fails F' x := fun e he => hF e (h e he)

end

theorem plain_type (f : TypeFault) : Fault.Plain (.type f) := fun _ h => nomatch h

theorem plain_limit (f : LimitFault) : Fault.Plain (.limit f) := fun _ h => nomatch h

namespace Value

theorem fails_checkStringBytes (size : Nat) (limits : Limits) :
    Fails Fault.Plain (checkStringBytes size limits) := by
  unfold checkStringBytes
  split
  · exact fails_error (plain_limit _)
  · exact fails_ok ()

theorem fails_checkArrayLength (size : Nat) (limits : Limits) :
    Fails Fault.Plain (checkArrayLength size limits) := by
  unfold checkArrayLength
  split
  · exact fails_error (plain_limit _)
  · exact fails_ok ()

section
variable {limits : Limits} {size : Nat} {v w : Value}

theorem checkArrayLength_eq_ok : checkArrayLength size limits = .ok () ↔ size ≤ limits.maxArrayLength := by
  unfold checkArrayLength
  split
  · next hlong => exact iff_of_false (fun h => by cases h) (Nat.not_le.2 hlong)
  · next hroom => exact iff_of_true rfl (Nat.not_lt.1 hroom)

theorem checked_eq_ok {check : Except Fault Unit} (h : (do check; return v) = .ok w) : check = .ok () ∧ v = w := by
  obtain ⟨u, hcheck, hv⟩ := bind_eq_ok.1 h
  exact ⟨hcheck, Except.ok.inj hv⟩

end

theorem fails_add (limits : Limits) (a b : Value) : Fails Fault.Plain (add limits a b) := by
  have hconcat : ∀ s, Fails Fault.Plain (add.concat limits s) := fun s =>
    (fails_checkStringBytes _ _).bind fun _ => fails_ok _
  unfold add
  split
  · exact fails_ok _
  · exact (fails_checkArrayLength _ _).bind fun _ => fails_ok _
  · exact hconcat _
  · exact hconcat _
  · exact fails_error (plain_type _)

theorem fails_replicate (limits : Limits) (s : String) (count : Value) :
    Fails Fault.Plain (replicate limits s count) := by
  unfold replicate
  split
  · exact (fails_checkStringBytes _ _).bind fun _ => fails_ok _
  · exact fails_error (plain_type _)

theorem fails_multiply (limits : Limits) (a b : Value) : Fails Fault.Plain (multiply limits a b) := by
  unfold multiply
  split
  · exact fails_ok _
  · exact fails_replicate _ _ _
  · exact fails_replicate _ _ _
  · exact fails_error (plain_type _)

theorem fails_divide (a b : Value) : Fails Fault.Plain (divide a b) := by
  unfold divide
  split
  · split
    · exact fails_error fun _ h => nomatch h
    · exact fails_ok _
  · exact fails_error (plain_type _)

theorem fails_modulo (a b : Value) : Fails Fault.Plain (modulo a b) := by
  unfold modulo
  split
  · split
    · exact fails_error fun _ h => nomatch h
    · exact fails_ok _
  · exact fails_error (plain_type _)

theorem fails_compare (op : BinaryOp) (a b : Value) : Fails Fault.Plain (compare op a b) := by
  unfold compare
  split
  · split_ifs
    · exact fails_ok _
    · exact fails_ok _
    · exact fails_ok _
    · exact fails_error (plain_type _)
  · exact fails_ok _
  · exact fails_error (plain_type _)

/-- Only a logical operator has a fault of the code. -/
def LogicalOnly (e : Fault) : Prop :=
  e.Plain ∨ e = .code (.logicalOperator .and) ∨ e = .code (.logicalOperator .or)

theorem plain_binary (limits : Limits) {op : BinaryOp} (hand : op ≠ .and) (hor : op ≠ .or)
    (a b : Value) : Fails Fault.Plain (binary limits op a b) := by
  cases op with
  | add => exact fails_add _ _ _
  | mul => exact fails_multiply _ _ _
  | div => exact fails_divide _ _
  | mod => exact fails_modulo _ _
  | sub | pow =>
    simp only [binary]
    split
    · exact fails_ok _
    · exact fails_error (plain_type _)
  | equal | notEqual => exact fails_ok _
  | less | lessEqual | greater | greaterEqual => exact (fails_compare _ _ _).map
  | and => exact absurd rfl hand
  | or => exact absurd rfl hor

theorem fails_binary (limits : Limits) (op : BinaryOp) (a b : Value) :
    Fails LogicalOnly (binary limits op a b) := by
  by_cases hand : op = .and
  · subst hand
    exact fails_error (.inr (.inl rfl))
  by_cases hor : op = .or
  · subst hor
    exact fails_error (.inr (.inr rfl))
  exact (plain_binary limits hand hor a b).imp fun _ he => .inl he

theorem fails_unary (op : UnaryOp) (v : Value) : Fails Fault.Plain (unary op v) := by
  unfold unary
  split
  · exact fails_ok _
  · exact fails_ok _
  · exact fails_error (plain_type _)

theorem fails_place (key : Value) (length : Nat) : Fails Fault.Plain (place key length) := by
  unfold place
  split
  · exact fails_error (plain_type _)
  · split
    · exact fails_ok _
    · exact fails_error fun _ h => nomatch h

theorem fails_index (object key : Value) : Fails Fault.Plain (index object key) := by
  unfold index
  split
  · exact (fails_place _ _).bind fun _ => fails_ok _
  · exact (fails_place _ _).bind fun _ => fails_ok _
  · exact fails_ok _
  · exact fails_error (plain_type _)
  · exact fails_error (plain_type _)

theorem fails_items (v : Value) : Fails Fault.Plain v.items := by
  unfold items
  split
  · exact fails_ok _
  · exact fails_ok _
  · exact fails_ok _
  · exact fails_error (plain_type _)

end Value

end Persona
