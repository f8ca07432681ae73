import Persona.Proofs.Decimal.Plain

/-! How numbers compare.

Arithmetic takes a number apart into its sign, mantissa and exponent and compares and
calculates with these. Two numbers are equal if they are the same number and not NaN, or if
both are zeros. -/
namespace Persona.Decimal
open Float.Model Float.Model.UnpackedFloat

/-- What arithmetic has for a number. -/
def taken (x : Float) : UnpackedFloat := Float.Model.unpack x.toModel

theorem eq_of_taken {x y : Float} (h : taken x = taken y) : x = y := by
  obtain ⟨a⟩ := x
  obtain ⟨b⟩ := y
  have hmodel : a.unpack = b.unpack := h
  rw [← model_pack_unpack a, ← model_pack_unpack b, hmodel]

theorem isNaN_iff {x : Float} : x.isNaN = true ↔ taken x = .notANumber := by
  show (taken x).isNaN = true ↔ _
  cases taken x <;> simp [UnpackedFloat.isNaN]

theorem isNaN_eq_false_iff {x : Float} : x.isNaN = false ↔ taken x ≠ .notANumber := by
  rw [Bool.eq_false_iff, ne_eq, isNaN_iff]

/-! ### Equality -/

/-- Both zeros are equal, so that equal numbers need not be the same. -/
def IsZero (x : Float) : Prop := x = 0.0 ∨ x = -0.0

theorem taken_zero : taken 0.0 = .zero .positive := rfl

theorem taken_neg_zero : taken (-0.0) = .zero .negative := rfl

theorem isZero_iff {x : Float} : IsZero x ↔ ∃ s, taken x = .zero s := by
  constructor
  · rintro (rfl | rfl)
    · exact ⟨_, taken_zero⟩
    · exact ⟨_, taken_neg_zero⟩
  · rintro ⟨s, hs⟩
    cases s with
    | positive => exact .inl (eq_of_taken (hs.trans taken_zero.symm))
    | negative => exact .inr (eq_of_taken (hs.trans taken_neg_zero.symm))

theorem compare_sign (s : Sign) : compare s s = .eq := by cases s <;> rfl

theorem compare_eq {a b : UnpackedFloat} :
    a.compare b = some .eq ↔ a = b ∧ a ≠ .notANumber ∨ (∃ s, a = .zero s) ∧ ∃ s, b = .zero s := by
  rcases a with (_ | _) | _ | (_ | _) | ⟨_ | _, m, e, hm⟩ <;>
    rcases b with (_ | _) | _ | (_ | _) | ⟨_ | _, m', e', hm'⟩ <;>
      simp [UnpackedFloat.compare, compare_sign, Ordering.swap_eq_eq, and_comm]

theorem beq_iff {x y : Float} : (x == y) = true ↔ x = y ∧ x.isNaN = false ∨ IsZero x ∧ IsZero y := by
  have hcompare : (x == y) = true ↔ (taken x).compare (taken y) = some .eq := by
    show ((taken x).compare (taken y) == some Ordering.eq) = true ↔ _
    rw [beq_iff_eq]
  rw [hcompare, compare_eq, isZero_iff, isZero_iff, isNaN_eq_false_iff]
  constructor
  · rintro (⟨h, hne⟩ | h)
    · exact .inl ⟨eq_of_taken h, hne⟩
    · exact .inr h
  · rintro (⟨rfl, hne⟩ | h)
    · exact .inl ⟨rfl, hne⟩
    · exact .inr h

/-- Equality does not see the sign of a zero, and NaN is not equal to itself. -/
theorem beq_symm {x y : Float} (h : (x == y) = true) : (y == x) = true := by
  rw [beq_iff] at h ⊢
  rcases h with ⟨rfl, hx⟩ | ⟨hx, hy⟩
  · exact .inl ⟨rfl, hx⟩
  · exact .inr ⟨hy, hx⟩

theorem beq_trans {x y z : Float} (h : (x == y) = true) (h' : (y == z) = true) : (x == z) = true := by
  rw [beq_iff] at h
  rcases h with ⟨rfl, -⟩ | ⟨hx, hy⟩
  · exact h'
  · rw [beq_iff] at h' ⊢
    rcases h' with ⟨rfl, -⟩ | ⟨-, hz⟩
    · exact .inr ⟨hx, hy⟩
    · exact .inr ⟨hx, hz⟩

theorem not_isNaN_of_isZero {x : Float} (h : IsZero x) : x.isNaN = false := by
  rcases h with rfl | rfl <;> rfl

theorem beq_self_iff {x : Float} : (x == x) = true ↔ x.isNaN = false := by
  rw [beq_iff]
  constructor
  · rintro (⟨-, h⟩ | ⟨h, -⟩)
    · exact h
    · exact not_isNaN_of_isZero h
  · exact fun h => .inl ⟨rfl, h⟩

theorem number_of_isZero {x : Float} (h : IsZero x) : number x = "0" := by
  apply number_of_zero
  rcases h with rfl | rfl
  · exact integer?_zero
  · decide +kernel

/-- Equal numbers are printed as one text. -/
theorem number_of_beq {x y : Float} (h : (x == y) = true) : number x = number y := by
  rcases beq_iff.1 h with ⟨rfl, -⟩ | ⟨hx, hy⟩
  · rfl
  · rw [number_of_isZero hx, number_of_isZero hy]

theorem bne_zero_of_beq {x y : Float} (h : (x == y) = true) : (x != 0.0) = (y != 0.0) := by
  have hiff : (x == 0.0) = true ↔ (y == 0.0) = true :=
    ⟨fun hx => beq_trans (beq_symm h) hx, fun hy => beq_trans h hy⟩
  rw [bne, bne, Bool.eq_iff_iff.2 hiff]

end Persona.Decimal
