import Persona.Proofs.Decimal.Sign
import Persona.Proofs.Decimal.Text
import Persona.Proofs.Token.Munch

/-! Numbers as a program's text has them.

A number that has no sign is written as a number token and read back. A number below zero is written as
the number above zero behind a sign, and both zeros are written as one. -/
namespace Persona.Decimal

/-- A number that can be written with digits alone: finite and without a sign. -/
def Plain (x : Float) : Prop := ∃ p, classify x = .finite p ∧ p.negative = false

/-- Whether a number is below zero. -/
def belowZero (x : Float) : Bool :=
  match classify x with
  | .finite p => p.negative && p.mantissa != 0
  | _ => false

/-- The number, with both zeros taken for one. -/
def oneZero (x : Float) : Float := if integer? x = some 0 then 0.0 else x

section
variable {x : Float}

theorem exists_parts (hx : isFinite x = true) : ∃ p, classify x = .finite p := by
  unfold isFinite at hx
  split at hx
  · next p hp => exact ⟨p, hp⟩
  · cases hx

theorem Plain.isFinite (hx : Plain x) : isFinite x = true := by
  obtain ⟨p, hp, -⟩ := hx
  rw [Decimal.isFinite, hp]

theorem Plain.belowZero (hx : Plain x) : belowZero x = false := by
  obtain ⟨p, hp, hneg⟩ := hx
  rw [Decimal.belowZero, hp]
  simp only
  rw [hneg, Bool.false_and]

/-! ### Zeros -/

theorem integer?_zero : integer? 0.0 = some 0 := by decide +kernel

theorem oneZero_of_zero (h : integer? x = some 0) : oneZero x = 0.0 := if_pos h

theorem oneZero_of_ne (h : integer? x ≠ some 0) : oneZero x = x := if_neg h

theorem oneZero_oneZero (x : Float) : oneZero (oneZero x) = oneZero x := by
  by_cases h : integer? x = some 0
  · rw [oneZero_of_zero h, oneZero_of_zero integer?_zero]
  · rw [oneZero_of_ne h, oneZero_of_ne h]

/-- The zero without a sign. -/
theorem eq_zero {p : Parts} (h : classify x = .finite p) (hneg : p.negative = false) (hzero : p.mantissa = 0) :
    x = 0.0 := by
  obtain ⟨s, e, f, he, hf, hbits⟩ := exists_fields x.toBits
  have hmax : e ≠ 2047 := by
    rintro rfl
    exact ofBits_top s hf hbits p h
  rw [classify] at h
  rcases Nat.eq_zero_or_pos e with rfl | hpos
  · rw [Nat.zero_mul, Nat.add_zero] at hbits
    rw [ofBits_small s hf hbits] at h
    cases h
    simp only at hneg hzero
    have hs : s.toBitVec.toNat = 0 := by
      cases s with
      | positive => rfl
      | negative => cases hneg
    have hall : x.toBits = 0 := by
      apply UInt64.toNat_inj.1
      rw [hbits, hs, hzero]
      rfl
    have hnone : (0.0 : Float).toBits = 0 := by decide +kernel
    rw [← ofBits_toBits x, hall, ← hnone, ofBits_toBits]
  · rw [ofBits_normal s hpos (by omega) hf hbits] at h
    cases h
    simp only at hzero
    omega

/-! ### Numbers without a sign -/

theorem writes_zero : Writes "0" 0 0 := writes_whole 0 0 rfl

theorem nearest_zero : nearest 0 0 = 0.0 := rfl

/-- A number without a sign is read back. -/
theorem parse?_number (hx : Plain x) : parse? (number x) = some x := by
  obtain ⟨p, hp, hneg⟩ := hx
  rcases Nat.eq_zero_or_pos p.mantissa with hzero | hpos
  · have hint : integer? x = some 0 := by rw [integer?_of_classify hp, integer?_of_zero hzero]
    rw [number_of_zero hint, writes_zero.parse?, nearest_zero, eq_zero hp hneg hzero]
  · exact parse?_number_of_pos hp hneg hpos

theorem sign_of_belowZero {p : Parts} (hp : classify x = .finite p) (hneg : belowZero x = false) :
    p.mantissa = 0 ∨ p.negative = false ∧ 0 < p.mantissa := by
  unfold belowZero at hneg
  rw [hp] at hneg
  rcases Nat.eq_zero_or_pos p.mantissa with hzero | hpos
  · exact .inl hzero
  · refine .inr ⟨?_, hpos⟩
    simpa [hpos.ne'] using hneg

theorem parse?_number_of_finite (hx : isFinite x = true) (hneg : belowZero x = false) :
    parse? (number x) = some (oneZero x) := by
  obtain ⟨p, hp⟩ := exists_parts hx
  rcases sign_of_belowZero hp hneg with hzero | ⟨hsign, hpos⟩
  · have hint : integer? x = some 0 := by rw [integer?_of_classify hp, integer?_of_zero hzero]
    rw [number_of_zero hint, writes_zero.parse?, nearest_zero, oneZero_of_zero hint]
  · have hint : integer? x ≠ some 0 := by
      rw [integer?_of_classify hp]
      exact fun h => hpos.ne' (mantissa_of_zero h)
    rw [parse?_number ⟨p, hp, hsign⟩, oneZero_of_ne hint]

theorem Writes.isNumber {s : String} {m : ℕ} {e : ℤ} (h : Writes s m e) : Lexer.IsNumber s := by
  obtain ⟨whole, fraction, hne, hdigits, hs, -, -⟩ := h
  refine ⟨whole, _, hs, ⟨hne, fun c hc => hdigits c (List.mem_append_left _ hc)⟩, ?_⟩
  split
  · exact .inl rfl
  · next hfrac => exact .inr ⟨fraction, rfl, hfrac, fun c hc => hdigits c (List.mem_append_right _ hc)⟩

/-- A number that is not below zero is written as a number token. -/
theorem isNumber_number (hx : isFinite x = true) (hneg : belowZero x = false) : Lexer.IsNumber (number x) := by
  obtain ⟨p, hp⟩ := exists_parts hx
  rcases sign_of_belowZero hp hneg with hzero | ⟨hsign, hpos⟩
  · have hint : integer? x = some 0 := by rw [integer?_of_classify hp, integer?_of_zero hzero]
    rw [number_of_zero hint]
    exact writes_zero.isNumber
  · obtain ⟨m, e, hwrites, -⟩ := number_writes hp hsign hpos
    exact hwrites.isNumber

theorem exists_nearest {cs : List Char} (h : unsigned? cs = some x) : ∃ m e, x = nearest m e := by
  unfold unsigned? at h
  simp only at h
  -- with a point or without one
  split at h
  all_goals
    split at h
    · cases h
    · split at h
      · exact ⟨_, _, (Option.some.inj h).symm⟩
      · split at h
        · -- the sign of the exponent
          split at h
          all_goals
            split at h
            · cases h
            · exact ⟨_, _, (Option.some.inj h).symm⟩
        · cases h

theorem not_isFinite_of_named? {cs : List Char} (h : named? cs = some x) : isFinite x = false := by
  unfold named? at h
  split at h
  · rw [← Option.some.inj h]
    decide +kernel
  · rw [← Option.some.inj h]
    decide +kernel
  · rw [← Option.some.inj h]
    decide +kernel
  · cases h

/-- What a text denotes that begins with a digit has no sign. -/
theorem plain_of_parse? {s : String} {c : Char} {cs : List Char} (hs : s.toList = c :: cs) (hc : Lexer.isDigit c = true)
    (hx : parse? s = some x) (hfinite : Decimal.isFinite x = true) : Plain x := by
  have hmagnitude : (unsigned? (c :: cs)).or (named? (c :: cs)) = some x := by
    unfold parse? at hx
    rw [hs] at hx
    simp only at hx
    split at hx
    · next heq =>
      rw [(List.cons.inj heq).1] at hc
      exact absurd hc (by decide)
    · next heq =>
      rw [(List.cons.inj heq).1] at hc
      exact absurd hc (by decide)
    · exact hx
  have hunsigned : unsigned? (c :: cs) = some x := by
    rcases Option.or_eq_some_iff.1 hmagnitude with hsome | ⟨-, hnamed⟩
    · exact hsome
    · rw [not_isFinite_of_named? hnamed] at hfinite
      cases hfinite
  obtain ⟨m, e, rfl⟩ := exists_nearest hunsigned
  obtain ⟨p, hp⟩ := exists_parts hfinite
  exact ⟨p, hp, (unsigned_nearest m e).negative hp⟩

/-! ### Numbers below zero -/

theorem integer?_negate (p : Parts) :
    Parts.integer? { p with negative := !p.negative } = p.integer?.map (- ·) := by
  unfold Parts.integer?
  simp only [Option.map_map]
  congr 1
  funext n
  cases p.negative <;> simp

theorem integerBelow?_neg {bound : ℕ} {p : Parts} (hp : classify x = .finite p) :
    integerBelow? bound (-x) = (integerBelow? bound x).map (- ·) := by
  have hint : integer? (-x) = (integer? x).map (- ·) := by
    rw [integer?_of_classify hp, integer?_of_classify (classify_neg hp), integer?_negate]
  rw [integerBelow?, integerBelow?, hint]
  cases integer? x with
  | none => rfl
  | some i => simp only [Option.map_some, Option.filter_some, Int.natAbs_neg]; split <;> rfl

/-- A number below zero is written as the number above zero behind a sign. -/
theorem number_of_belowZero (hx : isFinite x = true) (hneg : belowZero x = true) :
    number x = "-" ++ number (-x) := by
  obtain ⟨p, hp⟩ := exists_parts hx
  obtain ⟨hsign, hne⟩ : p.negative = true ∧ p.mantissa ≠ 0 := by
    unfold belowZero at hneg
    rw [hp] at hneg
    simpa using hneg
  have hbelow : integerBelow? (tenTo 15) (-x) = (integerBelow? (tenTo 15) x).map (- ·) := integerBelow?_neg hp
  cases hint : integerBelow? (tenTo 15) x with
  | some i =>
    rw [hint] at hbelow
    rw [number_of_integer hint, number_of_integer hbelow]
    rw [integerBelow?, Option.filter_eq_some_iff, integer?_of_classify hp] at hint
    obtain ⟨n, rfl, -⟩ := value_of_integer? hint.1
    rw [hsign, if_pos rfl] at hint ⊢
    have hn : n ≠ 0 := by
      rintro rfl
      exact hne (mantissa_of_zero hint.1)
    obtain ⟨k, rfl⟩ := Nat.exists_eq_succ_of_ne_zero hn
    show toString (-((k + 1 : ℕ) : ℤ)) = "-" ++ toString (- -((k + 1 : ℕ) : ℤ))
    rw [Int.neg_neg]
    rfl
  | none =>
    rw [hint] at hbelow
    rw [number_of_positional hint, number_of_positional hbelow, positional, positional, hp, classify_neg hp]
    simp only [hsign, if_neg hne]
    rfl

theorem plain_neg (hx : isFinite x = true) (hneg : belowZero x = true) : Plain (-x) := by
  obtain ⟨p, hp⟩ := exists_parts hx
  unfold belowZero at hneg
  rw [hp] at hneg
  refine ⟨_, classify_neg hp, ?_⟩
  simp only at hneg ⊢
  rw [(Bool.and_eq_true_iff.1 hneg).1]
  rfl

end

end Persona.Decimal
