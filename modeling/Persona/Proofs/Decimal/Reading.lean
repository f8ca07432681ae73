import Persona.Decimal.Reading
import Persona.Proofs.Decimal.Rounding

/-! Decimals read as numbers.

A decimal in the interval of a number is read as that number, whether it is computed from numbers that
are exact or from naturals. -/
namespace Persona.Decimal
open Float.Model Float.Model.UnpackedFloat

/-! ### The parts of a number -/

theorem packComponents_of_fields {bits : UInt64} {s : Sign} {e f : ℕ} (he : e < 2048) (hf : f < 2 ^ 52)
    (h : bits.toNat = s.toBitVec.toNat * 2 ^ 63 + e * 2 ^ 52 + f) :
    bits.toBitVec = packComponents Format.binary64 s (BitVec.ofNat 11 e) (BitVec.ofNat 52 f) := by
  apply BitVec.eq_of_toNat_eq
  rw [toNat_packComponents, BitVec.toNat_ofNat, BitVec.toNat_ofNat, Nat.mod_eq_of_lt he, Nat.mod_eq_of_lt hf]
  exact h

theorem unpack_small (s : Sign) {f : ℕ} (hf : f < 2 ^ 52) (hpos : 0 < f) :
    UnpackedFloat.unpack Format.binary64 (packComponents Format.binary64 s 0#11 (BitVec.ofNat 52 f)) =
      .finite s f (-1074) hpos := by
  have hnat : (BitVec.ofNat 52 f).toNat = f := by
    rw [BitVec.toNat_ofNat, Nat.mod_eq_of_lt hf]
  have hne : BitVec.ofNat 52 f ≠ 0#52 := by
    intro h
    have := hnat.symm.trans (congrArg BitVec.toNat h)
    simp only [BitVec.toNat_zero] at this
    omega
  unfold UnpackedFloat.unpack
  simp only [unpackMantissa_packComponents, unpackExponent_packComponents, unpackSign_packComponents,
    ofBitVec_toBitVec]
  rw [if_neg (by decide), if_pos trivial, dif_neg hne]
  simp only [hnat]
  rfl

/-- The parts that bits denote, and what arithmetic takes them for. -/
theorem unpack_of_finite {bits : UInt64} {p : Parts} (h : Class.ofBits bits = .finite p) :
    p.Canonical ∧ ∃ s : Sign, p.negative = (s.toBitVec.toNat == 1) ∧ ∀ hpos : 0 < p.mantissa,
      UnpackedFloat.unpack Format.binary64 bits.toBitVec = .finite s p.mantissa p.exponent hpos := by
  obtain ⟨s, e, f, he, hf, hbits⟩ := exists_fields bits
  have hpack := packComponents_of_fields he hf hbits
  rcases Nat.eq_zero_or_pos e with rfl | hpos
  · rw [Nat.zero_mul, Nat.add_zero] at hbits
    rw [ofBits_small s hf hbits] at h
    cases h
    refine ⟨⟨by simp only; omega, le_rfl, by simp, .inl rfl, by simp⟩, s, rfl, fun hpos => ?_⟩
    rw [hpack]
    exact unpack_small s hf hpos
  rcases Nat.lt_or_eq_of_le (Nat.le_of_lt_succ he) with hlow | rfl
  · rw [ofBits_normal s hpos hlow hf hbits] at h
    cases h
    refine ⟨⟨by simp only; omega, by simp only; omega, by simp only; omega, .inr (by simp only; omega), ?_⟩, s, rfl,
      fun _ => ?_⟩
    · simp only [Bool.and_eq_true, beq_iff_eq, bne_iff_ne]
      omega
    · have hnat : (BitVec.ofNat 11 e).toNat = e := by
        rw [BitVec.toNat_ofNat]
        omega
      have hzero : BitVec.ofNat 11 e ≠ 0#11 := by
        intro h0
        have := hnat.symm.trans (congrArg BitVec.toNat h0)
        simp only [BitVec.toNat_zero] at this
        omega
      have hmax : BitVec.ofNat 11 e ≠ -1#11 := by
        intro h0
        have := hnat.symm.trans (congrArg BitVec.toNat h0)
        have hall : (-1#11).toNat = 2047 := rfl
        omega
      obtain ⟨hm, hu⟩ := unpack_packComponents s (m := BitVec.ofNat 52 f) hzero hmax
      have hfnat : (BitVec.ofNat 52 f).toNat = f := by rw [BitVec.toNat_ofNat, Nat.mod_eq_of_lt hf]
      rw [hpack, hu]
      simp only [hnat, hfnat]
  · exact absurd h (ofBits_top s hf hbits p)

theorem canonical_of_classify {x : Float} {p : Parts} (h : classify x = .finite p) : p.Canonical := (unpack_of_finite h).1

theorem model_pack_unpack (a : Float.Model) : Float.Model.pack a.unpack = a := by
  obtain ⟨bits, valid⟩ := a
  have hbits := congrArg UInt64.ofBitVec (pack_unpack valid.eq_packedNaN)
  exact (Float.Model.mk.injEq ..).mpr hbits

/-- What arithmetic takes a number without sign for. -/
theorem unpack_of_classify {x : Float} {p : Parts} (h : classify x = .finite p) (hneg : p.negative = false)
    (hpos : 0 < p.mantissa) : x.toModel.unpack = .finite .positive p.mantissa p.exponent hpos := by
  obtain ⟨-, s, hs, hunpack⟩ := unpack_of_finite h
  obtain rfl : s = .positive := by
    cases s with
    | positive => rfl
    | negative => rw [hneg] at hs; cases hs
  exact hunpack hpos

/-- A number is what arithmetic makes of its parts. -/
theorem pack_of_classify {x : Float} {p : Parts} (h : classify x = .finite p) (hneg : p.negative = false)
    (hpos : 0 < p.mantissa) :
    Float.ofModel (Float.Model.pack (.finite .positive p.mantissa p.exponent hpos)) = x := by
  rw [← unpack_of_classify h hneg hpos]
  exact congrArg Float.ofModel (model_pack_unpack x.toModel)

/-! ### Powers of ten -/

/-- The parts that denote a power of ten. -/
def Parts.isTenTo (k : ℕ) (p : Parts) : Bool :=
  !p.negative && (0 < p.mantissa && -52 ≤ p.exponent) && p.mantissa * 2 ^ (p.exponent + 52).toNat == 10 ^ k * 2 ^ 52

theorem Parts.value_of_isTenTo {k : ℕ} {p : Parts} (h : p.isTenTo k = true) :
    p.negative = false ∧ 0 < p.mantissa ∧ p.value = 10 ^ k := by
  simp only [isTenTo, Bool.and_eq_true, Bool.not_eq_true', decide_eq_true_eq, beq_iff_eq] at h
  obtain ⟨⟨hneg, hpos, hle⟩, heq⟩ := h
  refine ⟨hneg, hpos, ?_⟩
  obtain ⟨n, hn⟩ : ∃ n : ℕ, p.exponent + 52 = n := Int.eq_ofNat_of_zero_le (by omega)
  rw [hn, Int.toNat_natCast] at heq
  have hcast : (p.mantissa : ℚ) * 2 ^ n = 10 ^ k * 2 ^ 52 := by exact_mod_cast heq
  have he : p.exponent = n - 52 := by omega
  rw [value, he, zpow_sub₀ two_ne_zero, zpow_natCast, ← mul_div_assoc, hcast, div_eq_iff (two_zpow_pos 52).ne']
  rfl

def Class.isTenTo (k : ℕ) : Class → Bool
  | .finite p => p.isTenTo k
  | _ => false

/-- The powers of ten that a number holds exactly. -/
theorem classify_powerOfTen (k : Fin 23) : ∃ p, classify Float.exactlyRepresentablePowersOfTen[k] = .finite p ∧
    p.isTenTo k = true := by
  have hall : ∀ k : Fin 23, (classify Float.exactlyRepresentablePowersOfTen[k]).isTenTo k = true := by decide +kernel
  have hk := hall k
  unfold Class.isTenTo at hk
  split at hk
  · next p hp => exact ⟨p, hp, hk⟩
  · cases hk

/-! ### Decimals -/

theorem toUInt64_toFloat_eq {n : ℕ} (hn : 0 < n) (h : n < 2 ^ 53) (hm : 0 < n * 2 ^ room n) :
    n.toUInt64.toFloat = Float.ofModel (Float.Model.pack (widened .positive n hm)) := by
  have hword : n.toUInt64.toNat = n := by
    simp
    omega
  have hsign : compare (n : ℤ) 0 = .gt := by
    rw [compare_gt_iff_gt]
    omega
  obtain ⟨_, hr⟩ := round_exact .positive hn h
  rw [widened, ← hr]
  unfold UInt64.toFloat Float.Model.ofUInt64 UnpackedFloat.ofUInt64 UnpackedFloat.ofNat UnpackedFloat.ofInt
    UnpackedFloat.normalize
  rw [hword, hsign]
  rfl

section
variable {x : Float} {p : Parts} {m : ℕ}

/-- A decimal is read with the powers of ten that are exact. -/
theorem ofScientific_of_small (h : classify x = .finite p) (hneg : p.negative = false) (hpos : 0 < p.mantissa)
    (hm : 0 < m) (hsmall : m < 2 ^ 53) {k : ℕ} (hk : k ≤ 22) (below : Bool)
    (hq : p.Captures (if below = true then m / 10 ^ k else m * 10 ^ k)) : Float.ofScientific m below k = x := by
  have hp := canonical_of_classify h
  unfold Float.ofScientific
  rw [dif_pos ⟨hsmall, hk⟩]
  have hmul : 0 < m * 2 ^ room m := Nat.mul_pos hm (by positivity)
  have hvalue : ((m * 2 ^ room m : ℕ) : ℚ) * 2 ^ (-(room m : ℤ)) = m := by
    rw [zpow_neg, zpow_natCast, Nat.cast_mul, Nat.cast_pow, Nat.cast_ofNat, mul_assoc,
      mul_inv_cancel₀ (by positivity), mul_one]
  rw [toUInt64_toFloat_eq hm hsmall hmul]
  have hu : Float.Model.unpack (Float.Model.pack (widened .positive m hmul)) = widened .positive m hmul :=
    unpack_pack_widened .positive hm hsmall hmul
  obtain ⟨t, ht, hten⟩ := classify_powerOfTen ⟨k, by omega⟩
  obtain ⟨htneg, htpos, htvalue⟩ := Parts.value_of_isTenTo hten
  have hunpack := unpack_of_classify ht htneg htpos
  rw [Parts.value] at htvalue
  cases below with
  | true =>
    rw [if_pos rfl, ← hvalue, ← htvalue] at hq
    have hdiv := div_finite hp hpos hmul htpos hq
    rw [← pack_of_classify h hneg hpos, ← hdiv]
    show Float.ofModel (Float.Model.pack (UnpackedFloat.div Format.binary64 (Float.Model.unpack _) (Float.Model.unpack _))) = _
    rw [hu]
    exact congrArg (fun u => Float.ofModel (Float.Model.pack (UnpackedFloat.div Format.binary64 _ u))) hunpack
  | false =>
    rw [if_neg Bool.false_ne_true, ← hvalue, ← htvalue] at hq
    have hbits : 2 ^ 52 ≤ m * 2 ^ room m * t.mantissa :=
      (mantissa_bounds hm hsmall).1.trans (Nat.le_mul_of_pos_right _ htpos)
    have hmul := mul_finite hp hpos hmul htpos hbits hq
    rw [← pack_of_classify h hneg hpos, ← hmul]
    show Float.ofModel (Float.Model.pack (UnpackedFloat.mul Format.binary64 (Float.Model.unpack _) (Float.Model.unpack _))) = _
    rw [hu]
    exact congrArg (fun u => Float.ofModel (Float.Model.pack (UnpackedFloat.mul Format.binary64 _ u))) hunpack

/-- A decimal is read with naturals. -/
theorem ofScientific_of_large (h : classify x = .finite p) (hneg : p.negative = false) (hpos : 0 < p.mantissa)
    (hm : 0 < m) {e : ℤ} (hlow : -(2048 + (m.log2 : ℤ)) ≤ e) (hhigh : e ≤ 2048)
    (hq : p.Captures (m * 10 ^ e)) : Float.ofModel (Float.Model.ofScientific m e) = x := by
  have hp := canonical_of_classify h
  rw [← pack_of_classify h hneg hpos]
  unfold Float.Model.ofScientific UnpackedFloat.ofScientific
  have htwo : (2 : ℤ) ^ Format.binary64.exponentBits = 2048 := rfl
  rw [dif_neg hm.ne', htwo, if_neg (by omega), if_neg (by omega)]
  split
  · next hnonneg =>
    obtain ⟨n, rfl⟩ := Int.eq_ofNat_of_zero_le hnonneg
    simp only [Int.toNat_natCast]
    congr 2
    have hten : 0 < 10 ^ n := by positivity
    refine mul_finite hp hpos _ hten ?_ ?_
    · rw [Nat.shiftLeft_eq]
      calc 2 ^ 52 ≤ 1 * 2 ^ 53 * 1 := by norm_num
        _ ≤ m * 2 ^ 53 * 10 ^ n := Nat.mul_le_mul (Nat.mul_le_mul_right _ hm) hten
    · have hvalue : ((m <<< Format.binary64.mantissaBits : ℕ) : ℚ) * 2 ^ (-(Format.binary64.mantissaBits : ℤ)) = m := by
        rw [Nat.shiftLeft_eq, zpow_neg, zpow_natCast, Nat.cast_mul, Nat.cast_pow, Nat.cast_ofNat, mul_assoc,
          mul_inv_cancel₀ (by positivity), mul_one]
      rw [hvalue, zpow_zero, mul_one, Nat.cast_pow, Nat.cast_ofNat, ← zpow_natCast]
      exact hq
  · next hbelow =>
    obtain ⟨n, rfl⟩ : ∃ n : ℕ, e = -n := ⟨e.natAbs, by omega⟩
    simp only [Int.neg_neg, Int.toNat_natCast]
    congr 2
    have hten : 0 < 10 ^ n := by positivity
    refine div_finite hp hpos _ hten ?_
    rw [zpow_zero, mul_one, mul_one, Nat.cast_pow, Nat.cast_ofNat, div_eq_mul_inv, ← zpow_natCast, ← zpow_neg]
    exact hq

/-- A decimal in the interval of a number is read as that number. -/
theorem ofScientific_eq (h : classify x = .finite p) (hneg : p.negative = false) (hpos : 0 < p.mantissa)
    (hm : 0 < m) {e : ℤ} (hlow : -(2048 + (m.log2 : ℤ)) ≤ e) (hhigh : e ≤ 2048) (hq : p.Captures (m * 10 ^ e)) :
    Float.ofScientific m (e < 0) e.natAbs = x := by
  by_cases hsmall : m < 2 ^ 53 ∧ e.natAbs ≤ 22
  · refine ofScientific_of_small h hneg hpos hm hsmall.1 hsmall.2 _ ?_
    by_cases hbelow : e < 0
    · obtain ⟨n, rfl⟩ : ∃ n : ℕ, e = -n := ⟨e.natAbs, by omega⟩
      rw [if_pos (decide_eq_true hbelow), Int.natAbs_neg, Int.natAbs_natCast, div_eq_mul_inv, ← zpow_natCast, ← zpow_neg]
      exact hq
    · obtain ⟨n, rfl⟩ := Int.eq_ofNat_of_zero_le (not_lt.1 hbelow)
      rw [if_neg (by simp), Int.natAbs_natCast, ← zpow_natCast]
      exact hq
  · unfold Float.ofScientific
    rw [dif_neg hsmall]
    have he : (if decide (e < 0) = true then Int.negOfNat e.natAbs else Int.ofNat e.natAbs) = e := by
      split
      · next hbelow =>
        have := of_decide_eq_true hbelow
        rw [Int.negOfNat_eq, Int.ofNat_eq_natCast]
        omega
      · next hbelow =>
        have : ¬ e < 0 := fun hlt => hbelow (decide_eq_true hlt)
        simp only [Int.ofNat_eq_natCast]
        omega
    simp only [he]
    exact ofScientific_of_large h hneg hpos hm hlow hhigh hq

end

/-! ### The size of a decimal -/

theorem lt_ten_pow_length (m : ℕ) : m < 10 ^ (Nat.toDigits 10 m).length :=
  (Nat.length_toDigits_le_iff (by decide) Nat.length_toDigits_pos).1 le_rfl

theorem ten_pow_length_le {m : ℕ} (hm : 0 < m) : 10 ^ ((Nat.toDigits 10 m).length - 1) ≤ m := by
  by_contra hlt
  rcases Nat.eq_zero_or_pos ((Nat.toDigits 10 m).length - 1) with hone | hmore
  · rw [hone] at hlt
    omega
  · have := (Nat.length_toDigits_le_iff (by decide) hmore).2 (not_le.1 hlt)
    omega

theorem length_toDigits_le_log2 (m : ℕ) : (Nat.toDigits 10 m).length ≤ m.log2 + 1 := by
  rw [Nat.length_toDigits_le_iff (by decide) (Nat.succ_pos _)]
  exact Nat.lt_log2_self.trans_le (Nat.pow_le_pow_left (by decide) _)

theorem ten_zpow_lt_iff {a b : ℤ} : (10 : ℚ) ^ a < 10 ^ b ↔ a < b := zpow_lt_zpow_iff_right₀ (by norm_num)

section
variable {p : Parts} {q : ℚ}

/-- What rounds to a number is neither too small nor too large for numbers. -/
theorem Parts.Captures.bounds (hp : p.Canonical) (hpos : 0 < p.mantissa) (hq : p.Captures q) :
    (10 : ℚ) ^ (-400 : ℤ) ≤ q ∧ q < 10 ^ (400 : ℤ) := by
  have hpowers : 2 ^ 1075 ≤ 10 ^ 400 := by decide +kernel
  constructor
  · refine le_trans ?_ hq.low_le
    have hone : (1 : ℚ) ≤ p.mantissa := by exact_mod_cast hpos
    have hslack := p.slack_le
    calc (10 : ℚ) ^ (-400 : ℤ) ≤ 2 ^ (-1075 : ℤ) := by
          rw [zpow_neg, zpow_neg]
          exact inv_anti₀ (two_zpow_pos 1075) (by exact_mod_cast hpowers)
      _ = 1 / 2 * 2 ^ (-1074 : ℤ) := by
          rw [show (-1074 : ℤ) = -1075 + 1 by decide, two_zpow_succ, ← mul_assoc]
          norm_num
      _ ≤ 1 / 2 * 2 ^ p.exponent :=
        mul_le_mul_of_nonneg_left (zpow_le_zpow_right₀ one_le_two hp.le_exponent) (by norm_num)
      _ ≤ p.low := mul_le_mul_of_nonneg_right (by linarith) (two_zpow_pos _).le
  · refine lt_of_le_of_lt hq.le_high ?_
    have hmantissa : (p.mantissa : ℚ) + 1 ≤ 2 ^ 53 := by exact_mod_cast hp.mantissa_lt
    calc p.high ≤ 2 ^ 53 * 2 ^ p.exponent := mul_le_mul_of_nonneg_right (by linarith) (two_zpow_pos _).le
      _ ≤ 2 ^ 53 * 2 ^ (971 : ℤ) :=
        mul_le_mul_of_nonneg_left (zpow_le_zpow_right₀ one_le_two hp.exponent_le) (by norm_num)
      _ = 2 ^ (53 + 971 : ℤ) := by rw [zpow_add₀ two_ne_zero]; rfl
      _ < 2 ^ (1075 : ℤ) := zpow_lt_zpow_right₀ one_lt_two (by decide)
      _ ≤ 10 ^ (400 : ℤ) := by exact_mod_cast hpowers

end

/-- A decimal in the interval of a number is read as that number. -/
theorem nearest_eq {x : Float} {p : Parts} (h : classify x = .finite p) (hneg : p.negative = false)
    (hpos : 0 < p.mantissa) {m : ℕ} {e : ℤ} (hq : p.Captures (m * 10 ^ e)) : nearest m e = x := by
  have hp := canonical_of_classify h
  have hten : (0 : ℚ) < 10 ^ e := by positivity
  have hm : 0 < m := by
    have hqpos := lt_of_lt_of_le (Parts.low_pos hpos) hq.low_le
    exact_mod_cast pos_of_mul_pos_left hqpos hten.le
  obtain ⟨hsmall, hlarge⟩ := hq.bounds hp hpos
  have hlength := Nat.length_toDigits_pos (b := 10) (n := m)
  have hlog := length_toDigits_le_log2 m
  have hlow : -400 < e + (Nat.toDigits 10 m).length := by
    rw [← ten_zpow_lt_iff, add_comm, zpow_add₀ (by norm_num), zpow_natCast]
    refine hsmall.trans_lt (mul_lt_mul_of_pos_right ?_ hten)
    exact_mod_cast lt_ten_pow_length m
  have hhigh : e + (Nat.toDigits 10 m).length ≤ 400 := by
    have : ((Nat.toDigits 10 m).length - 1 : ℕ) + e < 400 := by
      rw [← ten_zpow_lt_iff, zpow_add₀ (by norm_num), zpow_natCast]
      refine lt_of_le_of_lt (mul_le_mul_of_nonneg_right ?_ hten.le) hlarge
      exact_mod_cast ten_pow_length_le hm
    omega
  unfold nearest
  simp only
  rw [if_neg (by simp only [Bool.or_eq_true, decide_eq_true_eq]; omega),
    if_neg (by omega)]
  exact ofScientific_eq h hneg hpos hm (by omega) (by omega) hq

end Persona.Decimal
