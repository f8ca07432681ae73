import Persona.Proofs.Decimal.Exact

/-! Rounding to the nearest number.

Around every number lies the interval of the values that round to it. Whatever is computed exactly and
then rounded gives the number whose interval the exact value lies in: a product, a quotient, and a
decimal. -/
namespace Persona.Decimal
open Float.Model Float.Model.UnpackedFloat

/-! ### Intervals -/

/-- The exact value, without the sign. -/
def Parts.value (p : Parts) : ℚ := p.mantissa * 2 ^ p.exponent

/-- How far the interval reaches below the mantissa. -/
def Parts.slack (p : Parts) : ℚ := if p.narrow then 1 / 4 else 1 / 2

def Parts.low (p : Parts) : ℚ := (p.mantissa - p.slack) * 2 ^ p.exponent

def Parts.high (p : Parts) : ℚ := (p.mantissa + 1 / 2) * 2 ^ p.exponent

/-- The value lies in the interval of the number. The ends belong to an even mantissa. -/
structure Parts.Captures (p : Parts) (q : ℚ) : Prop where
  low_le : p.low ≤ q
  le_high : q ≤ p.high
  odd : p.mantissa % 2 = 1 → p.low < q ∧ q < p.high

/-- The parts that the bits of a number give. -/
structure Parts.Canonical (p : Parts) : Prop where
  mantissa_lt : p.mantissa < 2 ^ 53
  le_exponent : -1074 ≤ p.exponent
  exponent_le : p.exponent ≤ 971
  full : p.exponent = -1074 ∨ 2 ^ 52 ≤ p.mantissa
  narrow_iff : p.narrow = true ↔ p.mantissa = 2 ^ 52 ∧ p.exponent ≠ -1074

/-! ### A mantissa and its two further bits -/

/-- The mantissa is cut from the value. The further bits say in which half the rest lies and whether it
is more than the half it begins. -/
structure Cuts (em : ExtendedMantissa) (t : ℚ) : Prop where
  le : (em.mantissa : ℚ) ≤ t
  lt : t < em.mantissa + 1
  round : em.roundBit = true ↔ em.mantissa + 1 / 2 ≤ t
  sticky : em.stickyBit = true ↔ t ≠ em.mantissa ∧ t ≠ em.mantissa + 1 / 2

theorem cuts_exact (m : ℕ) : Cuts (.ofMantissaAndAccuracy m .exact) m where
  le := le_rfl
  lt := by simp [ExtendedMantissa.ofMantissaAndAccuracy]
  round := by simp [ExtendedMantissa.ofMantissaAndAccuracy]
  sticky := by simp [ExtendedMantissa.ofMantissaAndAccuracy]

theorem Cuts.shiftRightOne {em : ExtendedMantissa} {t : ℚ} (h : Cuts em t) : Cuts em.shiftRightOne (t / 2) := by
  obtain ⟨m, r, s⟩ := em
  obtain ⟨hle, hlt, hround, hsticky⟩ := h
  simp only at hle hlt hround hsticky
  have hhalf : ((m / 2 : ℕ) : ℚ) = (m - (m % 2 : ℕ)) / 2 := by
    have : (m : ℚ) = ((m % 2 + 2 * (m / 2) : ℕ) : ℚ) := by rw [Nat.mod_add_div]
    push_cast at this ⊢
    linarith
  have hbits : (r || s) = true ↔ t ≠ m := by
    rw [Bool.or_eq_true, hround, hsticky]
    constructor
    · rintro (h | h) rfl
      · linarith
      · exact h.1 rfl
    · intro hne
      by_cases heq : t = m + 1 / 2
      · exact .inl heq.ge
      · exact .inr ⟨hne, heq⟩
  rcases Nat.mod_two_eq_zero_or_one m with hm | hm
  · rw [hm, Nat.cast_zero, sub_zero] at hhalf
    refine ⟨?_, ?_, ?_, ?_⟩ <;> simp only [ExtendedMantissa.shiftRightOne, hhalf, hm]
    · linarith
    · linarith
    · simp only [bne_self_eq_false, Bool.false_eq_true, false_iff, not_le]
      linarith
    · rw [hbits]
      constructor
      · intro hne
        exact ⟨fun h => hne (by linarith), fun h => by linarith⟩
      · rintro ⟨hne, -⟩ h
        exact hne (by linarith)
  · rw [hm, Nat.cast_one] at hhalf
    refine ⟨?_, ?_, ?_, ?_⟩ <;> simp only [ExtendedMantissa.shiftRightOne, hhalf, hm]
    · linarith
    · linarith
    · refine iff_of_true rfl ?_
      linarith
    · rw [hbits]
      constructor
      · intro hne
        exact ⟨fun h => by linarith, fun h => hne (by linarith)⟩
      · rintro ⟨-, hne⟩ h
        exact hne (by linarith)

theorem Cuts.shiftRight {em : ExtendedMantissa} {t : ℚ} (h : Cuts em t) (n : ℕ) : Cuts (em >>> n) (t / 2 ^ n) := by
  induction n with
  | zero => simpa [HShiftRight.hShiftRight, Nat.repeat] using h
  | succ n ih =>
    have heq : t / 2 ^ (n + 1) = t / 2 ^ n / 2 := by rw [pow_succ, div_div]
    rw [heq]
    exact ih.shiftRightOne

/-- The mantissa is the nearest natural, the even one of two. -/
theorem Cuts.roundedMantissa_eq {em : ExtendedMantissa} {t : ℚ} (h : Cuts em t) {m : ℕ} (hlow : m - 1 / 2 ≤ t)
    (hhigh : t ≤ m + 1 / 2) (hodd : m % 2 = 1 → (m : ℚ) - 1 / 2 < t ∧ t < m + 1 / 2) : em.roundedMantissa = m := by
  obtain ⟨k, r, s⟩ := em
  obtain ⟨hle, hlt, hround, hsticky⟩ := h
  simp only at hle hlt hround hsticky
  have hk : k ≤ m := by
    have : (k : ℚ) < m + 1 := by linarith
    exact Nat.lt_succ_iff.1 (by exact_mod_cast this)
  have hm : m ≤ k + 1 := by
    have : (m : ℚ) < (k : ℚ) + 1 + 1 := by linarith
    exact Nat.lt_succ_iff.1 (by exact_mod_cast this)
  obtain rfl | rfl : m = k ∨ m = k + 1 := by omega
  · cases r with
    | false => cases s <;> rfl
    | true =>
      have hhalf : t = m + 1 / 2 := le_antisymm hhigh (hround.1 rfl)
      cases s with
      | false =>
        have heven : m % 2 = 0 := by
          by_contra hne
          exact absurd hhalf (hodd (by omega)).2.ne
        show m + m % 2 = m
        omega
      | true => exact absurd hhalf (hsticky.1 rfl).2
  · push_cast at hlow hhigh hodd
    have hhalf : (k : ℚ) + 1 / 2 ≤ t := by linarith
    obtain rfl : r = true := hround.2 hhalf
    cases s with
    | true => rfl
    | false =>
      have hkeven : k % 2 = 1 := by
        by_contra hne
        have hstrict := (hodd (by omega)).1
        have := hsticky.2 ⟨by linarith, by linarith⟩
        cases this
      show k + k % 2 = k + 1
      omega

/-! ### Rounding to a number -/

theorem two_zpow_pos (e : ℤ) : (0 : ℚ) < 2 ^ e := zpow_pos two_pos e

theorem two_zpow_succ (e : ℤ) : (2 : ℚ) ^ (e + 1) = 2 * 2 ^ e := by
  rw [zpow_add_one₀ two_ne_zero, mul_comm]

theorem Parts.slack_pos (p : Parts) : 0 < p.slack := by
  unfold slack
  split <;> norm_num

theorem Parts.slack_le (p : Parts) : p.slack ≤ 1 / 2 := by
  unfold slack
  split <;> norm_num

theorem Parts.low_pos {p : Parts} (hp : 0 < p.mantissa) : 0 < p.low := by
  have hone : (1 : ℚ) ≤ p.mantissa := by exact_mod_cast hp
  have := p.slack_le
  exact mul_pos (by linarith) (two_zpow_pos _)

/-- A number is in its own interval. -/
theorem Parts.captures_value (p : Parts) : p.Captures p.value := by
  have hpos := two_zpow_pos p.exponent
  have hlow : p.low < p.value := mul_lt_mul_of_pos_right (by linarith [p.slack_pos]) hpos
  have hhigh : p.value < p.high := mul_lt_mul_of_pos_right (by linarith) hpos
  exact ⟨hlow.le, hhigh.le, fun _ => ⟨hlow, hhigh⟩⟩

/-- The place of the highest bit of a value that a mantissa is cut from. -/
theorem Cuts.log2_bounds {em : ExtendedMantissa} {q : ℚ} {e : ℤ} (h : Cuts em (q / 2 ^ e)) (hm : em.mantissa ≠ 0) :
    (2 : ℚ) ^ (em.mantissa.log2 + e) ≤ q ∧ q < 2 ^ (em.mantissa.log2 + 1 + e) := by
  have hpos := two_zpow_pos e
  obtain ⟨hle, hlt, -, -⟩ := h
  rw [le_div_iff₀ hpos] at hle
  rw [div_lt_iff₀ hpos] at hlt
  constructor
  · rw [zpow_add₀ two_ne_zero, zpow_natCast]
    refine le_trans (mul_le_mul_of_nonneg_right ?_ hpos.le) hle
    exact_mod_cast Nat.log2_self_le hm
  · rw [zpow_add₀ two_ne_zero]
    refine lt_of_lt_of_le hlt (mul_le_mul_of_nonneg_right ?_ hpos.le)
    exact_mod_cast Nat.lt_log2_self

theorem two_zpow_lt_iff {a b : ℤ} : (2 : ℚ) ^ a < 2 ^ b ↔ a < b := zpow_lt_zpow_iff_right₀ one_lt_two

/-- A mantissa that fits is left as it is. -/
theorem shiftToTargetExponent_exact {m : ℕ} {e : ℤ} (hm : m < 2 ^ 53) (he : -1074 ≤ e) :
    shiftToTargetExponent Format.binary64 m e .exact = (⟨m, false, false⟩, e) := by
  have hlog : m.log2 ≤ 52 := by
    rcases Nat.eq_zero_or_pos m with rfl | hpos
    · decide
    · exact log2_le hpos hm
  have hzero : (Format.binary64.targetExponent (totalExponent m e) - e).toNat = 0 := by
    rw [targetExponent_eq, totalExponent]
    omega
  simp only [shiftToTargetExponent, shiftToExponent, hzero]
  simp [HShiftRight.hShiftRight, Nat.repeat, ExtendedMantissa.ofMantissaAndAccuracy]

/-- A mantissa that is rounded up to one more bit loses its last, which is zero. -/
theorem shiftToTargetExponent_carry {e : ℤ} (he : -1074 ≤ e) :
    shiftToTargetExponent Format.binary64 (2 ^ 53) e .exact = (⟨2 ^ 52, false, false⟩, e + 1) := by
  have hone : (Format.binary64.targetExponent (totalExponent (2 ^ 53) e) - e).toNat = 1 := by
    rw [targetExponent_eq, totalExponent, Nat.log2_two_pow]
    omega
  simp only [shiftToTargetExponent, shiftToExponent, hone]
  rfl

section
variable {m : ℕ} {e : ℤ} {acc : Accuracy} {q : ℚ}

/-- A value has no more places than fit if it is this small. -/
theorem target_le (hcuts : Cuts (.ofMantissaAndAccuracy m acc) (q / 2 ^ e))
    (hfine : e ≤ Format.binary64.targetExponent (totalExponent m e)) {k : ℤ} (hk : -1074 ≤ k)
    (hq : q < 2 ^ (k + 53)) : Format.binary64.targetExponent (totalExponent m e) ≤ k := by
  rw [targetExponent_eq, totalExponent] at hfine ⊢
  rcases Nat.eq_zero_or_pos m with rfl | hm
  · simp only [Nat.log2_zero] at hfine ⊢
    omega
  · have hmantissa : (ExtendedMantissa.ofMantissaAndAccuracy m acc).mantissa = m := by
      rcases acc with _ | _ | _ | _ <;> rfl
    have hlow := (hcuts.log2_bounds (by omega)).1
    rw [hmantissa] at hlow
    have := two_zpow_lt_iff.1 (hlow.trans_lt hq)
    omega

/-- A value has at least these places if it is this large. -/
theorem le_target (hcuts : Cuts (.ofMantissaAndAccuracy m acc) (q / 2 ^ e))
    (hfine : e ≤ Format.binary64.targetExponent (totalExponent m e)) {k : ℤ} (hq : 2 ^ (k + 52) ≤ q) :
    k ≤ Format.binary64.targetExponent (totalExponent m e) := by
  rw [targetExponent_eq, totalExponent] at hfine ⊢
  have hmantissa : (ExtendedMantissa.ofMantissaAndAccuracy m acc).mantissa = m := by
    rcases acc with _ | _ | _ | _ <;> rfl
  rcases Nat.eq_zero_or_pos m with rfl | hm
  · have hlt := hcuts.lt
    rw [hmantissa, div_lt_iff₀ (two_zpow_pos e), Nat.cast_zero, zero_add, one_mul] at hlt
    have := two_zpow_lt_iff.1 (hq.trans_lt hlt)
    omega
  · have hhigh := (hcuts.log2_bounds (by omega)).2
    rw [hmantissa] at hhigh
    have := two_zpow_lt_iff.1 (hq.trans_lt hhigh)
    omega

/-- The value is cut down to the mantissa that fits. -/
theorem exists_cut (hcuts : Cuts (.ofMantissaAndAccuracy m acc) (q / 2 ^ e))
    (hfine : e ≤ Format.binary64.targetExponent (totalExponent m e)) :
    ∃ em, shiftToTargetExponent Format.binary64 m e acc =
        (em, Format.binary64.targetExponent (totalExponent m e)) ∧
      Cuts em (q / 2 ^ Format.binary64.targetExponent (totalExponent m e)) := by
  generalize ht : Format.binary64.targetExponent (totalExponent m e) = t at hfine
  obtain ⟨n, rfl⟩ := Int.le.dest hfine
  refine ⟨ExtendedMantissa.ofMantissaAndAccuracy m acc >>> n, ?_, ?_⟩
  · simp only [shiftToTargetExponent, shiftToExponent, ht, add_sub_cancel_left, Int.toNat_natCast]
  · have heq : q / 2 ^ (e + n) = q / 2 ^ e / 2 ^ n := by
      rw [zpow_add₀ two_ne_zero, zpow_natCast, div_mul_eq_div_div]
    rw [heq]
    exact hcuts.shiftRight n

theorem roundWithAccuracy_of_cut (s : Sign) {em : ExtendedMantissa} {t t' : ℤ} {r r' : ℕ} (hr : 0 < r')
    (hcut : shiftToTargetExponent Format.binary64 m e acc = (em, t)) (hround : em.roundedMantissa = r)
    (hfit : shiftToTargetExponent Format.binary64 r t .exact = (⟨r', false, false⟩, t')) :
    roundWithAccuracy Format.binary64 s m e acc = .finite s r' t' hr := by
  unfold roundWithAccuracy
  simp only [hcut, hround, hfit]
  rw [dif_neg hr.ne']

/-- Below a number that is the least of its binade the places are finer. -/
theorem Parts.Canonical.least_of_lt {p : Parts} (hp : p.Canonical) (hne : p.exponent ≠ -1074)
    (hlow : p.low < 2 ^ (p.exponent + 52)) : p.mantissa = 2 ^ 52 ∧ p.slack = 1 / 4 := by
  have hfull : 2 ^ 52 ≤ p.mantissa := hp.full.resolve_left hne
  have hleast : p.mantissa = 2 ^ 52 := by
    by_contra hmore
    have hmantissa : (2 : ℚ) ^ 52 + 1 ≤ p.mantissa := by
      have : 2 ^ 52 + 1 ≤ p.mantissa := by omega
      exact_mod_cast this
    rw [add_comm, zpow_add₀ two_ne_zero] at hlow
    refine absurd (lt_of_mul_lt_mul_right hlow (two_zpow_pos _).le) (not_lt.2 ?_)
    have := p.slack_le
    linarith
  refine ⟨hleast, ?_⟩
  rw [slack, if_pos (hp.narrow_iff.2 ⟨hleast, hne⟩)]

/-- A value has the places of the number, unless it is below a number that is the least of its binade. -/
theorem target_eq_exponent {p : Parts} (hp : p.Canonical) (hcuts : Cuts (.ofMantissaAndAccuracy m acc) (q / 2 ^ e))
    (hfine : e ≤ Format.binary64.targetExponent (totalExponent m e)) (hq : q ≤ p.high)
    (hnormal : p.exponent = -1074 ∨ 2 ^ (p.exponent + 52) ≤ q) :
    Format.binary64.targetExponent (totalExponent m e) = p.exponent := by
  refine le_antisymm (target_le hcuts hfine hp.le_exponent (hq.trans_lt ?_)) ?_
  · have hmantissa : (p.mantissa : ℚ) + 1 ≤ 2 ^ 53 := by exact_mod_cast hp.mantissa_lt
    rw [add_comm, zpow_add₀ two_ne_zero]
    refine mul_lt_mul_of_pos_right ?_ (two_zpow_pos p.exponent)
    have hhalf : (2 : ℚ) ^ (53 : ℤ) = 2 ^ 53 := by norm_cast
    linarith
  · rcases hnormal with heq | hlarge
    · rw [heq, targetExponent_eq]
      exact le_max_right _ _
    · exact le_target hcuts hfine hlarge

theorem roundWithAccuracy_of_normal (s : Sign) {p : Parts} (hp : p.Canonical) (hpos : 0 < p.mantissa)
    (hcuts : Cuts (.ofMantissaAndAccuracy m acc) (q / 2 ^ e))
    (hfine : e ≤ Format.binary64.targetExponent (totalExponent m e)) (hq : p.Captures q)
    (hnormal : p.exponent = -1074 ∨ 2 ^ (p.exponent + 52) ≤ q) :
    roundWithAccuracy Format.binary64 s m e acc = .finite s p.mantissa p.exponent hpos := by
  obtain ⟨em, hcut, hem⟩ := exists_cut hcuts hfine
  rw [target_eq_exponent hp hcuts hfine hq.le_high hnormal] at hcut hem
  have hscale := two_zpow_pos p.exponent
  have hround : em.roundedMantissa = p.mantissa := by
    have hslack := p.slack_le
    refine hem.roundedMantissa_eq ?_ ?_ fun hodd => ⟨?_, ?_⟩
    · exact le_trans (by linarith) ((le_div_iff₀ hscale).2 hq.low_le)
    · exact (div_le_iff₀ hscale).2 hq.le_high
    · exact lt_of_le_of_lt (by linarith) ((lt_div_iff₀ hscale).2 (hq.odd hodd).1)
    · exact (div_lt_iff₀ hscale).2 (hq.odd hodd).2
  exact roundWithAccuracy_of_cut s hpos hcut hround (shiftToTargetExponent_exact hp.mantissa_lt hp.le_exponent)

/-- The interval of the least number of a binade begins half a step of the finer places below it. -/
theorem Parts.low_eq_of_least {p : Parts} (hmantissa : p.mantissa = 2 ^ 52) (hslack : p.slack = 1 / 4) :
    p.low = ((2 : ℚ) ^ 53 - 1 / 2) * 2 ^ (p.exponent - 1) := by
  have hhalf : (2 : ℚ) ^ p.exponent = 2 * 2 ^ (p.exponent - 1) := by
    rw [← two_zpow_succ, sub_add_cancel]
  rw [Parts.low, hslack, hmantissa, hhalf]
  push_cast
  ring

/-- A value below a number that is the least of its binade is rounded up with a carry. -/
theorem roundWithAccuracy_of_carry (s : Sign) {p : Parts} (hp : p.Canonical) (hpos : 0 < p.mantissa)
    (hcuts : Cuts (.ofMantissaAndAccuracy m acc) (q / 2 ^ e))
    (hfine : e ≤ Format.binary64.targetExponent (totalExponent m e)) (hq : p.low ≤ q)
    (hne : p.exponent ≠ -1074) (hlt : q < 2 ^ (p.exponent + 52)) :
    roundWithAccuracy Format.binary64 s m e acc = .finite s p.mantissa p.exponent hpos := by
  obtain ⟨hmantissa, hslack⟩ := hp.least_of_lt hne (hq.trans_lt hlt)
  rw [Parts.low_eq_of_least hmantissa hslack] at hq
  have hexponent := hp.le_exponent
  have hscale := two_zpow_pos (p.exponent - 1)
  have htarget : Format.binary64.targetExponent (totalExponent m e) = p.exponent - 1 := by
    refine le_antisymm (target_le hcuts hfine (by omega) ?_) (le_target hcuts hfine (le_trans ?_ hq))
    · rw [show p.exponent - 1 + 53 = p.exponent + 52 by omega]
      exact hlt
    · rw [add_comm, zpow_add₀ two_ne_zero]
      refine mul_le_mul_of_nonneg_right ?_ hscale.le
      norm_num
  obtain ⟨em, hcut, hem⟩ := exists_cut hcuts hfine
  rw [htarget] at hcut hem
  have hround : em.roundedMantissa = 2 ^ 53 := by
    refine hem.roundedMantissa_eq ?_ ?_ fun hodd => absurd hodd (by decide)
    · push_cast
      exact (le_div_iff₀ hscale).2 hq
    · refine (div_le_iff₀ hscale).2 (hlt.le.trans ?_)
      rw [show p.exponent + 52 = 53 + (p.exponent - 1) by omega, zpow_add₀ two_ne_zero]
      refine mul_le_mul_of_nonneg_right ?_ hscale.le
      norm_num
  have hcarry := shiftToTargetExponent_carry (show -1074 ≤ p.exponent - 1 by omega)
  rw [sub_add_cancel] at hcarry
  rw [roundWithAccuracy_of_cut s (by norm_num) hcut hround hcarry]
  congr 1
  exact hmantissa.symm

/-- A value is rounded to the number whose interval it lies in. -/
theorem roundWithAccuracy_eq (s : Sign) {p : Parts} (hp : p.Canonical) (hpos : 0 < p.mantissa)
    (hcuts : Cuts (.ofMantissaAndAccuracy m acc) (q / 2 ^ e))
    (hfine : e ≤ Format.binary64.targetExponent (totalExponent m e)) (hq : p.Captures q) :
    roundWithAccuracy Format.binary64 s m e acc = .finite s p.mantissa p.exponent hpos := by
  by_cases hnormal : p.exponent = -1074 ∨ 2 ^ (p.exponent + 52) ≤ q
  · exact roundWithAccuracy_of_normal s hp hpos hcuts hfine hq hnormal
  · obtain ⟨hne, hlt⟩ : p.exponent ≠ -1074 ∧ q < 2 ^ (p.exponent + 52) := by
      simpa only [not_or, not_le] using hnormal
    exact roundWithAccuracy_of_carry s hp hpos hcuts hfine hq.low_le hne hlt

end

/-! ### Products and quotients -/

theorem Cuts.of_rest {k : ℕ} {f : ℚ} {r s : Bool} (hf : 0 ≤ f) (hf' : f < 1) (hr : r = true ↔ 1 / 2 ≤ f)
    (hs : s = true ↔ f ≠ 0 ∧ f ≠ 1 / 2) : Cuts ⟨k, r, s⟩ (k + f) where
  le := le_add_of_nonneg_right hf
  lt := add_lt_add_right hf' _
  round := hr.trans (add_le_add_iff_left _).symm
  sticky := by rw [hs, ne_eq, ne_eq, ne_eq, ne_eq, add_eq_left, add_right_inj]

/-- A quotient of naturals, cut to its whole part. -/
theorem cuts_fraction (n : ℕ) {d : ℕ} (hd : 0 < d) :
    Cuts (.ofMantissaAndAccuracy (n / d) (accuracyOfFraction (n % d) d)) (n / d) := by
  have hpos : (0 : ℚ) < d := by exact_mod_cast hd
  have hquotient : (n : ℚ) / d = (n / d : ℕ) + (n % d : ℕ) / d := by
    have hsum : (n : ℚ) = (d * (n / d) + n % d : ℕ) := by rw [Nat.div_add_mod]
    push_cast at hsum
    rw [div_eq_iff hpos.ne', add_mul, div_mul_cancel₀ _ hpos.ne', hsum]
    ring
  have hrest : n % d < d := Nat.mod_lt n hd
  rw [hquotient]
  generalize n / d = k
  generalize n % d = r at hrest
  have hlt : (r : ℚ) / d < 1 := (div_lt_one hpos).2 (by exact_mod_cast hrest)
  rcases Nat.eq_zero_or_pos r with rfl | hr
  · simpa [accuracyOfFraction] using cuts_exact k
  have hrpos : (0 : ℚ) < r / d := div_pos (by exact_mod_cast hr) hpos
  rw [accuracyOfFraction, if_neg hr.ne']
  rcases Nat.lt_trichotomy (2 * r) d with h | h | h
  · have hhalf : (r : ℚ) / d < 1 / 2 := by
      rw [div_lt_div_iff₀ hpos two_pos]
      exact_mod_cast (by omega : r * 2 < 1 * d)
    rw [Nat.compare_eq_lt.2 h]
    exact .of_rest hrpos.le hlt (iff_of_false Bool.false_ne_true hhalf.not_ge) (iff_of_true rfl ⟨hrpos.ne', hhalf.ne⟩)
  · have hhalf : (r : ℚ) / d = 1 / 2 := by
      rw [div_eq_div_iff hpos.ne' two_ne_zero]
      exact_mod_cast (by omega : r * 2 = 1 * d)
    rw [Nat.compare_eq_eq.2 h]
    exact .of_rest hrpos.le hlt (iff_of_true rfl hhalf.ge) (iff_of_false Bool.false_ne_true fun hne => hne.2 hhalf)
  · have hhalf : 1 / 2 < (r : ℚ) / d := by
      rw [div_lt_div_iff₀ two_pos hpos]
      exact_mod_cast (by omega : 1 * d < r * 2)
    rw [Nat.compare_eq_gt.2 h]
    exact .of_rest hrpos.le hlt (iff_of_true rfl hhalf.le) (iff_of_true rfl ⟨hrpos.ne', hhalf.ne'⟩)

section
variable {p : Parts} {m₁ m₂ : ℕ} {e₁ e₂ : ℤ}

/-- The product of two numbers that have enough bits, rounded. -/
theorem mul_finite (hp : p.Canonical) (hpos : 0 < p.mantissa) (h₁ : 0 < m₁) (h₂ : 0 < m₂) (hbits : 2 ^ 52 ≤ m₁ * m₂)
    (hq : p.Captures (m₁ * 2 ^ e₁ * (m₂ * 2 ^ e₂))) :
    UnpackedFloat.mul Format.binary64 (.finite .positive m₁ e₁ h₁) (.finite .positive m₂ e₂ h₂) =
      .finite .positive p.mantissa p.exponent hpos := by
  refine roundWithAccuracy_eq .positive hp hpos (q := m₁ * 2 ^ e₁ * (m₂ * 2 ^ e₂)) ?_ ?_ hq
  · have hexact : (m₁ : ℚ) * 2 ^ e₁ * (m₂ * 2 ^ e₂) / 2 ^ (e₁ + e₂) = (m₁ * m₂ : ℕ) := by
      rw [div_eq_iff (two_zpow_pos _).ne', zpow_add₀ two_ne_zero]
      push_cast
      ring
    rw [hexact]
    exact cuts_exact _
  · have hlog : 52 ≤ (m₁ * m₂).log2 := (Nat.le_log2 (Nat.mul_pos h₁ h₂).ne').2 hbits
    rw [targetExponent_eq, totalExponent]
    omega

/-- The quotient of two numbers, rounded. -/
theorem div_finite (hp : p.Canonical) (hpos : 0 < p.mantissa) (h₁ : 0 < m₁) (h₂ : 0 < m₂)
    (hq : p.Captures (m₁ * 2 ^ e₁ / (m₂ * 2 ^ e₂))) :
    UnpackedFloat.div Format.binary64 (.finite .positive m₁ e₁ h₁) (.finite .positive m₂ e₂ h₂) =
      .finite .positive p.mantissa p.exponent hpos := by
  obtain ⟨t, ht⟩ : ∃ t, t = min (e₁ - e₂) (Format.binary64.targetExponent (totalExponent m₁ e₁ - totalExponent m₂ e₂)) :=
    ⟨_, rfl⟩
  obtain ⟨n, hn⟩ : ∃ n : ℕ, e₁ - e₂ - t = n := Int.eq_ofNat_of_zero_le (by omega)
  have hcore : divCore Format.binary64 m₁ e₁ m₂ e₂ =
      (m₁ * 2 ^ n / m₂, t, accuracyOfFraction (m₁ * 2 ^ n % m₂) m₂) := by
    simp only [divCore, ← ht, hn, Int.toNat_natCast, Nat.shiftLeft_eq]
  simp only [UnpackedFloat.div, hcore]
  refine roundWithAccuracy_eq _ hp hpos (q := m₁ * 2 ^ e₁ / (m₂ * 2 ^ e₂)) ?_ ?_ hq
  · have hexact : (m₁ : ℚ) * 2 ^ e₁ / (m₂ * 2 ^ e₂) / 2 ^ t = (m₁ * 2 ^ n : ℕ) / m₂ := by
      have he : e₁ = n + e₂ + t := by omega
      rw [he, zpow_add₀ two_ne_zero, zpow_add₀ two_ne_zero, zpow_natCast]
      push_cast
      field_simp
    rw [hexact]
    exact cuts_fraction _ h₂
  · -- the quotient has enough bits, unless it is among the least numbers
    have hlog : (m₁ * 2 ^ n).log2 = m₁.log2 + n := log2_mul_two_pow h₁ n
    rw [targetExponent_eq, totalExponent] at ht ⊢
    rw [totalExponent] at ht
    by_cases hleast : t ≤ -1074
    · omega
    · have hroom : 53 + m₂.log2 ≤ m₁.log2 + n := by omega
      have hbits : 2 ^ 52 ≤ m₁ * 2 ^ n / m₂ := by
        rw [Nat.le_div_iff_mul_le h₂]
        calc 2 ^ 52 * m₂ ≤ 2 ^ 52 * 2 ^ (m₂.log2 + 1) := Nat.mul_le_mul_left _ Nat.lt_log2_self.le
          _ = 2 ^ (53 + m₂.log2) := by rw [← pow_add]; congr 1; omega
          _ ≤ 2 ^ (m₁ * 2 ^ n).log2 := Nat.pow_le_pow_right two_pos (by omega)
          _ ≤ m₁ * 2 ^ n := Nat.log2_self_le (Nat.mul_pos h₁ (by positivity)).ne'
      have : 52 ≤ (m₁ * 2 ^ n / m₂).log2 := (Nat.le_log2 (by omega)).2 hbits
      omega

end

end Persona.Decimal
