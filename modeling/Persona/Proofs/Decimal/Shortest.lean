import Persona.Decimal.Shortest
import Persona.Proofs.Decimal.Reading

/-! The shortest digits of a number.

The search ends with digits in the interval of the number: a grid of seventeen digits is finer than the
numbers are, and so one of the two neighbours on it is a hit. -/
namespace Persona.Decimal

/-- What the digits are worth. -/
def Digits.value (d : Digits) : ℚ := d.digits * 10 ^ (d.point - decimalLength d.digits)

/-! ### Decimal places -/

theorem ten_zpow_pos (e : ℤ) : (0 : ℚ) < 10 ^ e := zpow_pos (by norm_num) e

theorem decimalLength_of_pos {n : ℕ} (hn : 0 < n) : decimalLength n = (Nat.toDigits 10 n).length := if_neg hn.ne'

theorem decimalLength_pos {n : ℕ} (hn : 0 < n) : 0 < decimalLength n := by
  rw [decimalLength_of_pos hn]
  exact Nat.length_toDigits_pos

theorem lt_ten_pow_decimalLength (n : ℕ) : n < 10 ^ decimalLength n := by
  rcases Nat.eq_zero_or_pos n with rfl | hn
  · decide
  · rw [decimalLength_of_pos hn]
    exact lt_ten_pow_length n

theorem ten_pow_decimalLength_le {n : ℕ} (hn : 0 < n) : 10 ^ (decimalLength n - 1) ≤ n := by
  rw [decimalLength_of_pos hn]
  exact ten_pow_length_le hn

theorem decimalLength_eq {n k : ℕ} (hlow : 10 ^ (k - 1) ≤ n) (hhigh : n < 10 ^ k) : decimalLength n = k := by
  have hn : 0 < n := lt_of_lt_of_le (by positivity) hlow
  have h₁ := (Nat.pow_lt_pow_iff_right (by decide : 1 < 10)).1 (hlow.trans_lt (lt_ten_pow_decimalLength n))
  have h₂ := (Nat.pow_lt_pow_iff_right (by decide : 1 < 10)).1 ((ten_pow_decimalLength_le hn).trans_lt hhigh)
  have := decimalLength_pos hn
  omega

/-- From one on, the whole part has the first digit. -/
theorem bounds_of_le {num den : ℕ} (hden : 0 < den) (hle : den ≤ num) :
    (10 : ℚ) ^ ((decimalLength (num / den) : ℤ) - 1) ≤ num / den ∧
      (num : ℚ) / den < 10 ^ (decimalLength (num / den) : ℤ) := by
  have hden' : (0 : ℚ) < den := by exact_mod_cast hden
  have hpos : 0 < num / den := Nat.div_pos hle hden
  have hlength := decimalLength_pos hpos
  have hlow := ten_pow_decimalLength_le hpos
  have hhigh := lt_ten_pow_decimalLength (num / den)
  rw [Nat.le_div_iff_mul_le hden] at hlow
  rw [Nat.div_lt_iff_lt_mul hden] at hhigh
  constructor
  · rw [show (decimalLength (num / den) : ℤ) - 1 = (decimalLength (num / den) - 1 : ℕ) by omega, zpow_natCast,
      le_div_iff₀ hden']
    exact_mod_cast hlow
  · rw [zpow_natCast, div_lt_iff₀ hden']
    exact_mod_cast hhigh

/-- Below one, the quotient the other way round has as many digits as there are places up to the first. -/
theorem bounds_of_lt {num den k : ℕ} (hpos : 0 < k) (hbelow : k * num < den) (habove : den ≤ (k + 1) * num) :
    (10 : ℚ) ^ (1 - (decimalLength k : ℤ) - 1) ≤ num / den ∧ (num : ℚ) / den < 10 ^ (1 - (decimalLength k : ℤ)) := by
  have hden' : (0 : ℚ) < den := by exact_mod_cast (Nat.zero_le _).trans_lt hbelow
  have hlength := decimalLength_pos hpos
  have hlow := ten_pow_decimalLength_le hpos
  have hhigh := lt_ten_pow_decimalLength k
  generalize decimalLength k = n at *
  constructor
  · rw [show (1 : ℤ) - n - 1 = -n by omega, zpow_neg, zpow_natCast, inv_eq_one_div,
      div_le_div_iff₀ (by positivity) hden', one_mul]
    have : den ≤ num * 10 ^ n := by
      calc den ≤ (k + 1) * num := habove
        _ ≤ 10 ^ n * num := Nat.mul_le_mul_right _ hhigh
        _ = num * 10 ^ n := Nat.mul_comm _ _
    exact_mod_cast this
  · rw [show (1 : ℤ) - n = -(n - 1 : ℕ) by omega, zpow_neg, zpow_natCast, inv_eq_one_div,
      div_lt_div_iff₀ hden' (by positivity), one_mul]
    have : num * 10 ^ (n - 1) < den := by
      calc num * 10 ^ (n - 1) ≤ num * k := Nat.mul_le_mul_left _ hlow
        _ = k * num := Nat.mul_comm _ _
        _ < den := hbelow
    exact_mod_cast this

/-- The largest quotient that is less than the true one, also where that is whole. -/
theorem pred_ceilDiv_bounds {a b : ℕ} (hb : 0 < b) (hlt : b < a) :
    0 < (a + b - 1) / b - 1 ∧ ((a + b - 1) / b - 1) * b < a ∧ a ≤ ((a + b - 1) / b - 1 + 1) * b := by
  rw [← Nat.ceilDiv_eq_add_pred_div]
  have hiff (c : ℕ) : a ⌈/⌉ b ≤ c ↔ a ≤ b * c := ceilDiv_le_iff_le_mul hb
  have hone := hiff 1
  have habove := (hiff (a ⌈/⌉ b)).1 (Nat.le_refl _)
  have hbelow := hiff (a ⌈/⌉ b - 1)
  rw [Nat.sub_add_cancel (by omega), Nat.mul_comm _ b, Nat.mul_comm _ b]
  exact ⟨by omega, by omega, habove⟩

/-- The place of the first digit. -/
theorem magnitude_bounds {num den : ℕ} (hnum : 0 < num) (hden : 0 < den) :
    (10 : ℚ) ^ (magnitude num den - 1) ≤ num / den ∧ (num : ℚ) / den < 10 ^ magnitude num den := by
  unfold magnitude
  split
  · next hle => exact bounds_of_le hden hle
  · next hlt =>
    obtain ⟨hpos, hbelow, habove⟩ := pred_ceilDiv_bounds hnum (Nat.lt_of_not_le hlt)
    exact bounds_of_lt hpos hbelow habove

/-! ### The interval in naturals -/

/-- The naturals stand for the interval of a number over one denominator. -/
structure Interval.Spans (i : Interval) (p : Parts) (d : ℚ) : Prop where
  pos : 0 < d
  value : (i.value : ℚ) = p.value * d
  low : (i.low : ℚ) = p.low * d
  high : (i.high : ℚ) = p.high * d
  closed : i.closed = (p.mantissa % 2 == 0)

/-- One of the two powers is one. -/
theorem pow_toNat {b : ℚ} (hb : b ≠ 0) (e : ℤ) : b ^ e.toNat = b ^ e * b ^ (-e).toNat := by
  rcases Int.eq_nat_or_neg e with ⟨n, rfl | rfl⟩
  · have hzero : (-(n : ℤ)).toNat = 0 := by omega
    rw [Int.toNat_natCast, hzero, pow_zero, mul_one, zpow_natCast]
  · have hzero : (-(n : ℤ)).toNat = 0 := by omega
    rw [neg_neg, Int.toNat_natCast, hzero, pow_zero, zpow_neg, zpow_natCast, inv_mul_cancel₀ (pow_ne_zero n hb)]

theorem spans_ofParts {p : Parts} (hpos : 0 < p.mantissa) :
    (Interval.ofParts p).Spans p (Interval.ofParts p).den := by
  have hquarter : (2 : ℚ) ^ p.exponent = 4 * 2 ^ (p.exponent - 2) := by
    rw [zpow_sub₀ two_ne_zero, mul_div_assoc', eq_div_iff (two_zpow_pos 2).ne', mul_comm]
    rfl
  have hscale := pow_toNat two_ne_zero (p.exponent - 2)
  refine ⟨?_, ?_, ?_, ?_, rfl⟩ <;> simp only [Interval.ofParts, Nat.shiftLeft_eq, one_mul]
  · positivity
  · push_cast
    rw [Parts.value, hquarter, hscale]
    ring
  · have hlow : ((if p.narrow = true then 4 * p.mantissa - 1 else 4 * p.mantissa - 2 : ℕ) : ℚ) =
        4 * (p.mantissa - p.slack) := by
      unfold Parts.slack
      split
      · rw [Nat.cast_sub (by omega)]
        push_cast
        ring
      · rw [Nat.cast_sub (by omega)]
        push_cast
        ring
    rw [Nat.cast_mul, hlow, Parts.low, hquarter]
    push_cast
    rw [hscale]
    ring
  · push_cast
    rw [Parts.high, hquarter, hscale]
    ring

section
variable {i : Interval} {p : Parts} {d : ℚ}

theorem Interval.Spans.scale (h : i.Spans p d) {k : ℕ} (hk : 0 < k) :
    Interval.Spans ⟨i.value * k, i.low * k, i.high * k, i.den, i.closed⟩ p (d * k) where
  pos := mul_pos h.pos (by exact_mod_cast hk)
  value := by rw [Nat.cast_mul, h.value, mul_assoc]
  low := by rw [Nat.cast_mul, h.low, mul_assoc]
  high := by rw [Nat.cast_mul, h.high, mul_assoc]
  closed := h.closed

theorem Interval.Spans.holds_iff (h : i.Spans p d) (x : ℕ) : i.holds x = true ↔ p.Captures (x / d) := by
  have hlow : p.low ≤ x / d ↔ i.low ≤ x := by rw [le_div_iff₀ h.pos, ← h.low, Nat.cast_le]
  have hhigh : x / d ≤ p.high ↔ x ≤ i.high := by rw [div_le_iff₀ h.pos, ← h.high, Nat.cast_le]
  have hlow' : p.low < x / d ↔ i.low < x := by rw [lt_div_iff₀ h.pos, ← h.low, Nat.cast_lt]
  have hhigh' : x / d < p.high ↔ x < i.high := by rw [div_lt_iff₀ h.pos, ← h.high, Nat.cast_lt]
  rw [Interval.holds, h.closed]
  rcases Nat.mod_two_eq_zero_or_one p.mantissa with heven | hodd
  · rw [heven, if_pos (beq_self_eq_true 0), Bool.and_eq_true, decide_eq_true_eq, decide_eq_true_eq]
    refine ⟨fun ⟨hl, hh⟩ => ⟨hlow.2 hl, hhigh.2 hh, fun hodd => ?_⟩, fun hc => ⟨hlow.1 hc.low_le, hhigh.1 hc.le_high⟩⟩
    omega
  · rw [hodd, if_neg (by decide), Bool.and_eq_true, decide_eq_true_eq, decide_eq_true_eq]
    refine ⟨fun ⟨hl, hh⟩ => ⟨hlow.2 hl.le, hhigh.2 hh.le, fun _ => ⟨hlow'.2 hl, hhigh'.2 hh⟩⟩, fun hc => ?_⟩
    exact ⟨hlow'.1 (hc.odd hodd).1, hhigh'.1 (hc.odd hodd).2⟩

/-! ### One grid -/

theorem tenTo_eq (k : ℕ) : tenTo k = 10 ^ k := rfl

/-- Of two neighbours one is picked that is a hit, if either is. -/
theorem match_pick {down up near : Bool} {below above : ℕ} {hit : ℕ → Prop} {miss : Prop} (hdown : down = true → hit below)
    (hup : up = true → hit above) (hmiss : down = false → up = false → miss) :
    match if down && (!up || near) then some below else if up then some above else none with
    | some d => hit d
    | none => miss := by
  cases down with
  | true =>
    cases up with
    | true =>
      cases near with
      | true => exact hdown rfl
      | false => exact hup rfl
    | false => exact hdown rfl
  | false =>
    cases up with
    | true => exact hup rfl
    | false => exact hmiss rfl rfl

/-- A grid has a neighbour on either side of the number. It is hit if one of them is in the interval. -/
theorem Interval.Spans.onGrid?_spec (h : i.Spans p i.den) (tie : Tie) (point : ℤ) (count : ℕ) :
    ∃ below : ℕ, below * (10 : ℚ) ^ (point - count) ≤ p.value ∧ p.value < (below + 1) * 10 ^ (point - count) ∧
      match i.onGrid? tie point count with
      | some d => (d = below ∨ d = below + 1) ∧ p.Captures (d * 10 ^ (point - count))
      | none => ¬ p.Captures (below * 10 ^ (point - count)) ∧ ¬ p.Captures ((below + 1 : ℕ) * 10 ^ (point - count)) := by
  have hden : 0 < i.den := by exact_mod_cast h.pos
  generalize ht : point - count = t
  have hscale : 0 < tenTo (-t).toNat := Nat.pow_pos (by decide)
  have hspans := h.scale hscale
  have hstep : 0 < i.den * tenTo t.toNat := Nat.mul_pos hden (Nat.pow_pos (by decide))
  have hgrid : ∀ k : ℕ, ((k * (i.den * tenTo t.toNat) : ℕ) : ℚ) / (i.den * tenTo (-t).toNat : ℚ) = k * 10 ^ t := by
    intro k
    rw [div_eq_iff hspans.pos.ne', tenTo_eq, tenTo_eq]
    push_cast
    rw [pow_toNat (by norm_num) t]
    ring
  have hvalue : p.value = (i.value * tenTo (-t).toNat : ℕ) / (i.den * tenTo (-t).toNat : ℚ) := by
    rw [eq_div_iff hspans.pos.ne', hspans.value]
  obtain ⟨below, hbelow⟩ : ∃ below, below = i.value * tenTo (-t).toNat / (i.den * tenTo t.toNat) := ⟨_, rfl⟩
  refine ⟨below, ?_, ?_, ?_⟩
  · rw [← hgrid, hvalue]
    refine div_le_div_of_nonneg_right ?_ hspans.pos.le
    rw [hbelow]
    exact_mod_cast Nat.div_mul_le_self _ _
  · rw [← Nat.cast_succ, ← hgrid, hvalue]
    refine div_lt_div_of_pos_right ?_ hspans.pos
    rw [hbelow]
    exact_mod_cast (Nat.div_lt_iff_lt_mul hstep).1 (Nat.lt_succ_self _)
  · have hhit (k : ℕ) : _ ↔ p.Captures (k * 10 ^ t) :=
      hgrid k ▸ hspans.holds_iff (k * (i.den * tenTo t.toNat))
    unfold Interval.onGrid?
    simp only [ht, ← hbelow]
    refine match_pick (fun hdown => ⟨.inl rfl, (hhit _).1 hdown⟩) (fun hup => ⟨.inr rfl, (hhit _).1 hup⟩)
      fun hdown hup => ⟨fun hc => ?_, fun hc => ?_⟩
    · exact Bool.eq_false_iff.1 hdown ((hhit _).2 hc)
    · exact Bool.eq_false_iff.1 hup ((hhit _).2 hc)

/-! ### The search -/

/-- The parts begin at this place. -/
def Parts.StartsAt (p : Parts) (point : ℤ) : Prop := (10 : ℚ) ^ (point - 1) ≤ p.value ∧ p.value < 10 ^ point

theorem captures_of_lt {q : ℚ} (hlow : p.low < q) (hhigh : q < p.high) : p.Captures q :=
  ⟨hlow.le, hhigh.le, fun _ => ⟨hlow, hhigh⟩⟩

/-- A hit has as many digits as its grid, or is the power of ten after them. -/
theorem Interval.Spans.hit (h : i.Spans p i.den) {tie : Tie} {point : ℤ} (hstart : p.StartsAt point) {count k : ℕ}
    (hcount : 1 ≤ count) (hit : i.onGrid? tie point count = some k) :
    p.Captures (k * 10 ^ (point - count)) ∧ 10 ^ (count - 1) ≤ k ∧ k ≤ 10 ^ count := by
  obtain ⟨below, hle, hlt, hspec⟩ := h.onGrid?_spec tie point count
  rw [hit] at hspec
  obtain ⟨hk, hcaptures⟩ := hspec
  have hstep := ten_zpow_pos (point - count)
  have hlow : 10 ^ (count - 1) ≤ below := by
    have hbound : (10 : ℚ) ^ (count - 1) < below + 1 := by
      refine lt_of_mul_lt_mul_right ?_ hstep.le
      refine lt_of_eq_of_lt ?_ (hstart.1.trans_lt hlt)
      rw [← zpow_natCast, ← zpow_add₀ (by norm_num)]
      congr 1
      omega
    exact Nat.lt_succ_iff.1 (by exact_mod_cast hbound)
  have hhigh : below < 10 ^ count := by
    have hbound : (below : ℚ) < 10 ^ count := by
      refine lt_of_mul_lt_mul_right ?_ hstep.le
      refine lt_of_lt_of_eq (hle.trans_lt hstart.2) ?_
      rw [← zpow_natCast, ← zpow_add₀ (by norm_num)]
      congr 1
      omega
    exact_mod_cast hbound
  exact ⟨hcaptures, by omega, by omega⟩

/-- A grid of seventeen digits is finer than the interval is long. -/
theorem step_lt (hp : p.Canonical) {point : ℤ} (hstart : p.StartsAt point) :
    (10 : ℚ) ^ (point - 17) < (p.slack + 1 / 2) * 2 ^ p.exponent := by
  have hscale := two_zpow_pos p.exponent
  have hstep : (10 : ℚ) ^ (point - 17) * 10 ^ 16 ≤ p.mantissa * 2 ^ p.exponent := by
    refine le_trans (le_of_eq ?_) hstart.1
    rw [← zpow_natCast, ← zpow_add₀ (by norm_num)]
    congr 1
    omega
  by_cases hnarrow : p.narrow = true
  · have hmantissa : (p.mantissa : ℚ) = 2 ^ 52 := by exact_mod_cast (hp.narrow_iff.1 hnarrow).1
    rw [Parts.slack, if_pos hnarrow]
    rw [hmantissa] at hstep
    linarith
  · have hmantissa : (p.mantissa : ℚ) < 2 ^ 53 := by exact_mod_cast hp.mantissa_lt
    have := mul_lt_mul_of_pos_right hmantissa hscale
    rw [Parts.slack, if_neg hnarrow]
    linarith

/-- Seventeen digits suffice. -/
theorem Interval.Spans.hit_seventeen (h : i.Spans p i.den) (hp : p.Canonical) (tie : Tie) {point : ℤ}
    (hstart : p.StartsAt point) : ∃ k, i.onGrid? tie point 17 = some k := by
  obtain ⟨below, hle, hlt, hspec⟩ := h.onGrid?_spec tie point 17
  cases hgrid : i.onGrid? tie point 17 with
  | some k => exact ⟨k, rfl⟩
  | none =>
    rw [hgrid] at hspec
    obtain ⟨hdown, hup⟩ := hspec
    have hscale := two_zpow_pos p.exponent
    have hstep := step_lt hp hstart
    have hslack := mul_pos p.slack_pos hscale
    push_cast at hle hlt hdown hup
    refine absurd (captures_of_lt ?_ ?_) hup
    · refine lt_trans ?_ hlt
      rw [Parts.low, Parts.value]
      linarith
    · -- the neighbour below is outside, so the one above is near
      have hfar : below * (10 : ℚ) ^ (point - 17) ≤ p.low := by
        by_contra hnear
        refine hdown (captures_of_lt (not_le.1 hnear) (lt_of_le_of_lt hle ?_))
        rw [Parts.high, Parts.value]
        linarith
      rw [Parts.low] at hfar
      rw [Parts.high]
      linarith

/-- The search ends with digits in the interval. -/
theorem Interval.Spans.search (h : i.Spans p i.den) (hp : p.Canonical) (tie : Tie) {point : ℤ}
    (hstart : p.StartsAt point) (fuel count : ℕ) (hcount : 1 ≤ count) (hle : count ≤ 17) (hfuel : 17 < count + fuel) :
    0 < (i.search tie point fuel count).digits ∧ p.Captures (i.search tie point fuel count).value := by
  induction fuel generalizing count with
  | zero => omega
  | succ fuel ih =>
    unfold Interval.search
    cases hgrid : i.onGrid? tie point count with
    | none =>
      have hne : count ≠ 17 := by
        rintro rfl
        obtain ⟨k, hk⟩ := h.hit_seventeen hp tie hstart
        rw [hgrid] at hk
        cases hk
      exact ih (count + 1) (by omega) (by omega) (by omega)
    | some k =>
      obtain ⟨hcaptures, hlow, hhigh⟩ := h.hit hstart hcount hgrid
      rw [tenTo_eq]
      by_cases hk : k = 10 ^ count
      · rw [hk] at hcaptures
        simp only [if_pos hk]
        refine ⟨Nat.one_pos, ?_⟩
        have hone : decimalLength 1 = 1 := rfl
        simp only [Digits.value, hone]
        convert hcaptures using 1
        push_cast
        rw [one_mul, ← zpow_natCast, ← zpow_add₀ (by norm_num)]
        congr 1
        omega
      · simp only [if_neg hk]
        refine ⟨lt_of_lt_of_le (by positivity) hlow, ?_⟩
        simp only [Digits.value]
        rw [decimalLength_eq hlow (by omega)]
        exact hcaptures

end

/-- The shortest digits of a number lie in its interval. -/
theorem shortest_captures (tie : Tie) {p : Parts} (hp : p.Canonical) (hpos : 0 < p.mantissa) :
    0 < (shortest tie p).digits ∧ p.Captures (shortest tie p).value := by
  have hspans := spans_ofParts hpos
  have hden : 0 < (Interval.ofParts p).den := by exact_mod_cast hspans.pos
  have hvalue : p.value = (Interval.ofParts p).value / (Interval.ofParts p).den := by
    rw [eq_div_iff hspans.pos.ne', hspans.value]
  have hvaluepos : 0 < (Interval.ofParts p).value := by
    simp only [Interval.ofParts, Nat.shiftLeft_eq]
    positivity
  have hstart : p.StartsAt (magnitude (Interval.ofParts p).value (Interval.ofParts p).den) := by
    rw [Parts.StartsAt, hvalue]
    exact magnitude_bounds hvaluepos hden
  exact hspans.search hp tie hstart 17 1 le_rfl (by decide) (by decide)

end Persona.Decimal
