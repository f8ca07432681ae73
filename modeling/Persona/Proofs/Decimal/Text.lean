import Persona.Decimal.Text
import Persona.Proofs.Decimal.Shortest

/-! The text of a number, read back.

A number is written as digits with at most one point among them. The text denotes a decimal in the
interval of the number, and so it is read as the number. -/
namespace Persona.Decimal

/-! ### Decimals without an exponent -/

/-- The text is digits, and perhaps a point and digits behind it, and denotes `mantissa · 10^exponent`. -/
structure Writes (s : String) (mantissa : ℕ) (exponent : ℤ) : Prop where
  exists_digits : ∃ whole fraction : List Char, whole ≠ [] ∧ (∀ c ∈ whole ++ fraction, isDecimalDigit c = true) ∧
    s.toList = whole ++ (if fraction = [] then [] else '.' :: fraction) ∧
    mantissa = digitsValue (whole ++ fraction) ∧ exponent = -(fraction.length : ℤ)

theorem isDecimalDigit_of_isDigit {c : Char} (h : c.isDigit = true) : isDecimalDigit c = true := h

theorem isDecimalDigit_toDigits (n : ℕ) : ∀ c ∈ Nat.toDigits 10 n, isDecimalDigit c = true := fun _ hc =>
  isDecimalDigit_of_isDigit (Nat.isDigit_of_mem_toDigits (by decide) (by decide) hc)

theorem digitsValue_append_toDigits (ds : List Char) (n : ℕ) (h : digitsValue ds = 0) :
    digitsValue (ds ++ Nat.toDigits 10 n) = n := by
  show Nat.ofDigitChars 10 (ds ++ Nat.toDigits 10 n) 0 = n
  rw [Nat.ofDigitChars_append]
  have h' : Nat.ofDigitChars 10 ds 0 = 0 := h
  rw [h', Nat.ofDigitChars_ten_toDigits]

theorem toList_toString (n : ℕ) : (toString n).toList = Nat.toDigits 10 n := by
  rw [Nat.toString_eq_ofList_toDigits, String.toList_ofList]

theorem takeWhile_digits {ds : List Char} (hds : ∀ c ∈ ds, isDecimalDigit c = true) {rest : List Char}
    (hrest : rest.takeWhile isDecimalDigit = []) : (ds ++ rest).takeWhile isDecimalDigit = ds := by
  rw [List.takeWhile_append_of_pos hds, hrest, List.append_nil]

theorem unsigned?_digits {whole fraction : List Char} (hne : whole ≠ [])
    (hdigits : ∀ c ∈ whole ++ fraction, isDecimalDigit c = true) :
    unsigned? (whole ++ (if fraction = [] then [] else '.' :: fraction)) =
      some (nearest (digitsValue (whole ++ fraction)) (-(fraction.length : ℤ))) := by
  have hwhole : ∀ c ∈ whole, isDecimalDigit c = true := fun c hc => hdigits c (List.mem_append_left _ hc)
  have hfraction : ∀ c ∈ fraction, isDecimalDigit c = true := fun c hc => hdigits c (List.mem_append_right _ hc)
  have hempty : whole.isEmpty = false := by
    rw [List.isEmpty_eq_false_iff]
    exact hne
  have hstop : (if fraction = [] then [] else '.' :: fraction).takeWhile isDecimalDigit = [] := by
    split
    · rfl
    · exact List.takeWhile_cons_of_neg (by decide)
  unfold unsigned?
  simp only [takeWhile_digits hwhole hstop, List.drop_left]
  rcases eq_or_ne fraction [] with rfl | hfrac
  · simp only [if_true, hempty, Bool.false_and, Bool.false_eq_true, if_false, List.length_nil, Nat.cast_zero, sub_zero,
      neg_zero]
  · have htake : fraction.takeWhile isDecimalDigit = fraction := by
      simpa using @takeWhile_digits fraction hfraction [] rfl
    have hdrop : fraction.dropWhile isDecimalDigit = [] := by
      rw [List.dropWhile_eq_nil_iff]
      exact hfraction
    simp only [if_neg hfrac, htake, hdrop, hempty, Bool.false_and, Bool.false_eq_true, if_false, zero_sub]

/-- A text of digits is read as the nearest number. -/
theorem Writes.parse? {s : String} {m : ℕ} {e : ℤ} (h : Writes s m e) : parse? s = some (nearest m e) := by
  obtain ⟨whole, fraction, hne, hdigits, hs, rfl, rfl⟩ := h
  have hunsigned := unsigned?_digits hne hdigits
  obtain ⟨c, cs, rfl⟩ := List.exists_cons_of_ne_nil hne
  have hc : isDecimalDigit c = true := hdigits c (List.mem_append_left _ List.mem_cons_self)
  have hminus : c ≠ '-' := by
    rintro rfl
    exact absurd hc (by decide)
  have hplus : c ≠ '+' := by
    rintro rfl
    exact absurd hc (by decide)
  unfold Decimal.parse?
  rw [hs]
  simp only [List.cons_append] at hunsigned ⊢
  split
  · next heq => exact absurd (List.cons.inj heq).1 hminus
  · next heq => exact absurd (List.cons.inj heq).1 hplus
  · rw [hunsigned]
    rfl

/-! ### Digits by position -/

theorem toList_zeros (n : ℕ) : (zeros n).toList = List.replicate n '0' := by
  rw [zeros, String.toList_ofList]

theorem digitsValue_replicate (n : ℕ) : digitsValue (List.replicate n '0') = 0 :=
  Nat.ofDigitChars_replicate_zero.trans (Nat.mul_zero _)

theorem isDecimalDigit_replicate (n : ℕ) : ∀ c ∈ List.replicate n '0', isDecimalDigit c = true := by
  intro c hc
  rw [List.eq_of_mem_replicate hc]
  rfl

section
variable {n : ℕ}

/-- Digits behind a point, and zeros before them. -/
theorem writes_fraction (hn : 0 < n) (k : ℕ) {s : String}
    (hs : s.toList = '0' :: '.' :: (List.replicate k '0' ++ Nat.toDigits 10 n)) :
    Writes s n (-(k : ℤ) - decimalLength n) := by
  have hlength : decimalLength n = (Nat.toDigits 10 n).length := decimalLength_of_pos hn
  have hne : List.replicate k '0' ++ Nat.toDigits 10 n ≠ [] :=
    List.append_ne_nil_of_right_ne_nil _ Nat.toDigits_ne_nil
  refine ⟨['0'], List.replicate k '0' ++ Nat.toDigits 10 n, List.cons_ne_nil _ _, ?_, ?_, ?_, ?_⟩
  · intro c hc
    rw [List.singleton_append, List.mem_cons, List.mem_append] at hc
    rcases hc with rfl | hzero | hdigit
    · rfl
    · exact isDecimalDigit_replicate k c hzero
    · exact isDecimalDigit_toDigits n c hdigit
  · rw [hs, if_neg hne]
    rfl
  · have hzeros : digitsValue (['0'] ++ List.replicate k '0') = 0 := digitsValue_replicate (k + 1)
    rw [← List.append_assoc]
    exact (digitsValue_append_toDigits _ n hzeros).symm
  · rw [List.length_append, List.length_replicate, hlength]
    omega

/-- Digits and zeros behind them. -/
theorem writes_whole (n k : ℕ) {s : String} (hs : s.toList = Nat.toDigits 10 n ++ List.replicate k '0') :
    Writes s (n * 10 ^ k) 0 := by
  refine ⟨Nat.toDigits 10 n ++ List.replicate k '0', [], List.append_ne_nil_of_left_ne_nil Nat.toDigits_ne_nil _,
    ?_, ?_, ?_, rfl⟩
  · rw [List.append_nil]
    exact fun c hc => (List.mem_append.1 hc).elim (isDecimalDigit_toDigits n c) (isDecimalDigit_replicate k c)
  · rw [hs, if_pos rfl, List.append_nil]
  · show _ = Nat.ofDigitChars 10 _ 0
    rw [List.append_nil, Nat.ofDigitChars_append, Nat.ofDigitChars_ten_toDigits, Nat.ofDigitChars_replicate_zero,
      Nat.mul_comm]

/-- Digits with a point among them. -/
theorem writes_point (hn : 0 < n) {k : ℕ} (hk : 0 < k) (hlt : k < decimalLength n) {s : String}
    (hs : s.toList = (Nat.toDigits 10 n).take k ++ '.' :: (Nat.toDigits 10 n).drop k) :
    Writes s n (k - decimalLength n) := by
  have hlength : decimalLength n = (Nat.toDigits 10 n).length := decimalLength_of_pos hn
  rw [hlength] at hlt ⊢
  have hdrop : (Nat.toDigits 10 n).drop k ≠ [] := by
    rw [ne_eq, List.drop_eq_nil_iff]
    omega
  have htake : (Nat.toDigits 10 n).take k ≠ [] := by
    rw [ne_eq, List.take_eq_nil_iff]
    exact fun h => h.elim hk.ne' Nat.toDigits_ne_nil
  refine ⟨(Nat.toDigits 10 n).take k, (Nat.toDigits 10 n).drop k, htake, ?_, ?_, ?_, ?_⟩
  · rw [List.take_append_drop]
    exact isDecimalDigit_toDigits n
  · rw [hs, if_neg hdrop]
  · rw [List.take_append_drop]
    exact Nat.ofDigitChars_ten_toDigits.symm
  · rw [List.length_drop]
    omega

end

/-- Digits with the point put in are worth what the digits are. -/
theorem positional_writes {d : Digits} (hd : 0 < d.digits) :
    ∃ m e, Writes (d.positional "") m e ∧ (m : ℚ) * 10 ^ e = d.value := by
  obtain ⟨n, point⟩ := d
  have hlength : decimalLength n = (Nat.toDigits 10 n).length := decimalLength_of_pos hd
  unfold Digits.positional Digits.value
  simp only
  split
  · next e =>
    refine ⟨n, _, writes_fraction hd (e + 1) ?_, ?_⟩
    · simp [toList_zeros, toString]
    · rw [Int.negSucc_eq]
      push_cast
      rfl
  · refine ⟨n, _, writes_fraction hd 0 ?_, ?_⟩
    · simp [toString]
    · simp
  · next p hp =>
    have hpos : 0 < p := Nat.pos_of_ne_zero hp
    have hlen : (toString n).length = decimalLength n := by
      rw [← String.length_toList, toList_toString, hlength]
    rw [hlen]
    split
    · next hle =>
      refine ⟨_, 0, writes_whole n (p - decimalLength n) ?_, ?_⟩
      · simp [toList_zeros, toString]
      · have he : (p : ℤ) - decimalLength n = (p - decimalLength n : ℕ) := by omega
        rw [zpow_zero, mul_one, Int.ofNat_eq_natCast, he, zpow_natCast]
        push_cast
        rfl
    · next hlt =>
      refine ⟨n, _, writes_point hd hpos (not_le.1 hlt) ?_, ?_⟩
      · simp [toString]
      · rfl

/-! ### Numbers -/

/-- Parts that denote an integer are worth it. -/
theorem value_of_integer? {p : Parts} {i : ℤ} (h : p.integer? = some i) :
    ∃ n : ℕ, i = (if p.negative then -(n : ℤ) else n) ∧ p.value = n := by
  obtain ⟨n, hi, hn⟩ := exists_magnitude h
  refine ⟨n, hi, ?_⟩
  rw [Parts.value]
  split at hn
  · next e he =>
    rw [he, Int.ofNat_eq_natCast, zpow_natCast, hn]
    push_cast
    rfl
  · next e he =>
    rw [he, Int.negSucc_eq, hn, zpow_neg, mul_inv_eq_iff_eq_mul₀ (two_zpow_pos _).ne']
    push_cast
    rfl

section
variable {x : Float} {p : Parts}

theorem integer?_of_classify (h : classify x = .finite p) : integer? x = p.integer? := by
  rw [integer?, h]

theorem number_of_integer {i : ℤ} (h : integerBelow? (tenTo 15) x = some i) : number x = toString i := by
  unfold number
  rw [h]

theorem number_of_positional (h : integerBelow? (tenTo 15) x = none) : number x = positional x := by
  unfold number
  rw [h]

theorem integer?_of_zero (hzero : p.mantissa = 0) : p.integer? = some 0 := by
  unfold Parts.integer?
  rw [hzero]
  split <;> simp

/-- Both zeros are written as the digit. -/
theorem number_of_zero (h : integer? x = some 0) : number x = "0" := by
  have hbelow : integerBelow? (tenTo 15) x = some 0 := by
    rw [integerBelow?, h]
    rfl
  rw [number_of_integer hbelow]
  rfl

theorem mantissa_of_zero (h : p.integer? = some 0) : p.mantissa = 0 := by
  obtain ⟨n, hi, hvalue⟩ := value_of_integer? h
  have hn : n = 0 := by
    split at hi <;> omega
  rw [Parts.value, hn, Nat.cast_zero, mul_eq_zero] at hvalue
  exact_mod_cast hvalue.resolve_right (two_zpow_pos _).ne'

/-- The text of a number denotes a decimal in its interval. -/
theorem number_writes (h : classify x = .finite p) (hneg : p.negative = false) (hpos : 0 < p.mantissa) :
    ∃ m e, Writes (number x) m e ∧ p.Captures (m * 10 ^ e) := by
  cases hbelow : integerBelow? (tenTo 15) x with
  | some i =>
    have hint : p.integer? = some i := by
      rw [integerBelow?, Option.filter_eq_some_iff, integer?_of_classify h] at hbelow
      exact hbelow.1
    obtain ⟨n, rfl, hvalue⟩ := value_of_integer? hint
    refine ⟨n * 10 ^ 0, 0, ?_, ?_⟩
    · rw [number_of_integer hbelow, hneg]
      exact writes_whole n 0 (by rw [List.replicate_zero, List.append_nil, ← toList_toString]; rfl)
    · rw [pow_zero, mul_one, zpow_zero, mul_one, ← hvalue]
      exact p.captures_value
  | none =>
    obtain ⟨hdigits, hcaptures⟩ := shortest_captures .up (canonical_of_classify h) hpos
    obtain ⟨m, e, hwrites, hvalue⟩ := positional_writes hdigits
    refine ⟨m, e, ?_, hvalue ▸ hcaptures⟩
    have htext : positional x = (shortest .up p).positional "" := by
      rw [positional, h]
      simp only
      rw [hneg, if_neg hpos.ne']
      exact String.empty_append
    rw [number_of_positional hbelow, htext]
    exact hwrites

/-- What a program writes for a number is read as the number. -/
theorem parse?_number_of_pos (h : classify x = .finite p) (hneg : p.negative = false) (hpos : 0 < p.mantissa) :
    parse? (number x) = some x := by
  obtain ⟨m, e, hwrites, hcaptures⟩ := number_writes h hneg hpos
  rw [hwrites.parse?, nearest_eq h hneg hpos hcaptures]

end

end Persona.Decimal
