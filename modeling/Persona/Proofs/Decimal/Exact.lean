import Mathlib
import Persona.Decimal.Binary64

/-! Integers that binary64 holds exactly.

An integer of magnitude below `2^53` is a number, and the number says which
integer it is: counting in numbers is exact, and a bit pattern that denotes such
an integer is the pattern of that integer. -/
namespace Persona.Decimal
open Float.Model Float.Model.UnpackedFloat

/-! ### Rounding -/

/-- How far the bits of a natural below `2^53` are from the top of a mantissa. -/
def room (n : Nat) : Nat := 52 - n.log2

theorem log2_le {n : Nat} (hn : 0 < n) (h : n < 2 ^ 53) : n.log2 ≤ 52 := by
  have := (Nat.log2_lt (Nat.ne_of_gt hn)).2 h
  omega

theorem log2_mul_two_pow {n : Nat} (hn : 0 < n) (a : Nat) : (n * 2 ^ a).log2 = n.log2 + a := by
  induction a with
  | zero => simp
  | succ a ih =>
    have hne : n * 2 ^ a ≠ 0 := Nat.mul_ne_zero (Nat.ne_of_gt hn) (by positivity)
    rw [Nat.pow_succ, ← Nat.mul_assoc, Nat.mul_comm _ 2, Nat.log2_two_mul hne, ih]
    omega

theorem mantissa_bounds {n : Nat} (hn : 0 < n) (h : n < 2 ^ 53) :
    2 ^ 52 ≤ n * 2 ^ room n ∧ n * 2 ^ room n < 2 ^ 53 := by
  have hne : n * 2 ^ room n ≠ 0 := Nat.mul_ne_zero (Nat.ne_of_gt hn) (by positivity)
  apply (Nat.log2_eq_iff hne).1
  rw [log2_mul_two_pow hn, room]
  have := log2_le hn h
  omega

theorem shiftRight_exact (m a : Nat) :
    (⟨m * 2 ^ a, false, false⟩ : ExtendedMantissa) >>> a = ⟨m, false, false⟩ := by
  induction a generalizing m with
  | zero => simp [HShiftRight.hShiftRight, Nat.repeat]
  | succ a ih =>
    have hm : m * 2 ^ (a + 1) = (m * 2) * 2 ^ a := by ring
    show ExtendedMantissa.shiftRightOne
      ((⟨m * 2 ^ (a + 1), false, false⟩ : ExtendedMantissa) >>> a) = _
    rw [hm, ih]
    simp [ExtendedMantissa.shiftRightOne]

theorem targetExponent_eq (t : Int) : Format.binary64.targetExponent t = max (t - 53) (-1074) := by
  simp only [Format.targetExponent]
  rfl

/-- A natural that is too long only by zeros is rounded to itself. -/
theorem roundWithAccuracy_exact (s : Sign) {n : Nat} (hn : 0 < n) (h : n < 2 ^ 53) (a : Nat) :
    ∃ hm, roundWithAccuracy Format.binary64 s (n * 2 ^ room n * 2 ^ a) (-(room n) - a) .exact =
      .finite s (n * 2 ^ room n) (-(room n)) hm := by
  have hlog := log2_le hn h
  have hpos : 0 < n * 2 ^ room n := Nat.mul_pos hn (by positivity)
  have hroom : (room n : Int) = 52 - n.log2 := by unfold room; omega
  have hfirst : Format.binary64.targetExponent
      (totalExponent (n * 2 ^ room n * 2 ^ a) (-(room n) - a)) - (-(room n) - a) = a := by
    rw [targetExponent_eq, totalExponent, log2_mul_two_pow hpos, log2_mul_two_pow hn]
    push_cast
    omega
  have hsecond : Format.binary64.targetExponent
      (totalExponent (n * 2 ^ room n) (-(room n) - a + a)) - (-(room n) - a + a) = 0 := by
    rw [targetExponent_eq, totalExponent, log2_mul_two_pow hn]
    push_cast
    omega
  refine ⟨hpos, ?_⟩
  unfold roundWithAccuracy shiftToTargetExponent shiftToExponent
  simp only [ExtendedMantissa.ofMantissaAndAccuracy, hfirst, Int.toNat_natCast, shiftRight_exact,
    ExtendedMantissa.roundedMantissa, ExtendedMantissa.accuracy, Accuracy.roundToNearestEven,
    hsecond]
  have hzero : (⟨n * 2 ^ room n, false, false⟩ : ExtendedMantissa) >>> (Int.toNat 0) =
      ⟨n * 2 ^ room n, false, false⟩ := rfl
  simp only [hzero]
  rw [dif_neg (Nat.ne_of_gt hpos)]
  congr 1
  simp

theorem round_exact (s : Sign) {n : Nat} (hn : 0 < n) (h : n < 2 ^ 53) :
    ∃ hm, UnpackedFloat.round Format.binary64 s n 0 =
      .finite s (n * 2 ^ room n) (-(room n)) hm := by
  have hlog := log2_le hn h
  have hroom : (room n : Int) = 52 - n.log2 := by unfold room; omega
  have htarget : Format.binary64.targetExponent (totalExponent n 0) = -(room n) := by
    rw [targetExponent_eq, totalExponent]
    omega
  obtain ⟨hm, he⟩ := roundWithAccuracy_exact s hn h 0
  refine ⟨hm, ?_⟩
  unfold UnpackedFloat.round decreaseExponent
  simp only [htarget, Nat.shiftLeft_eq]
  rw [← he]
  congr 1
  · simp
  · simp

/-! ### Bit patterns -/

theorem toNat_packComponents (s : Sign) (e : BitVec 11) (m : BitVec 52) :
    (packComponents Format.binary64 s e m).toNat =
      s.toBitVec.toNat * 2 ^ 63 + e.toNat * 2 ^ 52 + m.toNat := by
  have he := e.isLt
  have hm := m.isLt
  unfold packComponents
  rw [BitVec.toNat_append, ← Nat.shiftLeft_add_eq_or_of_lt hm, BitVec.toNat_append,
    ← Nat.shiftLeft_add_eq_or_of_lt he, Nat.shiftLeft_eq, Nat.shiftLeft_eq]
  ring

theorem toNat_unpackSign (b : BitVec 64) :
    (@unpackSign Format.binary64 b).toNat = b.toNat / 2 ^ 63 := by
  have := b.isLt
  simp only [unpackSign, BitVec.toNat_cast, BitVec.extractLsb_toNat, Nat.shiftRight_eq_div_pow]
  omega

theorem toNat_unpackExponent (b : BitVec 64) :
    (@unpackExponent Format.binary64 b).toNat = b.toNat / 2 ^ 52 % 2 ^ 11 := by
  simp only [unpackExponent, BitVec.toNat_cast, BitVec.extractLsb_toNat, Nat.shiftRight_eq_div_pow]

theorem toNat_unpackMantissa (b : BitVec 64) :
    (@unpackMantissa Format.binary64 b).toNat = b.toNat % 2 ^ 52 := by
  simp only [unpackMantissa, BitVec.toNat_cast, BitVec.extractLsb_toNat, Nat.shiftRight_eq_div_pow]
  simp

@[simp] theorem ofBitVec_toBitVec (s : Sign) : Sign.ofBitVec s.toBitVec = s := by cases s <;> rfl

@[simp] theorem toBitVec_ofBitVec (b : BitVec 1) : (Sign.ofBitVec b).toBitVec = b := by
  have : b = 0#1 ∨ b = 1#1 := by
    revert b
    decide
  rcases this with rfl | rfl <;> rfl

/-- A bit pattern is put together from its three parts. -/
theorem packComponents_unpack (b : BitVec 64) :
    packComponents Format.binary64 (Sign.ofBitVec (@unpackSign Format.binary64 b))
      (@unpackExponent Format.binary64 b) (@unpackMantissa Format.binary64 b) = b := by
  apply BitVec.eq_of_toNat_eq
  have := b.isLt
  rw [toNat_packComponents, toBitVec_ofBitVec, toNat_unpackSign, toNat_unpackExponent,
    toNat_unpackMantissa]
  omega

@[simp] theorem unpackSign_packComponents (s : Sign) (e : BitVec 11) (m : BitVec 52) :
    @unpackSign Format.binary64 (packComponents Format.binary64 s e m) = s.toBitVec := by
  apply BitVec.eq_of_toNat_eq
  have := m.isLt
  have := e.isLt
  rw [toNat_unpackSign, toNat_packComponents]
  omega

theorem toNat_full (m : BitVec 52) : (1#1 ++ m).toNat = 2 ^ 52 + m.toNat := by
  rw [BitVec.toNat_append, ← Nat.shiftLeft_add_eq_or_of_lt m.isLt, Nat.shiftLeft_eq]
  simp

/-- The number with these parts, if the exponent is not that of infinities and NaN. -/
theorem unpack_packComponents (s : Sign) {e : BitVec 11} {m : BitVec 52} (he : e ≠ 0#11)
    (he' : e ≠ -1#11) :
    ∃ hm, UnpackedFloat.unpack Format.binary64 (packComponents Format.binary64 s e m) =
      .finite s (2 ^ 52 + m.toNat) (e.toNat - 1075) hm := by
  refine ⟨by omega, ?_⟩
  unfold UnpackedFloat.unpack
  simp only [unpackMantissa_packComponents, unpackExponent_packComponents,
    unpackSign_packComponents, ofBitVec_toBitVec]
  rw [if_neg he', if_neg he]
  simp only [toNat_full]
  rfl

/-- The bit pattern of a number with a full mantissa. -/
theorem pack_full (s : Sign) {m : Nat} {e : Int} (hm : 0 < m) (hlow : 2 ^ 52 ≤ m) (hhigh : m < 2 ^ 53)
    (he : -1074 ≤ e) (he' : e < 972) :
    UnpackedFloat.pack Format.binary64 (.finite s m e hm) =
      packComponents Format.binary64 s (BitVec.ofNat 11 (e + 1075).toNat) (BitVec.ofNat 52 m) := by
  have hlog : m.log2 = 52 := (Nat.log2_eq_iff (by omega)).2 ⟨hlow, hhigh⟩
  have hbias : (e + Format.binary64.exponentBias +
      Format.binary64.mantissaBitsWithoutImplicit).toNat = (e + 1075).toNat := by
    show (e + 1023 + 52).toNat = _
    omega
  simp only [UnpackedFloat.pack, hbias, hlog]
  rw [if_neg (by omega), if_pos (show 52 + 1 = Format.binary64.mantissaBits from rfl)]

/-- Every bit pattern but the unusual ones for NaN is the one of the number that it denotes. -/
theorem pack_unpack {b : BitVec 64}
    (h : @unpackExponent Format.binary64 b = -1#_ →
      @unpackMantissa Format.binary64 b ≠ 0#_ → b = packedNaN Format.binary64) :
    UnpackedFloat.pack Format.binary64 (UnpackedFloat.unpack Format.binary64 b) = b := by
  obtain ⟨s, e, m, rfl⟩ : ∃ s e m, b = packComponents Format.binary64 s e m :=
    ⟨_, _, _, (packComponents_unpack b).symm⟩
  have hm : m.toNat < 2 ^ 52 := m.isLt
  have he : e.toNat < 2 ^ 11 := e.isLt
  simp only [unpackMantissa_packComponents, unpackExponent_packComponents] at h
  by_cases hmax : e = -1#11
  · unfold UnpackedFloat.unpack
    simp only [unpackMantissa_packComponents, unpackExponent_packComponents,
      unpackSign_packComponents, ofBitVec_toBitVec]
    rw [if_pos hmax]
    split
    · next hzero =>
      subst hmax hzero
      rfl
    · next hzero => exact (h hmax hzero).symm
  by_cases hzero : e = 0#11
  · unfold UnpackedFloat.unpack
    simp only [unpackMantissa_packComponents, unpackExponent_packComponents,
      unpackSign_packComponents, ofBitVec_toBitVec]
    rw [if_neg hmax, if_pos hzero]
    subst hzero
    split
    · next hz =>
      subst hz
      rfl
    · next hz =>
      have hpos : m.toNat ≠ 0 := fun h0 => hz (BitVec.eq_of_toNat_eq h0)
      have hlog : m.toNat.log2 < 52 := (Nat.log2_lt hpos).2 hm
      simp only [UnpackedFloat.pack]
      rw [if_neg (by decide), if_neg (by simp only [Format.mantissaBits]; omega)]
      simp
  · have hmax' : e.toNat ≠ 2047 := fun he => hmax (BitVec.eq_of_toNat_eq he)
    have hzero' : e.toNat ≠ 0 := fun h0 => hzero (BitVec.eq_of_toNat_eq h0)
    obtain ⟨hpos, hu⟩ := unpack_packComponents s (m := m) hzero hmax
    rw [hu, pack_full s hpos (by omega) (by omega) (by omega) (by omega)]
    congr 1
    · apply BitVec.eq_of_toNat_eq
      rw [BitVec.toNat_ofNat]
      omega
    · apply BitVec.eq_of_toNat_eq
      rw [BitVec.toNat_ofNat]
      omega

/-- A number is its bits. -/
theorem ofBits_toBits (x : Float) : Float.ofBits x.toBits = x := by
  obtain ⟨⟨bits, valid⟩⟩ := x
  have hbits := congrArg UInt64.ofBitVec (pack_unpack valid.eq_packedNaN)
  exact congrArg Float.ofModel ((Float.Model.mk.injEq ..).mpr hbits)

/-! ### Integers -/

/-- The bits of an integer below `2^53`, by its sign and its magnitude. -/
def integerBits (s : Sign) (n : Nat) : Nat :=
  s.toBitVec.toNat * 2 ^ 63 + (1075 - room n) * 2 ^ 52 + (n * 2 ^ room n - 2 ^ 52)

/-- An integer below `2^53` with a mantissa that is as long as possible. -/
def widened (s : Sign) (n : Nat) (hm : 0 < n * 2 ^ room n) : UnpackedFloat :=
  .finite s (n * 2 ^ room n) (-(room n)) hm

theorem pack_widened (s : Sign) {n : Nat} (hn : 0 < n) (h : n < 2 ^ 53)
    (hm : 0 < n * 2 ^ room n) :
    UnpackedFloat.pack Format.binary64 (widened s n hm) =
      packComponents Format.binary64 s (BitVec.ofNat 11 (1075 - room n))
        (BitVec.ofNat 52 (n * 2 ^ room n)) := by
  obtain ⟨hlow, hhigh⟩ := mantissa_bounds hn h
  have hroom : room n ≤ 52 := by unfold room; omega
  have he : (-(room n : Int) + 1075).toNat = 1075 - room n := by omega
  have hpack := pack_full s (e := -(room n)) hm hlow hhigh (by omega) (by omega)
  rw [he] at hpack
  exact hpack

theorem toNat_pack_widened (s : Sign) {n : Nat} (hn : 0 < n) (h : n < 2 ^ 53)
    (hm : 0 < n * 2 ^ room n) :
    BitVec.toNat (UnpackedFloat.pack Format.binary64 (widened s n hm)) = integerBits s n := by
  obtain ⟨hlow, hhigh⟩ := mantissa_bounds hn h
  have hroom : room n ≤ 52 := by unfold room; omega
  have he : (1075 - room n) % 2 ^ 11 = 1075 - room n := by omega
  have hf : n * 2 ^ room n % 2 ^ 52 = n * 2 ^ room n - 2 ^ 52 := by omega
  rw [pack_widened s hn h hm, toNat_packComponents, BitVec.toNat_ofNat, BitVec.toNat_ofNat, he, hf]
  rfl

theorem unpack_pack_widened (s : Sign) {n : Nat} (hn : 0 < n) (h : n < 2 ^ 53)
    (hm : 0 < n * 2 ^ room n) :
    UnpackedFloat.unpack Format.binary64 (UnpackedFloat.pack Format.binary64 (widened s n hm)) =
      widened s n hm := by
  obtain ⟨hlow, hhigh⟩ := mantissa_bounds hn h
  have hroom : room n ≤ 52 := by unfold room; omega
  have he : (BitVec.ofNat 11 (1075 - room n)).toNat = 1075 - room n := by
    rw [BitVec.toNat_ofNat]
    omega
  have hf : (BitVec.ofNat 52 (n * 2 ^ room n)).toNat = n * 2 ^ room n - 2 ^ 52 := by
    rw [BitVec.toNat_ofNat]
    omega
  have hzero : BitVec.ofNat 11 (1075 - room n) ≠ 0#11 := by
    intro h0
    have := he.symm.trans (congrArg BitVec.toNat h0)
    simp only [BitVec.toNat_zero] at this
    omega
  have hmax : BitVec.ofNat 11 (1075 - room n) ≠ -1#11 := by
    intro h0
    have := he.symm.trans (congrArg BitVec.toNat h0)
    have hall : (-1#11).toNat = 2047 := rfl
    omega
  rw [pack_widened s hn h hm]
  obtain ⟨hm', hu⟩ := unpack_packComponents s (m := BitVec.ofNat 52 (n * 2 ^ room n)) hzero hmax
  rw [hu, widened]
  congr 1
  · omega
  · omega

theorem unpack_one :
    Float.Model.unpack (Float.Model.ofNat 1) = .finite .positive (2 ^ 52) (-52) (by decide) := by
  rfl

/-- A natural below `2^53` is a number. -/
theorem toFloat_eq {n : Nat} (hn : 0 < n) (h : n < 2 ^ 53) (hm : 0 < n * 2 ^ room n) :
    n.toFloat = Float.ofModel (Float.Model.pack (widened .positive n hm)) := by
  show Float.ofScientific n false 0 = _
  unfold Float.ofScientific
  rw [dif_pos ⟨h, by decide⟩]
  have hsize : 0 < Float.exactlyRepresentablePowersOfTen.size := by decide
  have hone : Float.exactlyRepresentablePowersOfTen[0] = Float.ofModel (Float.Model.ofNat 1) := by
    decide +revert
  have hword : n.toUInt64.toNat = n := by
    simp
    omega
  have hof : Float.Model.ofUInt64 n.toUInt64 =
      Float.Model.pack (widened .positive n hm) := by
    obtain ⟨_, hr⟩ := round_exact .positive hn h
    rw [widened, ← hr]
    unfold Float.Model.ofUInt64 UnpackedFloat.ofUInt64 UnpackedFloat.ofNat UnpackedFloat.ofInt
      UnpackedFloat.normalize
    rw [hword]
    have : compare (n : Int) 0 = .gt := by
      rw [compare_gt_iff_gt]
      omega
    rw [this]
    simp
  simp only [Bool.false_eq_true, if_false]
  rw [hone]
  show Float.ofModel (Float.Model.ofUInt64 n.toUInt64 * Float.Model.ofNat 1) = _
  rw [hof]
  congr 1
  show Float.Model.pack (UnpackedFloat.mul Format.binary64 (Float.Model.unpack (Float.Model.pack _))
    (Float.Model.unpack (Float.Model.ofNat 1))) = _
  rw [unpack_one]
  obtain ⟨_, hr⟩ := roundWithAccuracy_exact .positive hn h 52
  have hu : Float.Model.unpack (Float.Model.pack (widened .positive n hm)) =
      widened .positive n hm := unpack_pack_widened .positive hn h hm
  rw [hu]
  exact congrArg Float.Model.pack hr

theorem toNat_toBits_toFloat {n : Nat} (hn : 0 < n) (h : n < 2 ^ 53) :
    n.toFloat.toBits.toNat = integerBits .positive n := by
  have hm : 0 < n * 2 ^ room n := Nat.mul_pos hn (by positivity)
  rw [toFloat_eq hn h hm]
  exact toNat_pack_widened .positive hn h hm

theorem toNat_toBits_neg {n : Nat} (hn : 0 < n) (h : n < 2 ^ 53) :
    n.toFloat.neg.toBits.toNat = integerBits .negative n := by
  have hm : 0 < n * 2 ^ room n := Nat.mul_pos hn (by positivity)
  have hu : Float.Model.unpack (Float.Model.pack (widened .positive n hm)) = widened .positive n hm :=
    unpack_pack_widened .positive hn h hm
  rw [toFloat_eq hn h hm]
  show BitVec.toNat (UnpackedFloat.pack Format.binary64
    (UnpackedFloat.neg (Float.Model.unpack (Float.Model.pack _)))) = _
  rw [hu]
  exact toNat_pack_widened .negative hn h hm

/-- The integer of a sign and a magnitude. -/
def signed : Sign → Nat → Int
  | .positive, n => n
  | .negative, n => -n

theorem toNat_toBits_ofInt (s : Sign) {n : Nat} (hn : 0 < n) (h : n < 2 ^ 53) :
    (Float.ofInt (signed s n)).toBits.toNat = integerBits s n := by
  cases s with
  | positive => exact toNat_toBits_toFloat hn h
  | negative =>
    obtain ⟨m, rfl⟩ : ∃ m, n = m + 1 := ⟨n - 1, by omega⟩
    exact toNat_toBits_neg hn h

theorem testBit_63 {n : Nat} (h : n < 2 ^ 64) : n.testBit 63 = (n / 2 ^ 63 == 1) := by
  rw [Nat.testBit_eq_decide_div_mod_eq]
  have : n / 2 ^ 63 % 2 = n / 2 ^ 63 := by omega
  rw [this]
  rfl

/-- The parts of a pattern with a hidden bit. -/
theorem ofBits_normal {bits : UInt64} (s : Sign) {e f : Nat} (he : 0 < e) (he' : e < 2047)
    (hf : f < 2 ^ 52) (h : bits.toNat = s.toBitVec.toNat * 2 ^ 63 + e * 2 ^ 52 + f) :
    Class.ofBits bits =
      .finite ⟨s.toBitVec.toNat == 1, 2 ^ 52 + f, (e : Int) - 1075, f == 0 && e != 1⟩ := by
  have hs : s.toBitVec.toNat < 2 := s.toBitVec.isLt
  have hb := bits.toNat_lt
  have h1 : bits.toNat / 2 ^ 63 = s.toBitVec.toNat := by omega
  have h2 : bits.toNat / 2 ^ 52 % 2048 = e := by omega
  have h3 : bits.toNat % 2 ^ 52 = f := by omega
  have hidden : hiddenBit = 2 ^ 52 := rfl
  unfold Class.ofBits
  simp only [hidden, testBit_63 hb, h1, h2, h3]
  rw [if_neg (by omega), if_neg (by omega)]

theorem ofBits_integerBits {bits : UInt64} (s : Sign) {n : Nat} (hn : 0 < n) (h : n < 2 ^ 53)
    (hb : bits.toNat = integerBits s n) :
    ∃ narrow, Class.ofBits bits =
      .finite ⟨s.toBitVec.toNat == 1, n * 2 ^ room n, -(room n), narrow⟩ := by
  obtain ⟨hlow, hhigh⟩ := mantissa_bounds hn h
  have hroom : room n ≤ 52 := by unfold room; omega
  have hc := ofBits_normal s (by omega) (by omega) (by omega) hb
  have hm : 2 ^ 52 + (n * 2 ^ room n - 2 ^ 52) = n * 2 ^ room n := by omega
  have he : ((1075 - room n : Nat) : Int) - 1075 = -(room n) := by omega
  rw [hm, he] at hc
  exact ⟨_, hc⟩

/-- Counting up and down is exact. -/
theorem toWord_toFloat {n : Nat} (h : n < 2 ^ 53) : toWord n.toFloat = n := by
  by_cases hn : n = 0
  · subst hn
    decide +kernel
  have hn : 0 < n := by omega
  obtain ⟨narrow, hc⟩ := ofBits_integerBits .positive hn h (toNat_toBits_toFloat hn h)
  have hw : n ≤ wordMax := by
    have : wordMax = 2 ^ 64 - 1 := rfl
    omega
  unfold toWord
  rw [classify, hc]
  have hone : ((Sign.toBitVec .positive).toNat == 1) = false := rfl
  simp only [hone, Bool.false_eq_true, if_false]
  cases hr : room n with
  | zero => simpa using hw
  | succ k =>
    have hk : -((k + 1 : Nat) : Int) = .negSucc k := rfl
    rw [hk]
    simp only [Nat.shiftRight_eq_div_pow]
    rw [Nat.mul_div_cancel _ (by positivity)]
    exact Nat.min_eq_right hw

/-! ### Integers among the bit patterns -/

theorem ofBits_eq_nan_iff (bits : UInt64) :
    Class.ofBits bits = .nan ↔ @unpackExponent Format.binary64 bits.toBitVec = -1#11 ∧
      @unpackMantissa Format.binary64 bits.toBitVec ≠ 0#52 := by
  have hidden : hiddenBit = 2 ^ 52 := rfl
  have hall : (-1#11).toNat = 2047 := rfl
  have he : bits.toNat / 2 ^ 52 % 2048 = 2047 ↔
      @unpackExponent Format.binary64 bits.toBitVec = -1#11 := by
    rw [← BitVec.toNat_inj, toNat_unpackExponent, hall]
    rfl
  have hm : bits.toNat % 2 ^ 52 = 0 ↔ @unpackMantissa Format.binary64 bits.toBitVec = 0#52 := by
    rw [← BitVec.toNat_inj, toNat_unpackMantissa]
    rfl
  rw [← he, ne_eq, ← hm]
  unfold Class.ofBits
  simp only [hidden]
  grind

theorem toBits_ofBits {bits : UInt64} (h : Class.ofBits bits ≠ .nan) :
    (Float.ofBits bits).toBits = bits := by
  have hp : UnpackedFloat.pack Format.binary64
      (UnpackedFloat.unpack Format.binary64 bits.toBitVec) = bits.toBitVec := by
    apply pack_unpack
    intro he hm
    exact absurd ((ofBits_eq_nan_iff bits).2 ⟨he, hm⟩) h
  exact congrArg UInt64.ofBitVec hp

/-- Only the payload of a NaN is lost when bits become a number. -/
theorem classify_ofBits (bits : UInt64) : classify (Float.ofBits bits) = Class.ofBits bits := by
  by_cases h : Class.ofBits bits = .nan
  · obtain ⟨he, hm⟩ := (ofBits_eq_nan_iff bits).1 h
    have hu : UnpackedFloat.unpack Format.binary64 bits.toBitVec = .notANumber := by
      unfold UnpackedFloat.unpack
      rw [he, if_pos rfl, if_neg hm]
    rw [h]
    show Class.ofBits (UInt64.ofBitVec (UnpackedFloat.pack Format.binary64
      (UnpackedFloat.unpack Format.binary64 bits.toBitVec))) = _
    rw [hu]
    rfl
  · rw [classify, toBits_ofBits h]

/-- The three parts of a bit pattern. -/
theorem exists_fields (bits : UInt64) : ∃ (s : Sign) (e f : Nat), e < 2048 ∧ f < 2 ^ 52 ∧
    bits.toNat = s.toBitVec.toNat * 2 ^ 63 + e * 2 ^ 52 + f := by
  have hb := bits.toNat_lt
  refine ⟨.ofBitVec (@unpackSign Format.binary64 bits.toBitVec), bits.toNat / 2 ^ 52 % 2048,
    bits.toNat % 2 ^ 52, by omega, by omega, ?_⟩
  rw [toBitVec_ofBitVec, toNat_unpackSign]
  have : bits.toBitVec.toNat = bits.toNat := rfl
  rw [this]
  omega

theorem ofBits_small {bits : UInt64} (s : Sign) {f : Nat} (hf : f < 2 ^ 52)
    (h : bits.toNat = s.toBitVec.toNat * 2 ^ 63 + f) :
    Class.ofBits bits = .finite ⟨s.toBitVec.toNat == 1, f, -1074, false⟩ := by
  have hs : s.toBitVec.toNat < 2 := s.toBitVec.isLt
  have hb := bits.toNat_lt
  have h1 : bits.toNat / 2 ^ 63 = s.toBitVec.toNat := by omega
  have h2 : bits.toNat / 2 ^ 52 % 2048 = 0 := by omega
  have h3 : bits.toNat % 2 ^ 52 = f := by omega
  have hidden : hiddenBit = 2 ^ 52 := rfl
  unfold Class.ofBits
  simp only [hidden, testBit_63 hb, h1, h2, h3]
  rw [if_neg (by omega), if_pos trivial]

/-- What it means for parts to denote an integer. -/
theorem exists_magnitude {p : Parts} {i : Int} (h : p.integer? = some i) :
    ∃ n : Nat, i = (if p.negative then -(n : Int) else n) ∧
      match p.exponent with
      | .ofNat e => n = p.mantissa * 2 ^ e
      | .negSucc e => p.mantissa = n * 2 ^ (e + 1) := by
  obtain ⟨negative, mantissa, exponent, narrow⟩ := p
  cases exponent with
  | ofNat e =>
    simp only [Parts.integer?, Nat.shiftLeft_eq] at h
    exact ⟨_, (Option.some.inj h).symm, rfl⟩
  | negSucc e =>
    simp only [Parts.integer?, Nat.shiftLeft_eq, Nat.shiftRight_eq_div_pow, Nat.one_mul] at h
    by_cases hmod : mantissa % 2 ^ (e + 1) = 0
    · rw [if_pos hmod] at h
      exact ⟨_, (Option.some.inj h).symm, (Nat.div_mul_cancel (Nat.dvd_of_mod_eq_zero hmod)).symm⟩
    · rw [if_neg hmod] at h
      cases h

/-- The least numbers are no integers. -/
theorem integer?_small {negative narrow : Bool} {f k : Nat} {i : Int} (hf : f < 2 ^ 52)
    (hk : 52 ≤ k) (h : Parts.integer? ⟨negative, f, .negSucc k, narrow⟩ = some i) : f = 0 ∧ i = 0 := by
  obtain ⟨n, rfl, hn⟩ := exists_magnitude h
  have hlt : 2 ^ 52 ≤ 2 ^ (k + 1) := Nat.pow_le_pow_right (by omega) (by omega)
  have hzero : n = 0 := by
    by_contra hpos
    have := Nat.mul_le_mul_right (2 ^ (k + 1)) (Nat.one_le_iff_ne_zero.2 hpos)
    simp only at hn
    omega
  subst hzero
  exact ⟨by simpa using hn, by simp⟩

/-- A full mantissa that denotes an integer below `2^53` is that integer, widened. -/
theorem integer?_normal {s : Sign} {e f : Nat} {i : Int} {narrow : Bool} (hf : f < 2 ^ 52)
    (h : Parts.integer? ⟨s.toBitVec.toNat == 1, 2 ^ 52 + f, (e : Int) - 1075, narrow⟩ = some i)
    (hi : i.natAbs < 2 ^ 53) :
    ∃ n, 0 < n ∧ n < 2 ^ 53 ∧ i = signed s n ∧ e = 1075 - room n ∧ f = n * 2 ^ room n - 2 ^ 52 := by
  obtain ⟨n, rfl, hn⟩ := exists_magnitude h
  have hs : (if (s.toBitVec.toNat == 1) = true then -(n : Int) else n) = signed s n := by
    cases s <;> rfl
  rw [hs] at hi ⊢
  have hlt : n < 2 ^ 53 := by
    cases s with
    | positive => simpa only [signed, Int.natAbs_natCast] using hi
    | negative => simpa only [signed, Int.natAbs_neg, Int.natAbs_natCast] using hi
  have key : ∃ k, e + k = 1075 ∧ 2 ^ 52 + f = n * 2 ^ k := by
    cases he : (e : Int) - 1075 with
    | ofNat k =>
      simp only [he] at hn
      have hk : k = 0 := by
        by_contra hk
        have : 2 ^ 1 ≤ 2 ^ k := Nat.pow_le_pow_right (by omega) (by omega)
        have := Nat.mul_le_mul_left (2 ^ 52 + f) this
        omega
      subst hk
      simp only [Int.ofNat_eq_natCast] at he
      exact ⟨0, by omega, by omega⟩
    | negSucc k =>
      simp only [he] at hn
      exact ⟨k + 1, by omega, hn⟩
  obtain ⟨k, hk, hf'⟩ := key
  have hpos : 0 < n := by
    rcases Nat.eq_zero_or_pos n with rfl | hpos
    · omega
    · exact hpos
  have hlog : (n * 2 ^ k).log2 = 52 := by
    rw [← hf']
    exact (Nat.log2_eq_iff (by omega)).2 ⟨by omega, by omega⟩
  rw [log2_mul_two_pow hpos] at hlog
  have hroom : room n = k := by
    unfold room
    omega
  exact ⟨n, hpos, hlt, rfl, by omega, by rw [hroom]; omega⟩

theorem ofBits_top {bits : UInt64} (s : Sign) {f : Nat} (hf : f < 2 ^ 52)
    (h : bits.toNat = s.toBitVec.toNat * 2 ^ 63 + 2047 * 2 ^ 52 + f) (p : Parts) :
    Class.ofBits bits ≠ .finite p := by
  have hs : s.toBitVec.toNat < 2 := s.toBitVec.isLt
  have h2 : bits.toNat / 2 ^ 52 % 2048 = 2047 := by omega
  have hidden : hiddenBit = 2 ^ 52 := rfl
  unfold Class.ofBits
  simp only [hidden, h2]
  rw [if_pos trivial]
  split <;> simp

/-- A pattern that denotes an integer is the pattern of that integer, unless it is the
negative zero. -/
theorem toBits_ofInt {bits : UInt64} {i : Int} (hz : bits ≠ Float.toBits (-0.0))
    (h : integerBelow? (2 ^ 53) (Float.ofBits bits) = some i) : (Float.ofInt i).toBits = bits := by
  obtain ⟨hi, hlt⟩ : integer? (Float.ofBits bits) = some i ∧ i.natAbs < 2 ^ 53 := by
    simpa only [integerBelow?, Option.filter_eq_some_iff, decide_eq_true_eq] using h
  obtain ⟨s, e, f, he, hf, hb⟩ := exists_fields bits
  rw [integer?, classify_ofBits] at hi
  apply UInt64.toNat_inj.1
  rcases Nat.eq_zero_or_pos e with rfl | hpos
  · rw [Nat.zero_mul, Nat.add_zero] at hb
    rw [ofBits_small s hf hb] at hi
    have hexp : (-1074 : Int) = .negSucc 1073 := rfl
    rw [hexp] at hi
    obtain ⟨rfl, rfl⟩ := integer?_small hf (by decide) hi
    cases s with
    | positive =>
      rw [hb]
      decide +kernel
    | negative =>
      refine absurd (UInt64.toNat_inj.1 (hb.trans ?_)) hz
      decide +kernel
  rcases Nat.lt_or_eq_of_le (Nat.le_of_lt_succ he) with hlow | rfl
  · rw [ofBits_normal s hpos hlow hf hb] at hi
    obtain ⟨n, hn, hn', hin, hen, hfn⟩ := integer?_normal hf hi hlt
    rw [hb, hin, hen, hfn]
    exact toNat_toBits_ofInt s hn hn'
  · split at hi
    · next p hp => exact absurd hp (ofBits_top s hf hb p)
    · cases hi

end Persona.Decimal
