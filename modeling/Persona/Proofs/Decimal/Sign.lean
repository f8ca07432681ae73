import Persona.Proofs.Decimal.Reading

/-! Signs.

Negation turns the sign of a number and nothing else. A decimal without a sign is read as a number
without one. -/
namespace Persona.Decimal
open Float.Model Float.Model.UnpackedFloat

/-! ### Negation -/

theorem neg_unpack (s : Sign) (e : BitVec 11) (m : BitVec 52) :
    UnpackedFloat.neg (UnpackedFloat.unpack Format.binary64 (packComponents Format.binary64 s e m)) =
      UnpackedFloat.unpack Format.binary64 (packComponents Format.binary64 (-s) e m) := by
  unfold UnpackedFloat.unpack
  simp only [unpackMantissa_packComponents, unpackExponent_packComponents, unpackSign_packComponents,
    ofBitVec_toBitVec]
  split
  · split <;> rfl
  · split
    · split <;> rfl
    · rfl

theorem unpack_pack_unpack (b : BitVec 64) : UnpackedFloat.unpack Format.binary64
    (UnpackedFloat.pack Format.binary64 (UnpackedFloat.unpack Format.binary64 b)) =
      UnpackedFloat.unpack Format.binary64 b := by
  by_cases h : @unpackExponent Format.binary64 b = -1#_ ∧ @unpackMantissa Format.binary64 b ≠ 0#_
  · have hnan : UnpackedFloat.unpack Format.binary64 b = .notANumber := by
      unfold UnpackedFloat.unpack
      simp only [h.1, if_true, if_neg h.2]
    rw [hnan]
    exact unpack_packedNaN
  · rw [Persona.Decimal.pack_unpack fun he hm => absurd ⟨he, hm⟩ h]

theorem neg_involutive (u : UnpackedFloat) : u.neg.neg = u := by
  rcases u with s | _ | s | ⟨s, m, e, hm⟩
  · cases s <;> rfl
  · rfl
  · cases s <;> rfl
  · cases s <;> rfl

/-- A number negated twice is the number. -/
theorem negate_twice (x : Float) : - -x = x := by
  obtain ⟨a⟩ := x
  show Float.ofModel (Float.Model.pack (UnpackedFloat.neg (Float.Model.unpack (Float.Model.pack (UnpackedFloat.neg
    a.unpack))))) = _
  congr 1
  obtain ⟨s, e, m, hb⟩ : ∃ s e m, a.toBits.toBitVec = packComponents Format.binary64 s e m :=
    ⟨_, _, _, (packComponents_unpack _).symm⟩
  have hback : Float.Model.unpack (Float.Model.pack (UnpackedFloat.neg a.unpack)) = UnpackedFloat.neg a.unpack := by
    have hneg : UnpackedFloat.neg a.unpack =
        UnpackedFloat.unpack Format.binary64 (packComponents Format.binary64 (-s) e m) := by
      rw [← neg_unpack, ← hb]
      rfl
    rw [hneg]
    exact unpack_pack_unpack _
  rw [hback, neg_involutive, model_pack_unpack]

/-- The parts of a number that is negated. -/
theorem classify_neg {x : Float} {p : Parts} (h : classify x = .finite p) :
    classify (-x) = .finite { p with negative := !p.negative } := by
  obtain ⟨s, e, f, he, hf, hbits⟩ := exists_fields x.toBits
  have hpack := packComponents_of_fields he hf hbits
  have hmax : e ≠ 2047 := by
    rintro rfl
    exact ofBits_top s hf hbits p h
  have hneg : (-x).toBits.toBitVec = packComponents Format.binary64 (-s) (BitVec.ofNat 11 e) (BitVec.ofNat 52 f) := by
    show UnpackedFloat.pack Format.binary64 (UnpackedFloat.neg
      (UnpackedFloat.unpack Format.binary64 x.toBits.toBitVec)) = _
    rw [hpack, neg_unpack, Persona.Decimal.pack_unpack]
    intro hall
    rw [unpackExponent_packComponents] at hall
    have := congrArg BitVec.toNat hall
    rw [BitVec.toNat_ofNat, Nat.mod_eq_of_lt he] at this
    exact absurd this hmax
  have hbits' : (-x).toBits.toNat = (-s).toBitVec.toNat * 2 ^ 63 + e * 2 ^ 52 + f := by
    have := congrArg BitVec.toNat hneg
    rw [toNat_packComponents, BitVec.toNat_ofNat, BitVec.toNat_ofNat, Nat.mod_eq_of_lt he, Nat.mod_eq_of_lt hf] at this
    exact this
  have hturn : ((-s).toBitVec.toNat == 1) = !(s.toBitVec.toNat == 1) := by cases s <;> rfl
  rw [classify] at h ⊢
  rcases Nat.eq_zero_or_pos e with rfl | hpos
  · rw [Nat.zero_mul, Nat.add_zero] at hbits hbits'
    rw [ofBits_small s hf hbits] at h
    rw [ofBits_small (-s) hf hbits', hturn]
    cases h
    rfl
  · rw [ofBits_normal s hpos (by omega) hf hbits] at h
    rw [ofBits_normal (-s) hpos (by omega) hf hbits', hturn]
    cases h
    rfl

/-! ### Numbers without a sign -/

/-- The bits have no sign. -/
def Unsigned (b : BitVec 64) : Prop := @unpackSign Format.binary64 b = 0#1

/-- What arithmetic takes for a number without a sign. -/
def Positive : UnpackedFloat → Prop
  | .infinity s | .zero s | .finite s _ _ _ => s = .positive
  | .notANumber => True

theorem Unsigned.negative {bits : UInt64} (h : Unsigned bits.toBitVec) {p : Parts} (hp : Class.ofBits bits = .finite p) :
    p.negative = false := by
  have hsign : bits.toNat.testBit 63 = false := by
    have := congrArg BitVec.toNat h
    rw [toNat_unpackSign] at this
    rw [testBit_63 bits.toNat_lt, show bits.toNat / 2 ^ 63 = 0 from this]
    rfl
  unfold Class.ofBits at hp
  simp only [hsign] at hp
  split at hp
  · split at hp <;> cases hp
  · split at hp <;> cases hp <;> rfl

theorem Unsigned.positive {b : BitVec 64} (h : Unsigned b) : Positive (UnpackedFloat.unpack Format.binary64 b) := by
  have hsign : Sign.ofBitVec (@unpackSign Format.binary64 b) = .positive := by
    rw [h]
    rfl
  unfold UnpackedFloat.unpack
  simp only [hsign]
  split
  · split
    · rfl
    · trivial
  · split
    · split <;> rfl
    · rfl

theorem Positive.cases {u : UnpackedFloat} (h : Positive u) : u = .infinity .positive ∨ u = .notANumber ∨
    u = .zero .positive ∨ ∃ m e hm, u = .finite .positive m e hm := by
  rcases u with s | _ | s | ⟨s, m, e, hm⟩
  · exact .inl (congrArg _ h)
  · exact .inr (.inl rfl)
  · exact .inr (.inr (.inl (congrArg _ h)))
  · obtain rfl : s = .positive := h
    exact .inr (.inr (.inr ⟨m, e, hm, rfl⟩))

theorem Positive.unsigned {u : UnpackedFloat} (h : Positive u) : Unsigned (UnpackedFloat.pack Format.binary64 u) := by
  have hall : ∃ e m, UnpackedFloat.pack Format.binary64 u = packComponents Format.binary64 .positive e m := by
    obtain rfl | rfl | rfl | ⟨m, e, hm, rfl⟩ := h.cases
    · exact ⟨_, _, rfl⟩
    · exact ⟨_, _, rfl⟩
    · exact ⟨_, _, rfl⟩
    · simp only [UnpackedFloat.pack]
      split
      · exact ⟨_, _, rfl⟩
      · split <;> exact ⟨_, _, rfl⟩
  obtain ⟨e, m, hu⟩ := hall
  rw [Unsigned, hu, Persona.Decimal.unpackSign_packComponents]
  rfl

theorem positive_roundWithAccuracy (m : ℕ) (e : ℤ) (acc : Accuracy) :
    Positive (roundWithAccuracy Format.binary64 .positive m e acc) := by
  unfold roundWithAccuracy
  simp only
  split <;> rfl

theorem Positive.mul {a b : UnpackedFloat} (ha : Positive a) (hb : Positive b) :
    Positive (UnpackedFloat.mul Format.binary64 a b) := by
  obtain rfl | rfl | rfl | ⟨m, e, hm, rfl⟩ := ha.cases <;> obtain rfl | rfl | rfl | ⟨m', e', hm', rfl⟩ := hb.cases <;>
    first
      | trivial
      | exact positive_roundWithAccuracy _ _ _

theorem Positive.div {a b : UnpackedFloat} (ha : Positive a) (hb : Positive b) :
    Positive (UnpackedFloat.div Format.binary64 a b) := by
  obtain rfl | rfl | rfl | ⟨m, e, hm, rfl⟩ := ha.cases <;> obtain rfl | rfl | rfl | ⟨m', e', hm', rfl⟩ := hb.cases <;>
    first
      | trivial
      | exact positive_roundWithAccuracy _ _ _

theorem positive_ofScientific (m : ℕ) (e : ℤ) : Positive (UnpackedFloat.ofScientific Format.binary64 m e) := by
  unfold UnpackedFloat.ofScientific
  split
  · rfl
  · split
    · rfl
    · split
      · rfl
      · split
        · exact Positive.mul rfl rfl
        · exact Positive.div rfl rfl

theorem positive_ofUInt64 (n : UInt64) : Positive (UnpackedFloat.ofUInt64 Format.binary64 n) := by
  unfold UnpackedFloat.ofUInt64 UnpackedFloat.ofNat UnpackedFloat.ofInt UnpackedFloat.normalize
  split
  · next hlt =>
    rw [compare_lt_iff_lt] at hlt
    omega
  · rfl
  · exact positive_roundWithAccuracy _ _ _

theorem unsigned_powerOfTen (k : Fin 23) : Unsigned Float.exactlyRepresentablePowersOfTen[k].toBits.toBitVec := by
  have hall : ∀ k : Fin 23, Unsigned Float.exactlyRepresentablePowersOfTen[k].toBits.toBitVec := by
    unfold Unsigned
    decide +kernel
  exact hall k

theorem unsigned_ofScientific (m : ℕ) (below : Bool) (k : ℕ) :
    Unsigned (Float.ofScientific m below k).toBits.toBitVec := by
  unfold Float.ofScientific
  split
  · next hsmall =>
    have hm : Positive (Float.Model.unpack m.toUInt64.toFloat.toModel) :=
      (positive_ofUInt64 m.toUInt64).unsigned.positive
    have hten := (unsigned_powerOfTen ⟨k, by omega⟩).positive
    simp only
    split
    · exact (hm.div hten).unsigned
    · exact (hm.mul hten).unsigned
  · exact (positive_ofScientific _ _).unsigned

/-- A decimal without a sign is read as a number without one. -/
theorem unsigned_nearest (m : ℕ) (e : ℤ) : Unsigned (nearest m e).toBits.toBitVec := by
  unfold nearest
  simp only
  split
  · exact unsigned_ofScientific 0 true 1
  · split
    · show (@unpackSign Format.binary64 (1.0 / 0.0 : Float).toBits.toBitVec) = 0#1
      decide +kernel
    · exact unsigned_ofScientific _ _ _

end Persona.Decimal
