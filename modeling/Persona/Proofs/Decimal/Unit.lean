import Persona.Profile
import Persona.Proofs.Decimal.Order

/-! Numbers of the unit interval.

What is clamped to the unit interval is in it, unless it is NaN. A sum or a product of finite
numbers is not NaN, but it may be infinite, and infinities can cancel out. The products of a
weighted sum are not negative, so that there they do not. -/
namespace Persona.Decimal
open Float.Model Float.Model.UnpackedFloat

/-! ### Order -/

theorem lt_iff {x y : Float} : x < y ↔ (taken x).compare (taken y) = some .lt := by
  show decide (x.toModel < y.toModel) = true ↔ _
  rw [decide_eq_true_iff]
  show ((taken x).compare (taken y) == some Ordering.lt) = true ↔ _
  rw [beq_iff_eq]

theorem le_iff {x y : Float} : x ≤ y ↔ ∃ o, (taken x).compare (taken y) = some o ∧ o.isLE = true := by
  show decide (x.toModel ≤ y.toModel) = true ↔ _
  rw [decide_eq_true_iff]
  show ((taken x).compare (taken y)).any (·.isLE) = true ↔ _
  rw [Option.any_eq_true]

theorem swap_then_compare (e e' : ℤ) (m m' : ℕ) :
    (compare e' e).then (compare m' m) = ((compare e e').then (compare m m')).swap := by
  rw [Ordering.swap_then, Int.compare_swap, Nat.compare_swap]

theorem compare_swap (a b : UnpackedFloat) : b.compare a = (a.compare b).map Ordering.swap := by
  rcases a with (_ | _) | _ | (_ | _) | ⟨_ | _, m, e, hm⟩ <;>
    rcases b with (_ | _) | _ | (_ | _) | ⟨_ | _, m', e', hm'⟩ <;>
      first
      | rfl
      | exact congrArg some (swap_then_compare ..)
      | exact congrArg (fun o : Ordering => some o.swap) (swap_then_compare ..)

/-- All but NaN can be compared. -/
theorem exists_compare {a b : UnpackedFloat} (ha : a ≠ .notANumber) (hb : b ≠ .notANumber) :
    ∃ o, a.compare b = some o := by
  rcases a with (_ | _) | _ | (_ | _) | ⟨_ | _, m, e, hm⟩ <;>
    rcases b with (_ | _) | _ | (_ | _) | ⟨_ | _, m', e', hm'⟩ <;>
      first
      | exact ⟨_, rfl⟩
      | exact absurd rfl ha
      | exact absurd rfl hb

theorem le_of_lt {x y : Float} (h : x < y) : x ≤ y := le_iff.2 ⟨.lt, lt_iff.1 h, rfl⟩

theorem le_of_not_lt {x y : Float} (hx : x.isNaN = false) (hy : y.isNaN = false) (h : ¬x < y) : y ≤ x := by
  obtain ⟨o, ho⟩ := exists_compare (isNaN_eq_false_iff.1 hx) (isNaN_eq_false_iff.1 hy)
  have hswap : (taken y).compare (taken x) = some o.swap := by
    rw [compare_swap, ho]
    rfl
  apply le_iff.2 ⟨o.swap, hswap, ?_⟩
  cases o with
  | lt => exact absurd (lt_iff.2 ho) h
  | eq | gt => rfl

theorem inUnit_iff {x : Float} : Profile.inUnit x = true ↔ 0.0 ≤ x ∧ x ≤ 1.0 := by
  simp [Profile.inUnit]

theorem inUnit_clamp {x : Float} (hx : x.isNaN = false) : Profile.inUnit (clamp 0.0 1.0 x) = true := by
  unfold clamp
  split
  · decide +kernel
  · next hlow =>
    split
    · decide +kernel
    · next hhigh => exact inUnit_iff.2 ⟨le_of_not_lt hx rfl hlow, le_of_not_lt rfl hx hhigh⟩

/-! ### Numbers that are not negative -/

/-- Zero or a number without a sign, infinity among them. -/
def NotNegative : UnpackedFloat → Prop
  | .zero _ => True
  | .finite s .. | .infinity s => s = .positive
  | .notANumber => False

theorem NotNegative.ne_nan {u : UnpackedFloat} (h : NotNegative u) : u ≠ .notANumber := by
  rintro rfl
  exact h

theorem Positive.notNegative {u : UnpackedFloat} (h : Positive u) (hu : u ≠ .notANumber) : NotNegative u := by
  cases u with
  | infinity | finite => exact h
  | zero => trivial
  | notANumber => exact absurd rfl hu

/-- A number of the unit interval is not negative and finite. -/
theorem notNegative_of_inUnit {x : Float} (h : Profile.inUnit x = true) :
    NotNegative (taken x) ∧ (taken x).isFinite = true := by
  obtain ⟨hlow, hhigh⟩ := inUnit_iff.1 h
  obtain ⟨o, hlow, ho⟩ := le_iff.1 hlow
  obtain ⟨o', hhigh, ho'⟩ := le_iff.1 hhigh
  have hone : taken 1.0 = .finite .positive (2 ^ 52) (-52) (by decide) := rfl
  rw [taken_zero] at hlow
  rw [hone] at hhigh
  generalize taken x = u at hlow hhigh ⊢
  rcases u with (_ | _) | _ | s | ⟨_ | _, m, e, hm⟩
  · cases hlow
    cases ho
  · cases hhigh
    cases ho'
  · cases hlow
  · exact ⟨trivial, rfl⟩
  · cases hlow
    cases ho
  · exact ⟨rfl, rfl⟩

theorem isFinite_of_inUnit {x : Float} (h : Profile.inUnit x = true) : x.isFinite = true :=
  (notNegative_of_inUnit h).2

/-! ### Results in bits -/

theorem unpack_ne_nan (s : Sign) {e : BitVec 11} {m : BitVec 52} (h : e ≠ -1#11 ∨ m = 0#52) :
    UnpackedFloat.unpack Format.binary64 (packComponents Format.binary64 s e m) ≠ .notANumber := by
  unfold UnpackedFloat.unpack
  simp only [unpackMantissa_packComponents, unpackExponent_packComponents, unpackSign_packComponents]
  by_cases he : e = -1#11
  · have hm : m = 0#52 := h.resolve_left (absurd he)
    simp [he, hm]
  · simp only [if_neg he]
    split
    · split <;> simp
    · simp

/-- What is put into bits and is not NaN is not NaN when it is taken out of them. -/
theorem unpack_pack_ne_nan {u : UnpackedFloat} (h : u ≠ .notANumber) :
    Float.Model.unpack (Float.Model.pack u) ≠ .notANumber := by
  show UnpackedFloat.unpack Format.binary64 (UnpackedFloat.pack Format.binary64 u) ≠ _
  cases u with
  | notANumber => exact absurd rfl h
  | infinity s => exact unpack_ne_nan s (.inr rfl)
  | zero s => exact unpack_ne_nan s (.inr rfl)
  | finite s m e hm =>
    rw [UnpackedFloat.pack]
    split
    · exact unpack_ne_nan s (.inr rfl)
    · next hfits =>
      have hfits : ¬2 ^ 11 ≤ (e + Format.binary64.exponentBias +
          Format.binary64.mantissaBitsWithoutImplicit).toNat + 1 := hfits
      split
      · apply unpack_ne_nan s (.inl ?_)
        intro hall
        have htop : (e + Format.binary64.exponentBias + Format.binary64.mantissaBitsWithoutImplicit).toNat % 2 ^ 11 =
            2047 := (BitVec.toNat_ofNat ..).symm.trans (congrArg BitVec.toNat hall)
        omega
      · exact unpack_ne_nan s (.inl (by decide))

theorem NotNegative.unpack_pack {u : UnpackedFloat} (h : NotNegative u) :
    NotNegative (Float.Model.unpack (Float.Model.pack u)) := by
  have hnan := unpack_pack_ne_nan h.ne_nan
  cases u with
  | notANumber => exact h.elim
  | zero s => cases s <;> trivial
  | infinity s =>
    have hs : Positive (.infinity s) := h
    exact hs.unsigned.positive.notNegative hnan
  | finite s m e hm =>
    have hs : Positive (.finite s m e hm) := h
    exact hs.unsigned.positive.notNegative hnan

/-! ### Sums and products -/

theorem roundWithAccuracy_ne_nan (s : Sign) (m : ℕ) (e : ℤ) (acc : Accuracy) :
    roundWithAccuracy Format.binary64 s m e acc ≠ .notANumber := by
  unfold roundWithAccuracy
  simp only
  split <;> simp

theorem normalize_ne_nan (m e : ℤ) (s : Sign) : UnpackedFloat.normalize Format.binary64 m e s ≠ .notANumber := by
  unfold UnpackedFloat.normalize
  split
  · exact roundWithAccuracy_ne_nan _ _ _ _
  · simp
  · exact roundWithAccuracy_ne_nan _ _ _ _

/-- Only infinities of both signs add up to NaN. -/
theorem add_ne_nan {a b : UnpackedFloat} (ha : a ≠ .notANumber) (hb : b ≠ .notANumber)
    (h : ∀ s s', a = .infinity s → b = .infinity s' → s = s') :
    UnpackedFloat.add Format.binary64 a b ≠ .notANumber := by
  cases a with
  | notANumber => exact absurd rfl ha
  | infinity s =>
    cases b with
    | notANumber => exact absurd rfl hb
    | infinity s' =>
      obtain rfl := h s s' rfl rfl
      cases s <;> simp [UnpackedFloat.add]
    | zero | finite => simp [UnpackedFloat.add]
  | zero s =>
    cases b with
    | notANumber => exact absurd rfl hb
    | zero s' => cases s <;> cases s' <;> simp [UnpackedFloat.add]
    | infinity | finite => simp [UnpackedFloat.add]
  | finite =>
    cases b with
    | notANumber => exact absurd rfl hb
    | finite => exact normalize_ne_nan _ _ _
    | infinity | zero => simp [UnpackedFloat.add]

theorem mul_ne_nan {a b : UnpackedFloat} (ha : a.isFinite = true) (hb : b.isFinite = true) :
    UnpackedFloat.mul Format.binary64 a b ≠ .notANumber := by
  cases a with
  | notANumber | infinity => cases ha
  | zero =>
    cases b with
    | notANumber | infinity => cases hb
    | zero | finite => simp [UnpackedFloat.mul]
  | finite =>
    cases b with
    | notANumber | infinity => cases hb
    | zero => simp [UnpackedFloat.mul]
    | finite => exact roundWithAccuracy_ne_nan _ _ _ _

theorem NotNegative.mul {a b : UnpackedFloat} (ha : NotNegative a) (hb : NotNegative b)
    (hnan : UnpackedFloat.mul Format.binary64 a b ≠ .notANumber) :
    NotNegative (UnpackedFloat.mul Format.binary64 a b) := by
  cases a with
  | notANumber => exact ha.elim
  | zero =>
    cases b with
    | notANumber => exact hb.elim
    | infinity => exact absurd rfl hnan
    | zero | finite => trivial
  | infinity s =>
    obtain rfl : s = .positive := ha
    cases b with
    | notANumber => exact hb.elim
    | zero => exact absurd rfl hnan
    | infinity s' | finite s' =>
      obtain rfl : s' = .positive := hb
      rfl
  | finite s m e hm =>
    obtain rfl : s = .positive := ha
    cases b with
    | notANumber => exact hb.elim
    | zero => trivial
    | infinity s' =>
      obtain rfl : s' = .positive := hb
      rfl
    | finite s' m' e' hm' =>
      obtain rfl : s' = .positive := hb
      exact (positive_roundWithAccuracy ..).notNegative (roundWithAccuracy_ne_nan _ _ _ _)

/-- A number of the unit interval plus or minus another one is a number. -/
theorem isNaN_add_sign_mul {x rate : Float} (d : Direction) (hx : Profile.inUnit x = true)
    (hrate : Profile.inUnit rate = true) : (x + d.sign * rate).isNaN = false := by
  have hsign : (taken d.sign).isFinite = true := by cases d <;> rfl
  have hproduct : taken (d.sign * rate) ≠ .notANumber :=
    unpack_pack_ne_nan (mul_ne_nan hsign (notNegative_of_inUnit hrate).2)
  obtain ⟨hpos, hfinite⟩ := notNegative_of_inUnit hx
  apply isNaN_eq_false_iff.2 (unpack_pack_ne_nan (add_ne_nan hpos.ne_nan hproduct ?_))
  intro s s' hinf _
  rw [hinf] at hfinite
  cases hfinite

/-- A weighted sum of numbers of the unit interval is a number. -/
theorem isNaN_weighted {a b x y : Float} (ha : Profile.inUnit a = true) (hb : Profile.inUnit b = true)
    (hx : Profile.inUnit x = true) (hy : Profile.inUnit y = true) : (a * x + b * y).isNaN = false := by
  have hproduct : ∀ {a x : Float}, Profile.inUnit a = true → Profile.inUnit x = true →
      NotNegative (taken (a * x)) := by
    intro a x ha hx
    obtain ⟨hapos, hafinite⟩ := notNegative_of_inUnit ha
    obtain ⟨hxpos, hxfinite⟩ := notNegative_of_inUnit hx
    exact (hapos.mul hxpos (mul_ne_nan hafinite hxfinite)).unpack_pack
  have hax := hproduct ha hx
  have hby := hproduct hb hy
  apply isNaN_eq_false_iff.2 (unpack_pack_ne_nan (add_ne_nan hax.ne_nan hby.ne_nan ?_))
  intro s s' hs hs'
  rw [hs] at hax
  rw [hs'] at hby
  exact hax.trans hby.symm

end Persona.Decimal
