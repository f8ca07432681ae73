import Mathlib.Data.Nat.Digits.Defs
import Mathlib.Tactic.Ring
import Mathlib.Tactic.SplitIfs
import Persona.Encoding.Varint

/-! Reading variable-length integers.

A number stands in a *group* of bytes: some with their high bit set and a last one
without, seven bits in each, the low ones first. A reader finds the group that its bytes begin
with, if that has ten bytes at most and its number is below `2^64`, and finds nothing otherwise.
What is written is such a group; one with idle zeros at its end is read as well. -/
namespace Persona.Varint

theorem length_pos (n : Nat) : 0 < length n := by
  unfold length
  split <;> omega

theorem readFrom_taken_le (shift value : Nat) (bytes : List UInt8) :
    (readFrom shift value bytes).2 ≤ bytes.length := by
  induction bytes generalizing shift value with
  | nil => simp [readFrom]
  | cons b bs ih =>
    have := ih (shift + 7) (value + (b.toNat % 128) <<< shift)
    unfold readFrom
    simp only [List.length_cons]
    split_ifs <;> grind

theorem read_taken_le (bytes : List UInt8) : (read bytes).2 ≤ bytes.length :=
  readFrom_taken_le 0 0 bytes

/-! ### Groups -/

/-- Bytes with their high bit set, and a last one without. -/
def IsGroup (g : List UInt8) : Prop :=
  ∃ front last, g = front ++ [last] ∧ (∀ b ∈ front, 128 ≤ b.toNat) ∧ last.toNat < 128

/-- Seven bits of each byte, the low ones first. -/
def groupValue (g : List UInt8) : Nat := Nat.ofDigits 128 (g.map (·.toNat % 128))

theorem not_isGroup_nil : ¬IsGroup [] := by
  rintro ⟨front, last, hg, -⟩
  exact List.append_ne_nil_of_right_ne_nil front (List.cons_ne_nil last []) hg.symm

theorem isGroup_cons {b : UInt8} {bs : List UInt8} :
    IsGroup (b :: bs) ↔ b.toNat < 128 ∧ bs = [] ∨ 128 ≤ b.toNat ∧ IsGroup bs := by
  constructor
  · rintro ⟨front, last, hg, hfront, hlast⟩
    cases front with
    | nil =>
      cases hg
      exact .inl ⟨hlast, rfl⟩
    | cons c front =>
      cases hg
      have hrest : ∀ b ∈ front, 128 ≤ b.toNat := fun b hb => hfront b (List.mem_cons_of_mem _ hb)
      exact .inr ⟨hfront _ (List.mem_cons_self ..), front, last, rfl, hrest, hlast⟩
  · rintro (⟨hlast, rfl⟩ | ⟨hb, front, last, rfl, hfront, hlast⟩)
    · exact ⟨[], b, rfl, List.forall_mem_nil _, hlast⟩
    · exact ⟨b :: front, last, rfl, List.forall_mem_cons.2 ⟨hb, hfront⟩, hlast⟩

theorem groupValue_cons (b : UInt8) (bs : List UInt8) :
    groupValue (b :: bs) = b.toNat % 128 + 128 * groupValue bs := by
  rw [groupValue, List.map_cons, Nat.ofDigits_cons]
  rfl

/-- Where a group ends is seen from its bytes. -/
theorem IsGroup.eq_of_front {g g' : List UInt8} (h : IsGroup g) (h' : IsGroup g') (hfront : g' <+: g) :
    g' = g := by
  induction g' generalizing g with
  | nil => exact absurd h' not_isGroup_nil
  | cons b bs ih =>
    cases g with
    | nil => exact absurd h not_isGroup_nil
    | cons c cs =>
      obtain ⟨rfl, hrest⟩ := List.cons_prefix_cons.1 hfront
      rcases isGroup_cons.1 h with ⟨hb, rfl⟩ | ⟨hb, hcs⟩
      · rw [List.prefix_nil.1 hrest]
      · rcases isGroup_cons.1 h' with ⟨hb', -⟩ | ⟨-, hbs⟩
        · omega
        · rw [ih hcs hbs hrest]

/-! ### Reading on from a bit -/

/-- What stands in a group from bit `shift` on is joined to the bits before. -/
theorem value_cons (shift value : Nat) (b : UInt8) (bs : List UInt8) :
    value + (b.toNat % 128) <<< shift + groupValue bs <<< (shift + 7) =
      value + groupValue (b :: bs) <<< shift := by
  rw [groupValue_cons]
  simp only [Nat.shiftLeft_eq]
  ring

/-- A group is read from the bit on that its first byte holds. -/
theorem readFrom_group {g : List UInt8} (hg : IsGroup g) {shift : Nat} (hseven : shift % 7 = 0)
    (hlength : shift + 7 * g.length ≤ 70) (hfits : groupValue g <<< shift < 2 ^ 64) (value : Nat)
    (rest : List UInt8) :
    readFrom shift value (g ++ rest) = (some (value + groupValue g <<< shift), g.length) := by
  induction g generalizing shift value with
  | nil => exact absurd hg not_isGroup_nil
  | cons b bs ih =>
    rw [List.length_cons] at hlength
    have hsplit := value_cons shift 0 b bs
    rw [Nat.zero_add, Nat.zero_add] at hsplit
    -- At bit 63 there is room for one bit, and more of them would reach `2^64`.
    have hlow : ¬(shift = 63 ∧ 1 < b.toNat % 128) := by
      rintro ⟨rfl, hlow⟩
      rw [Nat.shiftLeft_eq] at hsplit
      omega
    rw [List.cons_append, readFrom]
    simp only [if_neg hlow, List.length_cons]
    rcases isGroup_cons.1 hg with ⟨hb, rfl⟩ | ⟨hb, hbs⟩
    · rw [if_pos hb, ← value_cons]
      simp [groupValue]
    · have hpos : 0 < bs.length := List.length_pos_iff.2 fun hnil => not_isGroup_nil (hnil ▸ hbs)
      have hrest : groupValue bs <<< (shift + 7) < 2 ^ 64 :=
        Nat.lt_of_le_of_lt (hsplit ▸ Nat.le_add_left ..) hfits
      rw [if_neg (by omega), if_neg (by omega), ih hbs (by omega) (by omega) hrest, value_cons]

/-- A number has room for seven bits below it. -/
theorem group_fits {low high shift : Nat} (hlow : low < 128) (hshift : shift + 7 ≤ 63)
    (hhigh : high <<< (shift + 7) < 2 ^ 64) : (low + 128 * high) <<< shift < 2 ^ 64 := by
  obtain ⟨room, hroom⟩ := Nat.exists_eq_add_of_le hshift
  have hpow : 2 ^ 64 = 2 ^ (shift + 7) * 2 ^ (room + 1) := by
    rw [← Nat.pow_add]
    congr 1
    omega
  rw [Nat.shiftLeft_eq] at hhigh ⊢
  have hle : high + 1 ≤ 2 ^ (room + 1) := by
    rw [hpow, Nat.mul_comm] at hhigh
    exact Nat.lt_of_mul_lt_mul_left hhigh
  calc (low + 128 * high) * 2 ^ shift
    _ < (128 * (high + 1)) * 2 ^ shift := Nat.mul_lt_mul_of_pos_right (by omega) (Nat.two_pow_pos shift)
    _ ≤ (128 * 2 ^ (room + 1)) * 2 ^ shift := Nat.mul_le_mul_right _ (Nat.mul_le_mul_left _ hle)
    _ = 2 ^ 64 := by rw [hpow]; ring

/-- The bits of a byte stay below `2^64` where a reader takes them. -/
theorem low_fits {shift low : Nat} (hseven : shift % 7 = 0) (hshift : shift ≤ 63) (hlow : low < 128)
    (hlast : ¬(shift = 63 ∧ 1 < low)) : low <<< shift < 2 ^ 64 := by
  by_cases h63 : shift = 63
  · subst h63
    rw [Nat.shiftLeft_eq]
    omega
  · have hroom : shift + 7 ≤ 63 := by omega
    simpa using group_fits hlow hroom (show 0 <<< (shift + 7) < 2 ^ 64 by simp)

/-- What is read is the number of a group at the front. -/
theorem group_of_readFrom {shift value n taken : Nat} {bytes : List UInt8} (hseven : shift % 7 = 0)
    (hshift : shift ≤ 63) (h : readFrom shift value bytes = (some n, taken)) :
    ∃ g, g <+: bytes ∧ IsGroup g ∧ shift + 7 * g.length ≤ 70 ∧ groupValue g <<< shift < 2 ^ 64 ∧
      n = value + groupValue g <<< shift ∧ taken = g.length := by
  induction bytes generalizing shift value taken with
  | nil => cases h
  | cons b bs ih =>
    rw [readFrom] at h
    simp only at h
    split_ifs at h with hlow hb hover
    · cases h
    · have hvalue : groupValue [b] = b.toNat % 128 := by simp [groupValue]
      have hfits : groupValue [b] <<< shift < 2 ^ 64 := by
        rw [hvalue]
        exact low_fits hseven hshift (Nat.mod_lt _ (by decide)) hlow
      cases h
      refine ⟨[b], List.prefix_append [b] bs, isGroup_cons.2 (.inl ⟨hb, rfl⟩), ?_, hfits, by rw [hvalue], rfl⟩
      rw [List.length_singleton]
      omega
    · cases h
    · cases hrest : readFrom (shift + 7) (value + (b.toNat % 128) <<< shift) bs with
      | mk result k =>
        rw [hrest] at h
        cases h
        obtain ⟨g, hfront, hg, hlength, hfits, rfl, rfl⟩ := ih (by omega) (by omega) hrest
        refine ⟨b :: g, List.cons_prefix_cons.2 ⟨rfl, hfront⟩, isGroup_cons.2 (.inr ⟨by omega, hg⟩), ?_, ?_,
          value_cons .., rfl⟩
        · rw [List.length_cons]
          omega
        · rw [groupValue_cons]
          exact group_fits (Nat.mod_lt _ (by decide)) (by omega) hfits

/-- A group that a reader takes for a number. -/
structure Readable (g : List UInt8) : Prop where
  isGroup : IsGroup g
  length_le : g.length ≤ 10
  fits : groupValue g < 2 ^ 64

theorem read_eq_iff {bytes : List UInt8} {n taken : Nat} :
    read bytes = (some n, taken) ↔
      ∃ g, g <+: bytes ∧ Readable g ∧ n = groupValue g ∧ taken = g.length := by
  constructor
  · intro h
    obtain ⟨g, hfront, hg, hlength, hfits, hn, htaken⟩ := group_of_readFrom rfl (Nat.zero_le 63) h
    rw [Nat.zero_add] at hlength hn
    exact ⟨g, hfront, ⟨hg, by omega, hfits⟩, hn, htaken⟩
  · rintro ⟨g, ⟨rest, rfl⟩, ⟨hg, hlength, hfits⟩, rfl, rfl⟩
    rw [read, readFrom_group hg rfl (by omega) hfits, Nat.zero_add]
    rfl

theorem read_eq_none_iff {bytes : List UInt8} :
    (read bytes).1 = none ↔ ¬∃ g, g <+: bytes ∧ Readable g := by
  constructor
  · rintro hnone ⟨g, hfront, hg⟩
    rw [read_eq_iff.2 ⟨g, hfront, hg, rfl, rfl⟩] at hnone
    cases hnone
  · intro hg
    cases h : read bytes with
    | mk result taken =>
      cases result with
      | none => rfl
      | some n =>
        obtain ⟨g, hfront, hreadable, -⟩ := read_eq_iff.1 h
        exact absurd ⟨g, hfront, hreadable⟩ hg

theorem read_group {g : List UInt8} (h : Readable g) (rest : List UInt8) :
    read (g ++ rest) = (some (groupValue g), g.length) :=
  read_eq_iff.2 ⟨g, List.prefix_append .., h, rfl, rfl⟩

/-! ### Written numbers -/

theorem isGroup_write (n : Nat) : IsGroup (write n) := by
  induction n using write.induct with
  | case1 n hn =>
    rw [write, if_pos hn, isGroup_cons, UInt8.toNat_ofNat']
    exact .inl ⟨by omega, rfl⟩
  | case2 n hn ih =>
    rw [write, if_neg hn, isGroup_cons, UInt8.toNat_ofNat']
    exact .inr ⟨by omega, ih⟩

theorem groupValue_write (n : Nat) : groupValue (write n) = n := by
  induction n using write.induct with
  | case1 n hn =>
    rw [write, if_pos hn, groupValue_cons, UInt8.toNat_ofNat']
    show n % 256 % 128 + 128 * 0 = n
    omega
  | case2 n hn ih =>
    rw [write, if_neg hn, groupValue_cons, ih, UInt8.toNat_ofNat']
    omega

/-- Every byte has room for seven bits. -/
theorem length_le {n k : Nat} (h : n < 128 ^ (k + 1)) : length n ≤ k + 1 := by
  induction k generalizing n with
  | zero =>
    rw [length, if_pos (by omega)]
  | succ k ih =>
    rw [length]
    split
    · omega
    · have := ih (n := n / 128) (by rw [Nat.div_lt_iff_lt_mul (by decide)]; exact h)
      omega

theorem readable_write {n : Nat} (h : n < 2 ^ 64) : Readable (write n) where
  isGroup := isGroup_write n
  length_le := by
    rw [length_write]
    exact length_le (k := 9) (Nat.lt_trans h (by decide))
  fits := by rwa [groupValue_write]

/-- What is written is read back, whatever follows it. -/
theorem read_write {n : Nat} (h : n < 2 ^ 64) (rest : List UInt8) :
    read (write n ++ rest) = (some n, length n) := by
  rw [read_group (readable_write h), groupValue_write, length_write]

theorem drop_length_write (n : Nat) (rest : List UInt8) : (write n ++ rest).drop (length n) = rest := by
  rw [← length_write]
  exact List.drop_left

end Persona.Varint
