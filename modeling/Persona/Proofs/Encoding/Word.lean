import Persona.Proofs.Encoding.Varint

/-! Variable-length integers on machine words.

A machine joins the bits of a number in a word of 64 bits, where a shift may lose some and a sum
may wrap, and has the sign of an integer in every bit of a mask. On all bytes and all words this is
the arithmetic of `read`, `zigzag` and `unzigzag`: the two tests of the reader stop it before a bit is
lost. -/
namespace Persona.Varint

/-! ### Reading -/

/-- The same reader on a word of 64 bits: bits are joined by *or*, and a shift loses those that
leave the word. -/
def readWordFrom : (shift : Nat) → (word : UInt64) → List UInt8 → Option UInt64 × Nat
  | _, _, [] => (none, 0)
  | shift, word, b :: bs =>
    let low := (b &&& 0x7F).toUInt64
    if shift = 63 ∧ 1 < low then (none, 1)
    else
      let word := word ||| low <<< UInt64.ofNat shift
      if b &&& 0x80 = 0 then (some word, 1)
      else if 63 < shift + 7 then (none, 1)
      else
        let (result, taken) := readWordFrom (shift + 7) word bs
        (result, taken + 1)

def readWord (bytes : List UInt8) : Option UInt64 × Nat := readWordFrom 0 0 bytes

theorem toNat_low (b : UInt8) : (b &&& 0x7F).toUInt64.toNat = b.toNat % 128 := by
  rw [UInt8.toNat_toUInt64, UInt8.toNat_and]
  exact Nat.and_two_pow_sub_one_eq_mod b.toNat 7

/-- The high bit says whether another byte follows. -/
theorem high_eq_zero_iff (b : UInt8) : b &&& 0x80 = 0 ↔ b.toNat < 128 := by
  have hbits : ∀ n < 256, n &&& 128 = 0 ↔ n < 128 := by decide +kernel
  rw [← UInt8.toNat_inj, UInt8.toNat_and]
  exact hbits b.toNat b.toNat_lt

/-- No bit is lost or met twice where low bits are joined to those below them. -/
theorem toNat_join {word low : UInt64} {shift : Nat} (hshift : shift ≤ 63) (hword : word.toNat < 2 ^ shift)
    (hlow : low.toNat <<< shift < 2 ^ 64) :
    (word ||| low <<< UInt64.ofNat shift).toNat = word.toNat + low.toNat <<< shift := by
  have hamount : (UInt64.ofNat shift).toNat % 64 = shift := by
    rw [UInt64.toNat_ofNat']
    omega
  rw [UInt64.toNat_or, UInt64.toNat_shiftLeft, hamount, Nat.mod_eq_of_lt hlow, Nat.or_comm,
    ← Nat.shiftLeft_add_eq_or_of_lt hword, Nat.add_comm]

/-- Seven more bits reach seven places further. -/
theorem join_lt {word low shift : Nat} (hword : word < 2 ^ shift) (hlow : low < 128) :
    word + low <<< shift < 2 ^ (shift + 7) := by
  rw [Nat.shiftLeft_eq]
  calc word + low * 2 ^ shift
    _ < 2 ^ shift + low * 2 ^ shift := Nat.add_lt_add_right hword _
    _ = (low + 1) * 2 ^ shift := by ring
    _ ≤ 128 * 2 ^ shift := Nat.mul_le_mul_right _ hlow
    _ = 2 ^ (shift + 7) := by ring

/-- The word is the number read so far, at every byte. -/
theorem toNat_readWordFrom {shift : Nat} {word : UInt64} (hseven : shift % 7 = 0) (hshift : shift ≤ 63)
    (hword : word.toNat < 2 ^ shift) (bytes : List UInt8) :
    (readWordFrom shift word bytes).map (Option.map UInt64.toNat) id = readFrom shift word.toNat bytes := by
  induction bytes generalizing shift word with
  | nil => rfl
  | cons b bs ih =>
    have hone : 1 < (b &&& 0x7F).toUInt64 ↔ 1 < b.toNat % 128 := by
      rw [UInt64.lt_iff_toNat_lt, toNat_low]
      rfl
    rw [readWordFrom, readFrom]
    simp only [hone, high_eq_zero_iff]
    by_cases hlow : shift = 63 ∧ 1 < b.toNat % 128
    · simp only [if_pos hlow]
      rfl
    · have hfits : (b &&& 0x7F).toUInt64.toNat <<< shift < 2 ^ 64 := by
        rw [toNat_low]
        exact low_fits hseven hshift (Nat.mod_lt _ (by decide)) hlow
      have hjoin := toNat_join hshift hword hfits
      rw [toNat_low] at hjoin
      simp only [if_neg hlow]
      split_ifs with hb hover
      · rw [← hjoin]
        rfl
      · rfl
      · have hnext := join_lt hword (Nat.mod_lt b.toNat (show 0 < 128 by decide))
        rw [← hjoin] at hnext ⊢
        rw [← ih (by omega) (by omega) hnext]
        rfl

theorem toNat_readWord (bytes : List UInt8) : (readWord bytes).map (Option.map UInt64.toNat) id = read bytes :=
  toNat_readWordFrom rfl (Nat.zero_le 63) (by decide) bytes

/-! ### Signs -/

/-- An integer in two's complement as a word: the sign goes to the lowest bit, and the other bits
are turned over if it is set. -/
def zigzagWord (i : Int64) : UInt64 := (i <<< 1 ^^^ i >>> 63).toUInt64

def unzigzagWord (n : UInt64) : Int64 := (n >>> 1).toInt64 ^^^ -(n &&& 1).toInt64

/-- A shift over the whole word leaves the sign in every bit. -/
theorem sshiftRight_sign (x : BitVec 64) :
    x.sshiftRight 63 = if x.msb then BitVec.allOnes 64 else 0#64 := by
  have hzero : ∀ y : BitVec 64, y.msb = false → y >>> 63 = 0#64 := by
    intro y hy
    have hlt := BitVec.toNat_lt_of_msb_false hy
    apply BitVec.eq_of_toNat_eq
    rw [BitVec.toNat_ushiftRight, Nat.shiftRight_eq_div_pow, Nat.div_eq_of_lt hlt]
    rfl
  cases hx : x.msb with
  | false =>
    rw [BitVec.sshiftRight_eq_of_msb_false hx, hzero x hx]
    rfl
  | true =>
    rw [BitVec.sshiftRight_eq_of_msb_true hx, hzero (~~~x) (by simp [hx])]
    rfl

theorem toNat_zigzagWord (i : Int64) : (zigzagWord i).toNat = zigzag i.toInt := by
  have hword : (zigzagWord i).toNat = (i.toBitVec <<< 1 ^^^ i.toBitVec.sshiftRight 63).toNat := rfl
  have hint : i.toInt = i.toBitVec.toInt := rfl
  rw [hword, hint, sshiftRight_sign, BitVec.toInt_eq_msb_cond]
  generalize i.toBitVec = x
  have hlt := x.isLt
  cases hx : x.msb with
  | false =>
    have hlow := BitVec.toNat_lt_of_msb_false hx
    simp only [Bool.false_eq_true, if_false, BitVec.xor_zero, BitVec.toNat_shiftLeft, Nat.shiftLeft_eq, zigzag]
    omega
  | true =>
    have hhigh := BitVec.le_toNat_of_msb_true hx
    have hneg : (x.toNat : Int) - (2 ^ 64 : Nat) = Int.negSucc (2 ^ 64 - 1 - x.toNat) := by omega
    simp only [if_true, BitVec.xor_allOnes, BitVec.toNat_not, BitVec.toNat_shiftLeft, Nat.shiftLeft_eq, hneg, zigzag]
    omega

theorem toInt_unzigzagWord (n : UInt64) : (unzigzagWord n).toInt = unzigzag n.toNat := by
  have hint : (unzigzagWord n).toInt = (n.toBitVec >>> 1 ^^^ -(n.toBitVec &&& 1#64)).toInt := rfl
  have hword : n.toNat = n.toBitVec.toNat := rfl
  rw [hint, hword]
  generalize n.toBitVec = x
  have hlt := x.isLt
  have hhalf : (x >>> 1).toNat = x.toNat / 2 := by
    rw [BitVec.toNat_ushiftRight, Nat.shiftRight_eq_div_pow]
  have hbit : (x &&& 1#64).toNat = x.toNat % 2 := Nat.and_two_pow_sub_one_eq_mod x.toNat 1
  unfold unzigzag
  split_ifs with heven
  · have hzero : x &&& 1#64 = 0#64 := BitVec.eq_of_toNat_eq (hbit.trans heven)
    rw [hzero, BitVec.neg_zero, BitVec.xor_zero, BitVec.toInt_eq_toNat_cond, hhalf]
    simp only [Int.ofNat_eq_natCast]
    omega
  · have hone : x &&& 1#64 = 1#64 := BitVec.eq_of_toNat_eq (hbit.trans (by simp; omega))
    have hmask : -(1#64) = BitVec.allOnes 64 := rfl
    rw [hone, hmask, BitVec.xor_allOnes, BitVec.toInt_eq_toNat_cond, BitVec.toNat_not, hhalf]
    omega

theorem unzigzagWord_zigzagWord (i : Int64) : unzigzagWord (zigzagWord i) = i := by
  apply Int64.toInt_inj.1
  rw [toInt_unzigzagWord, toNat_zigzagWord, unzigzag_zigzag]

theorem zigzagWord_unzigzagWord (n : UInt64) : zigzagWord (unzigzagWord n) = n := by
  apply UInt64.toNat_inj.1
  rw [toNat_zigzagWord, toInt_unzigzagWord, zigzag_unzigzag]

/-! ### Main statement -/

/-- A reader at any position takes a number if a group of ten bytes at most begins there whose
value is below `2^64`, then that value and just the group, and otherwise nothing; it never goes
behind the end. What is written for a word has the length that it is said to have and is read back
from in front of any other bytes. Integers and words correspond one to one. All of it is so on words
of 64 bits as on unbounded numbers. -/
theorem read_exact :
    (∀ (bytes : List UInt8) (pos : Nat),
      (∀ n taken, read (bytes.drop pos) = (some n, taken) ↔
        ∃ g, g <+: bytes.drop pos ∧ Readable g ∧ n = groupValue g ∧ taken = g.length) ∧
      ((read (bytes.drop pos)).1 = none ↔ ¬∃ g, g <+: bytes.drop pos ∧ Readable g) ∧
      (read (bytes.drop pos)).2 ≤ bytes.length - pos ∧
      (readWord (bytes.drop pos)).map (Option.map UInt64.toNat) id = read (bytes.drop pos)) ∧
    (∀ (v : UInt64) (rest : List UInt8), (write v.toNat).length = length v.toNat ∧
      read (write v.toNat ++ rest) = (some v.toNat, length v.toNat) ∧
      (write v.toNat ++ rest).drop (length v.toNat) = rest) ∧
    (∀ i : Int64, unzigzagWord (zigzagWord i) = i ∧ (zigzagWord i).toNat = zigzag i.toInt) ∧
    ∀ n : UInt64, zigzagWord (unzigzagWord n) = n ∧ (unzigzagWord n).toInt = unzigzag n.toNat := by
  refine ⟨fun bytes pos => ⟨fun n taken => read_eq_iff, read_eq_none_iff, ?_, toNat_readWord _⟩, ?_, ?_, ?_⟩
  · rw [← List.length_drop]
    exact read_taken_le _
  · exact fun v rest => ⟨length_write _, read_write v.toNat_lt rest, drop_length_write _ rest⟩
  · exact fun i => ⟨unzigzagWord_zigzagWord i, toNat_zigzagWord i⟩
  · exact fun n => ⟨zigzagWord_unzigzagWord n, toInt_unzigzagWord n⟩

/-- The tenth byte of a number has one bit left. -/
example : read (List.replicate 9 0xFF ++ [0x01]) = (some (2 ^ 64 - 1), 10) ∧
    (read (List.replicate 9 0xFF ++ [0x02])).1 = none := by decide

end Persona.Varint
