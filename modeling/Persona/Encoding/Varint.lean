/-! Variable-length integers.

A natural below `2^64` is a group of bytes, seven bits in each, low bits first;
every byte but the last has its high bit set. A reader tells how many bytes it
took, also where it fails. -/
namespace Persona.Varint

def write (n : Nat) : List UInt8 :=
  if n < 128 then [UInt8.ofNat n] else UInt8.ofNat (n % 128 + 128) :: write (n / 128)
termination_by n
decreasing_by omega

/-- Reads on from the byte that holds the bits `shift …`, with the value of those before. -/
def readFrom : (shift value : Nat) → List UInt8 → Option Nat × Nat
  | _, _, [] => (none, 0)
  | shift, value, b :: bs =>
    let low := b.toNat % 128
    if shift = 63 ∧ 1 < low then (none, 1)
    else if b.toNat < 128 then (some (value + low <<< shift), 1)
    else if 63 < shift + 7 then (none, 1)
    else
      let (result, taken) := readFrom (shift + 7) (value + low <<< shift) bs
      (result, taken + 1)

/-- The number at the front, unless the bytes end first or it is `2^64` or more, and the
number of bytes taken. -/
def read (bytes : List UInt8) : Option Nat × Nat := readFrom 0 0 bytes

/-- Integers as naturals: zero, minus one, one, minus two and so on. -/
def zigzag (i : Int) : Nat :=
  match i with
  | .ofNat n => 2 * n
  | .negSucc n => 2 * n + 1

def unzigzag (n : Nat) : Int := if n % 2 = 0 then .ofNat (n / 2) else .negSucc (n / 2)

theorem unzigzag_zigzag (i : Int) : unzigzag (zigzag i) = i := by
  cases i with
  | ofNat n => simp [zigzag, unzigzag]
  | negSucc n =>
    have hd : (2 * n + 1) / 2 = n := by omega
    simp [zigzag, unzigzag, hd]

theorem zigzag_unzigzag (n : Nat) : zigzag (unzigzag n) = n := by
  unfold unzigzag
  split
  · simp only [zigzag]
    omega
  · simp only [zigzag]
    omega

/-- The number of bytes that `write` gives. -/
def length (n : Nat) : Nat := if n < 128 then 1 else 1 + length (n / 128)
termination_by n
decreasing_by omega

@[simp] theorem length_write (n : Nat) : (write n).length = length n := by
  fun_induction write n with
  | case1 n h => simp [length, h]
  | case2 n h ih =>
    rw [length, if_neg h, List.length_cons, ih]
    omega

end Persona.Varint
