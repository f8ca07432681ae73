/-! Binary64 numbers in exact arithmetic.

A finite number is `± mantissa · 2^exponent` with natural mantissa; the layout of
its bits gives the three parts. Everything that must be exact about a number —
its decimal text, whether it is an integer, its remainder, its place in the total
order — is computed from the parts in `Nat` and `Int`. -/
namespace Persona.Decimal

/-- `± mantissa · 2^exponent`. `narrow` says that the number below is only half as
far away as the one above: the mantissa is the least of its binade. -/
structure Parts where
  negative : Bool
  mantissa : Nat
  exponent : Int
  narrow : Bool
deriving DecidableEq

/-- The classes of bit patterns. -/
inductive Class where
  | finite (parts : Parts)
  | infinite (negative : Bool)
  | nan

/-- The bit above the 52 bits of the fraction. It is set in every number but the smallest,
and so is not stored. -/
def hiddenBit : Nat := 1 <<< 52

/-- Reads a bit pattern: one sign bit, eleven exponent bits, 52 fraction bits. -/
def Class.ofBits (bits : UInt64) : Class :=
  let n := bits.toNat
  let negative := n.testBit 63
  let exponent : Nat := n / hiddenBit % 2048
  let fraction := n % hiddenBit
  if exponent = 2047 then if fraction = 0 then .infinite negative else .nan
  else if exponent = 0 then .finite ⟨negative, fraction, -1074, false⟩
  else .finite ⟨negative, hiddenBit + fraction, (exponent : Int) - 1075, fraction == 0 && exponent != 1⟩

def classify (x : Float) : Class := .ofBits x.toBits

/-- The integer that the parts denote, if they denote one. -/
def Parts.integer? (p : Parts) : Option Int :=
  let magnitude? : Option Nat := match p.exponent with
    | .ofNat e => some (p.mantissa <<< e)
    | .negSucc e =>
      if p.mantissa % (1 <<< (e + 1)) = 0 then some (p.mantissa >>> (e + 1)) else none
  magnitude?.map fun n => if p.negative then -(n : Int) else n

/-- The integer that a number is, if it is one. -/
def integer? (x : Float) : Option Int :=
  match classify x with
  | .finite p => p.integer?
  | _ => none

/-- The integer that a number is, if it is one of magnitude below `bound`. -/
def integerBelow? (bound : Nat) (x : Float) : Option Int :=
  (integer? x).filter (·.natAbs < bound)

/-- The largest value of an unsigned 64-bit word. -/
def wordMax : Nat := 1 <<< 64 - 1

/-- The number cut to a natural, at least zero and at most `wordMax`; zero for NaN. -/
def toWord (x : Float) : Nat :=
  match classify x with
  | .nan => 0
  | .infinite negative => if negative then 0 else wordMax
  | .finite p =>
    if p.negative then 0
    else match p.exponent with
      | .ofNat e => min wordMax (p.mantissa <<< e)
      | .negSucc e => min wordMax (p.mantissa >>> (e + 1))

/-- The number with the given parts, for a mantissa and exponent that a binary64
number can hold exactly. -/
def compose (negative : Bool) (mantissa : Nat) (exponent : Int) : Float :=
  -- Widen the mantissa to 53 bits, as far as the least exponent allows.
  let shift := min (52 - mantissa.log2) (exponent + 1074).toNat
  let m := mantissa <<< shift
  let biased := if m < hiddenBit then 0 else (exponent - shift + 1075).toNat
  let sign := if negative then 1 <<< 63 else 0
  Float.ofBits (UInt64.ofNat (sign + biased * hiddenBit + m % hiddenBit))

/-- The remainder of division with the quotient cut toward zero. It is exact and
takes the sign of the dividend. -/
def remainder (x y : Float) : Float :=
  match classify x, classify y with
  | .finite a, .finite b =>
    if b.mantissa = 0 then 0.0 / 0.0
    else
      let e := min a.exponent b.exponent
      let m := a.mantissa <<< (a.exponent - e).toNat % (b.mantissa <<< (b.exponent - e).toNat)
      compose a.negative m e
  | .finite _, .infinite _ => x
  | _, _ => 0.0 / 0.0

/-- A key whose order is the total order of binary64: by value, and a negative zero
below a positive one. -/
def orderKey (x : Float) : Int :=
  let n := x.toBits.toNat
  if n.testBit 63 then -((n % (1 <<< 63) : Nat) : Int) - 1 else n

/-- The nearest value in `[lo, hi]`; NaN stays. -/
def clamp (lo hi x : Float) : Float := if x < lo then lo else if hi < x then hi else x

def isFinite (x : Float) : Bool :=
  match classify x with
  | .finite _ => true
  | _ => false

end Persona.Decimal
