import Persona.Decimal.Binary64

/-! The shortest decimal that reads back as a given number.

The reals that round to a number form an interval around it, closed exactly when
the mantissa is even. For one digit, two digits and so on the two neighbours of
the number on that decimal grid are tested against the interval. The first grid
with a hit wins, and of two hits the nearer. Two that are equally near are told
apart by the notation's `Tie`. -/
namespace Persona.Decimal

/-- A positive decimal fraction `0.d₁d₂… · 10^point`, as the number that its digits form. -/
structure Digits where
  digits : Nat
  point : Int
deriving DecidableEq

/-- Which of two equally near digits stands: the larger, or the even one. -/
inductive Tie where
  | up
  | even
deriving DecidableEq

/-- `10^k`. -/
def tenTo (k : Nat) : Nat := Nat.pow 10 k

/-- The number of decimal digits, none for zero. -/
def decimalLength (n : Nat) : Nat := if n = 0 then 0 else (Nat.toDigits 10 n).length

/-- The `e` with `10^(e-1) ≤ num/den < 10^e`. -/
def magnitude (num den : Nat) : Int :=
  if den ≤ num then decimalLength (num / den)
  else 1 - (decimalLength ((den + num - 1) / num - 1) : Int)

/-- A positive number and its rounding interval, over a common denominator. -/
structure Interval where
  value : Nat
  low : Nat
  high : Nat
  den : Nat
  closed : Bool

/-- The interval of a positive number: it ends halfway to the neighbours. -/
def Interval.ofParts (p : Parts) : Interval :=
  let v := 4 * p.mantissa
  let low := if p.narrow then v - 1 else v - 2
  let e := p.exponent - 2
  let up := e.toNat
  ⟨v <<< up, low <<< up, (v + 2) <<< up, 1 <<< (-e).toNat, p.mantissa % 2 == 0⟩

/-- Whether `x / den` lies in the interval. -/
def Interval.holds (i : Interval) (x : Nat) : Bool :=
  if i.closed then i.low ≤ x && x ≤ i.high else i.low < x && x < i.high

/-- The neighbours on the grid of `count` digits, the hit if there is one. -/
def Interval.onGrid? (i : Interval) (tie : Tie) (point : Int) (count : Nat) : Option Nat :=
  -- One step of the grid is `10^(point - count)`; scale so that it is a natural.
  let t := point - count
  let scale := tenTo (-t).toNat
  let step := i.den * tenTo t.toNat
  let scaled : Interval := ⟨i.value * scale, i.low * scale, i.high * scale, i.den, i.closed⟩
  let below := scaled.value / step
  let above := below + 1
  let down := scaled.holds (below * step)
  let up := scaled.holds (above * step)
  let toBelow := scaled.value - below * step
  let toAbove := above * step - scaled.value
  let nearBelow := toBelow < toAbove || (toBelow == toAbove && tie == .even && below % 2 == 0)
  if down && (!up || nearBelow) then some below
  else if up then some above
  else none

/-- The first grid from `count` digits on that has a hit. -/
def Interval.search (i : Interval) (tie : Tie) (point : Int) : (fuel : Nat) → (count : Nat) → Digits
  | 0, count => ⟨i.value * tenTo (count - point).toNat / (i.den * tenTo (point - count).toNat), point⟩
  | fuel + 1, count =>
    match i.onGrid? tie point count with
    | some d => if d = tenTo count then ⟨1, point + 1⟩ else ⟨d, point⟩
    | none => i.search tie point fuel (count + 1)

/-- Seventeen digits always suffice for a binary64 number. -/
def shortest (tie : Tie) (p : Parts) : Digits :=
  let i := Interval.ofParts p
  let point := magnitude i.value i.den
  i.search tie point 17 1

end Persona.Decimal
