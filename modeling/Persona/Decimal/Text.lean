import Persona.Decimal.Shortest

/-! Numbers as text.

Four notations, each for one kind of output: `positional` never uses an exponent,
`notated` is what JSON documents hold, `fixed` has a set number of places, and
`number` is how a program prints its own numbers. All but `fixed` write the
shortest digits. -/
namespace Persona.Decimal

def zeros (n : Nat) : String := String.ofList (List.replicate n '0')

/-- The digits with the point put in by position; `whole` is what follows the digits of
an integer. -/
def Digits.positional (d : Digits) (whole : String) : String :=
  let ds := toString d.digits
  match d.point with
  | .negSucc e => s!"0.{zeros (e + 1)}{ds}"
  | .ofNat 0 => s!"0.{ds}"
  | .ofNat p =>
    if ds.length ≤ p then s!"{ds}{zeros (p - ds.length)}{whole}"
    else s!"{String.ofList (ds.toList.take p)}.{String.ofList (ds.toList.drop p)}"

/-- One digit before the point, an `e` and the power of ten. -/
def Digits.scientific (d : Digits) : String :=
  match (toString d.digits).toList with
  | [] => "0"
  | c :: cs =>
    let mantissa := if cs.isEmpty then String.singleton c else s!"{c}.{String.ofList cs}"
    s!"{mantissa}e{d.point - 1}"

def signText (negative : Bool) : String := if negative then "-" else ""

/-- Shortest digits, never an exponent, no point in an integer; a negative zero keeps its
sign. -/
def positional (x : Float) : String :=
  match classify x with
  | .nan => "NaN"
  | .infinite negative => signText negative ++ "inf"
  | .finite p =>
    signText p.negative ++ if p.mantissa = 0 then "0" else (shortest .up p).positional ""

/-- Shortest digits, at least one place, and an exponent below `10⁻⁵` and from `10¹⁶`
on. JSON has no text for the numbers that are not finite. -/
def notated (x : Float) : String :=
  match classify x with
  | .finite p =>
    let d := shortest .even p
    signText p.negative ++
      if p.mantissa = 0 then "0.0"
      else if -5 < d.point && d.point ≤ 16 then d.positional ".0"
      else d.scientific
  | _ => "null"

/-- The quotient rounded to the nearest natural, a half to the even one. -/
def roundDiv (num den : Nat) : Nat :=
  let q := num / den
  let r := num % den
  if den < 2 * r || (2 * r == den && q % 2 == 1) then q + 1 else q

/-- `places` places, a half going to the even digit. -/
def fixed (places : Nat) (x : Float) : String :=
  match classify x with
  | .nan => "NaN"
  | .infinite negative => signText negative ++ "inf"
  | .finite p =>
    let scaled := roundDiv (p.mantissa <<< p.exponent.toNat * tenTo places) (1 <<< (-p.exponent).toNat)
    let ds := toString scaled
    let ds := zeros (places + 1 - ds.length) ++ ds
    let cut := ds.length - places
    let point := if places = 0 then "" else "."
    signText p.negative ++
      s!"{String.ofList (ds.toList.take cut)}{point}{String.ofList (ds.toList.drop cut)}"

/-- How a program prints a number: an integer below `10¹⁵` as an integer, so that both
zeros are `0`, and every other number in positional notation. -/
def number (x : Float) : String :=
  match integerBelow? (tenTo 15) x with
  | some n => toString n
  | none => positional x

end Persona.Decimal
