import Persona.Decimal.Binary64

/-! From decimal text to the nearest binary64 number. -/
namespace Persona.Decimal

def isDecimalDigit (c : Char) : Bool := '0' ≤ c && c ≤ '9'

/-- The natural that decimal digits form. -/
def digitsValue (ds : List Char) : Nat :=
  ds.foldl (fun n c => 10 * n + (c.toNat - '0'.toNat)) 0

/-- The number nearest to `mantissa · 10^exponent`, ties to even. Beyond the range of
binary64 the power of ten is not formed: the answer is zero or infinity. -/
def nearest (mantissa : Nat) (exponent : Int) : Float :=
  let size := exponent + (Nat.toDigits 10 mantissa).length
  if mantissa = 0 || size < -400 then 0.0
  else if 400 < size then 1.0 / 0.0
  else Float.ofScientific mantissa (exponent < 0) exponent.natAbs

/-- A decimal without sign: digits with an optional point among them, and an optional
exponent. -/
def unsigned? (cs : List Char) : Option Float :=
  let whole := cs.takeWhile isDecimalDigit
  let afterWhole := cs.drop whole.length
  let (fraction, afterFraction) := match afterWhole with
    | '.' :: rest => (rest.takeWhile isDecimalDigit, rest.dropWhile isDecimalDigit)
    | rest => ([], rest)
  if whole.isEmpty && fraction.isEmpty then none
  else
    let value (e : Int) : Float := nearest (digitsValue (whole ++ fraction)) (e - fraction.length)
    match afterFraction with
    | [] => some (value 0)
    | e :: rest =>
      if e = 'e' ∨ e = 'E' then
        let (negative, ds) := match rest with
          | '-' :: ds => (true, ds)
          | '+' :: ds => (false, ds)
          | ds => (false, ds)
        if ds.isEmpty || !ds.all isDecimalDigit then none
        else
          let n : Int := digitsValue ds
          some (value (if negative then -n else n))
      else none

/-- Words that stand for numbers which have no digits, in any case. -/
def named? (cs : List Char) : Option Float :=
  match String.ofList (cs.map Char.toLower) with
  | "nan" => some (0.0 / 0.0)
  | "inf" | "infinity" => some (1.0 / 0.0)
  | _ => none

/-- The number that a text denotes: an optional sign before a decimal or a named number. -/
def parse? (s : String) : Option Float :=
  let magnitude? (cs : List Char) : Option Float := (unsigned? cs).or (named? cs)
  match s.toList with
  | '-' :: cs => (magnitude? cs).map fun x => -x
  | '+' :: cs => magnitude? cs
  | cs => magnitude? cs

end Persona.Decimal
