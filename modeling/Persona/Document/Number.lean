import Persona.Decimal.Reading
import Persona.Document

/-! Numbers in JSON documents.

A whole number below `2^64` is natural. Every other number is rounded twice: its
first digits, as many as stay below `2^64`, are rounded to binary64, and what
they give is multiplied or divided by the power of ten that is left. -/
namespace Persona.Document

/-! ### Form -/

/-- The parts of a number; the digits of a fraction and an exponent may be missing. -/
structure Numeral where
  negative : Bool
  whole : List Char
  fraction : Option (List Char)
  exponent : Option Int

/-- A whole part is zero or does not begin with a zero. -/
def isWhole (ds : List Char) : Bool := !ds.isEmpty && (ds.head? != some '0' || ds.length == 1)

/-- An exponent, if there is one and nothing behind it. -/
def exponent? : List Char → Option (Option Int)
  | [] => some none
  | e :: rest =>
    let (negative, ds) := match rest with
      | '-' :: ds => (true, ds)
      | '+' :: ds => (false, ds)
      | ds => (false, ds)
    let n : Int := Decimal.digitsValue ds
    if (e == 'e' || e == 'E') && !ds.isEmpty && ds.all Decimal.isDecimalDigit then
      some (some (if negative then -n else n))
    else none

/-- `-? whole ('.' digits)? ([eE] [+-]? digits)?` -/
def numeral? (cs : List Char) : Option Numeral := do
  let (negative, cs) := match cs with
    | '-' :: rest => (true, rest)
    | cs => (false, cs)
  let whole := cs.takeWhile Decimal.isDecimalDigit
  let (fraction, rest) := match cs.drop whole.length with
    | '.' :: rest =>
      (some (rest.takeWhile Decimal.isDecimalDigit), rest.dropWhile Decimal.isDecimalDigit)
    | rest => (none, rest)
  let exponent ← exponent? rest
  if isWhole whole && fraction != some [] then return ⟨negative, whole, fraction, exponent⟩ else none

/-! ### Value -/

/-- Puts digits behind a number as long as it stays a machine word, and counts them. -/
def takeDigits (n : Nat) : List Char → Nat × Nat
  | [] => (n, 0)
  | d :: ds =>
    let longer := 10 * n + Decimal.digitsValue [d]
    if longer ≤ Decimal.wordMax then
      let (n, count) := takeDigits longer ds
      (n, count + 1)
    else (n, 0)

/-- The greatest exponent of a power of ten in binary64. -/
def maxPower : Nat := 308

/-- A quotient by a power of ten; by one that is too great, in steps. -/
def dividedBy (x : Float) (power : Nat) : Float :=
  if power ≤ maxPower then x / Decimal.nearest 1 power
  else if x == 0.0 then x
  else dividedBy (x / Decimal.nearest 1 maxPower) (power - maxPower)
termination_by power
decreasing_by
  unfold maxPower at *
  omega

/-- A product with a power of ten, unless it is infinite. -/
def multipliedBy? (x : Float) (power : Nat) : Option Float :=
  if x == 0.0 then some x
  else if maxPower < power then none
  else
    let y := x * Decimal.nearest 1 power
    if y.isInf then none else some y

/-- What a numeral stands for. -/
def Numeral.document (m : Numeral) : Document :=
  let (n, ofWhole) := takeDigits 0 m.whole
  if ofWhole = m.whole.length && !m.negative && m.fraction.isNone && m.exponent.isNone then natural n
  else
    let (n, ofFraction) := takeDigits n (m.fraction.getD [])
    let power : Int := (m.whole.length - ofWhole : Nat) - (ofFraction : Int) + m.exponent.getD 0
    let magnitude? := match power with
      | .ofNat k => multipliedBy? (Float.ofNat n) k
      | .negSucc k => some (dividedBy (Float.ofNat n) (k + 1))
    match magnitude? with
    | some x => number (if m.negative then -x else x)
    | none => unreadable

end Persona.Document
