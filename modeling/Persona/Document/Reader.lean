import Persona.Document.Number

/-! Reading JSON documents.

A document is one value with blanks around it. -/
namespace Persona.Document

def isSpace (c : Char) : Bool := c == ' ' || c == '\t' || c == '\n' || c == '\r'

def skipSpace (cs : List Char) : List Char := cs.dropWhile isSpace

/-- The characters of a number: what may stand in one, up to the first that may not. -/
def isNumberPart (c : Char) : Bool :=
  Decimal.isDecimalDigit c || c == '-' || c == '+' || c == '.' || c == 'e' || c == 'E'

def hexValue? (c : Char) : Option Nat :=
  if '0' ≤ c ∧ c ≤ '9' then some (c.toNat - '0'.toNat)
  else if 'a' ≤ c ∧ c ≤ 'f' then some (c.toNat - 'a'.toNat + 10)
  else if 'A' ≤ c ∧ c ≤ 'F' then some (c.toNat - 'A'.toNat + 10)
  else none

/-- The number that four hexadecimal digits form. -/
def unit? : List Char → Option (Nat × List Char)
  | a :: b :: c :: d :: rest => do
    let ds ← [a, b, c, d].mapM hexValue?
    return (ds.foldl (fun n h => 16 * n + h) 0, rest)
  | _ => none

/-- The second half of a surrogate pair. -/
def lowHalf? : List Char → Option (Nat × List Char)
  | '\\' :: 'u' :: rest => do
    let (low, rest) ← unit? rest
    if 0xDC00 ≤ low ∧ low < 0xE000 then return (low, rest) else none
  | _ => none

/-- What stands behind `\u`: the unit of a character, or a pair of surrogates. Half a pair
is no character. -/
def unicode? (cs : List Char) : Option (Option Char × List Char) := do
  let (unit, rest) ← unit? cs
  if unit < 0xD800 ∨ 0xE000 ≤ unit then return (some (Char.ofNat unit), rest)
  else
    match lowHalf? rest with
    | some (low, after) =>
      if unit < 0xDC00 then
        return (some (Char.ofNat (0x10000 + (unit - 0xD800) * 0x400 + (low - 0xDC00))), after)
      else return (none, rest)
    | none => return (none, rest)

/-- The character that a backslash and a letter stand for. -/
def unescape? (c : Char) : Option Char :=
  if c = 'b' then some '\x08'
  else if c = 't' then some '\t'
  else if c = 'n' then some '\n'
  else if c = 'f' then some '\x0c'
  else if c = 'r' then some '\r'
  else if c = '"' ∨ c = '\\' ∨ c = '/' then some c
  else none

/-- The rest of a text up to its quote, if it has a value. `before` is what was read, last
character first, as long as all of it has one. -/
def text? : (fuel : Nat) → (before : Option (List Char)) → List Char →
    Option (Option String × List Char)
  | 0, _, _ => none
  | fuel + 1, before, cs =>
    match cs with
    | [] => none
    | '"' :: rest => some (before.map fun cs => String.ofList cs.reverse, rest)
    | '\\' :: 'u' :: rest => do
      let (c, rest) ← unicode? rest
      text? fuel (before.bind fun cs => c.map (· :: cs)) rest
    | '\\' :: d :: rest => do
      let c ← unescape? d
      text? fuel (before.map (c :: ·)) rest
    | c :: rest => if c.toNat < 0x20 then none else text? fuel (before.map (c :: ·)) rest

mutual

/-- A value at the front and what is behind it. Every call takes a character or leaves one
to a call that does, so that twice the length is fuel enough. -/
def value? : (fuel : Nat) → List Char → Option (Document × List Char)
  | 0, _ => none
  | fuel + 1, cs =>
    match skipSpace cs with
    | '"' :: rest => do
      let (s, rest) ← text? (rest.length + 1) (some []) rest
      return ((s.map string).getD unreadable, rest)
    | '[' :: rest =>
      match skipSpace rest with
      | ']' :: rest => some (array [], rest)
      | rest => items? fuel [] rest
    | '\x7b' :: rest =>
      match skipSpace rest with
      | '\x7d' :: rest => some (object [], rest)
      | rest => members? fuel (some []) rest
    | 't' :: 'r' :: 'u' :: 'e' :: rest => some (bool true, rest)
    | 'f' :: 'a' :: 'l' :: 's' :: 'e' :: rest => some (bool false, rest)
    | 'n' :: 'u' :: 'l' :: 'l' :: rest => some (null, rest)
    | rest => do
      let m ← numeral? (rest.takeWhile isNumberPart)
      return (m.document, rest.dropWhile isNumberPart)

/-- The items of an array up to its bracket, last first. -/
def items? : (fuel : Nat) → List Document → List Char → Option (Document × List Char)
  | 0, _, _ => none
  | fuel + 1, before, cs => do
    let (d, rest) ← value? fuel cs
    match skipSpace rest with
    | ',' :: rest => items? fuel (d :: before) rest
    | ']' :: rest => return (array (d :: before).reverse, rest)
    | _ => none

/-- The members of an object up to its brace, last first, as long as their names have
values. -/
def members? : (fuel : Nat) → Option (List (String × Document)) → List Char →
    Option (Document × List Char)
  | 0, _, _ => none
  | fuel + 1, before, cs => do
    match skipSpace cs with
    | '"' :: rest =>
      let (key, rest) ← text? (rest.length + 1) (some []) rest
      match skipSpace rest with
      | ':' :: rest =>
        let (d, rest) ← value? fuel rest
        let members := before.bind fun ms => key.map fun key => (key, d) :: ms
        match skipSpace rest with
        | ',' :: rest => members? fuel members rest
        | '\x7d' :: rest => return ((members.map fun ms => object ms.reverse).getD unreadable, rest)
        | _ => none
      | _ => none
    | _ => none

end

/-- The document that a text is. -/
def parse? (s : String) : Option Document :=
  let cs := s.toList
  match value? (2 * cs.length + 2) cs with
  | some (d, rest) => if (skipSpace rest).isEmpty then some d else none
  | none => none

end Persona.Document
