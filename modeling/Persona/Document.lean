import Persona.Decimal.Text
import Persona.Instruction.Decode

/-! JSON documents and their text.

Members of an object keep their order. A number is written with the fewest
digits that read back; a natural number has no point. What follows the grammar
can still have no value, such as a number beyond binary64 or a text with half a
surrogate pair: it is `unreadable`, and does no harm where it is not looked at. -/
namespace Persona

inductive Document where
  | null
  | bool (b : Bool)
  | natural (n : Nat)
  | number (x : Float)
  | string (s : String)
  | array (items : List Document)
  | object (members : List (String × Document))
  | unreadable

namespace Document

def ofOption (f : α → Document) : Option α → Document
  | some x => f x
  | none => null

/-! ### Texts -/

/-- Control characters that have a letter of their own. -/
def escapeLetter? (c : Char) : Option Char :=
  if c = '\x08' then some 'b'
  else if c = '\t' then some 't'
  else if c = '\n' then some 'n'
  else if c = '\x0c' then some 'f'
  else if c = '\r' then some 'r'
  else if c = '"' ∨ c = '\\' then some c
  else none

/-- How a character is written inside quotes. -/
def escape (c : Char) : List Char :=
  match escapeLetter? c with
  | some d => ['\\', d]
  | none =>
    if c.toNat < 0x20 then ['\\', 'u', '0', '0', hexDigit (c.toNat / 16), hexDigit c.toNat] else [c]

def quote (s : String) : String := String.ofList ('"' :: s.toList.flatMap escape ++ ['"'])

/-! ### Layout -/

/-- Parts between brackets, each behind `lead` and the last followed by `close`. -/
def enclosed (opening closing lead tail : String) (parts : List String) : String :=
  if parts.isEmpty then opening ++ closing
  else opening ++ lead ++ (("," ++ lead).intercalate parts) ++ tail ++ closing

mutual

/-- On one line, without blanks. -/
def compact : Document → String
  | null | unreadable => "null"
  | bool b => toString b
  | natural n => toString n
  | number x => Decimal.notated x
  | string s => quote s
  | array items => enclosed "[" "]" "" "" (compactItems items)
  | object members => enclosed "\x7b" "\x7d" "" "" (compactMembers members)
termination_by structural d => d

def compactItems : List Document → List String
  | [] => []
  | d :: rest => compact d :: compactItems rest
termination_by structural ds => ds

def compactMembers : List (String × Document) → List String
  | [] => []
  | (key, d) :: rest => s!"{quote key}:{compact d}" :: compactMembers rest
termination_by structural ms => ms

end

/-- A new line at a depth, of two blanks each. -/
def lineFeed (depth : Nat) : String := "\n" ++ String.join (List.replicate depth "  ")

mutual

/-- An item or member a line. -/
def pretty (depth : Nat) : Document → String
  | null | unreadable => "null"
  | bool b => toString b
  | natural n => toString n
  | number x => Decimal.notated x
  | string s => quote s
  | array items => enclosed "[" "]" (lineFeed (depth + 1)) (lineFeed depth) (prettyItems (depth + 1) items)
  | object members =>
    enclosed "\x7b" "\x7d" (lineFeed (depth + 1)) (lineFeed depth) (prettyMembers (depth + 1) members)
termination_by structural d => d

def prettyItems (depth : Nat) : List Document → List String
  | [] => []
  | d :: rest => pretty depth d :: prettyItems depth rest
termination_by structural ds => ds

def prettyMembers (depth : Nat) : List (String × Document) → List String
  | [] => []
  | (key, d) :: rest => s!"{quote key}: {pretty depth d}" :: prettyMembers depth rest
termination_by structural ms => ms

end

end Document

end Persona
