import Persona.Decimal.Text
import Persona.Builtin
import Persona.Syntax
import Persona.Text.Keyed
import Persona.Text.Quoted

/-! The values that programs compute with.

A value never changes once it is made. Functions are told apart by their
identity and not by what they do. -/
namespace Persona

/-- What a value is; both sorts of functions are functions. -/
inductive Kind where
  | null | bool | number | string | array | map | function
deriving DecidableEq

def Kind.name : Kind → String
  | null => "null"
  | bool => "bool"
  | number => "number"
  | string => "string"
  | array => "array"
  | map => "map"
  | function => "function"

/-- Every time a program makes a function it gets a new serial number. -/
structure FunctionId where
  serial : Nat
  name : String
deriving DecidableEq

/-- What a function runs: statements of its declaration, or code from an offset on. -/
inductive FunctionBody where
  | script (statements : List Stmt)
  | compiled (entry : Nat)

structure Function where
  id : FunctionId
  params : List String
  body : FunctionBody

inductive Value where
  | null
  | bool (b : Bool)
  | number (x : Float)
  | string (s : String)
  | array (items : Array Value)
  | map (entries : List (String × Value))
  | function (f : Function)
  | builtin (b : Builtin)

namespace Value

instance : Inhabited Value := ⟨null⟩

def ofLiteral : Literal → Value
  | .number x => number x
  | .string s => string s
  | .bool b => bool b
  | .null => null

def kind : Value → Kind
  | null => .null
  | bool _ => .bool
  | number _ => .number
  | string _ => .string
  | array _ => .array
  | map _ => .map
  | function _ | builtin _ => .function

/-- Whether a condition with this value holds: null, `false`, zero and the empty text are
the values that do not. -/
def isTruthy : Value → Bool
  | null => false
  | bool b => b
  | number x => x != 0.0
  | string s => s != ""
  | _ => true

def string? : Value → Option String
  | string s => some s
  | _ => none

/-- Integers used as counts and places lie within this bound. -/
def integerBound : Nat := 9 * Decimal.tenTo 15

def integer? : Value → Option Int
  | number x => Decimal.integerBelow? integerBound x
  | _ => none

mutual

/-- Equality as programs see it: numbers as numbers, functions by identity. -/
def beq : Value → Value → Bool
  | null, null => true
  | bool a, bool b => a == b
  | number x, number y => x == y
  | string s, string t => s == t
  | array ⟨xs⟩, array ⟨ys⟩ => listBeq xs ys
  | map m, map n => entriesBeq m n
  | function f, function g => f.id == g.id
  | builtin a, builtin b => a == b
  | _, _ => false
termination_by structural v => v

def listBeq : List Value → List Value → Bool
  | [], [] => true
  | x :: xs, y :: ys => beq x y && listBeq xs ys
  | _, _ => false
termination_by structural xs => xs

def entriesBeq : List (String × Value) → List (String × Value) → Bool
  | [], [] => true
  | (k, x) :: xs, (l, y) :: ys => k == l && beq x y && entriesBeq xs ys
  | _, _ => false
termination_by structural xs => xs

end

instance : BEq Value := ⟨beq⟩

mutual

/-- Puts the text of a value behind another text. -/
def write (before : String) : Value → String
  | null => before ++ "null"
  | bool b => before ++ toString b
  | number x => before ++ Decimal.number x
  | string s => before ++ s
  | array ⟨items⟩ => writeItems (before ++ "[") "" items ++ "]"
  | map entries => writeEntries (before ++ "\x7b") "" entries ++ "\x7d"
  | function f => before ++ s!"<fn {f.id.name}>"
  | builtin b => before ++ s!"<builtin {b.name}>"
termination_by structural v => v

/-- Items with commas between them; a text among them is quoted. -/
def writeItems (before separator : String) : List Value → String
  | [] => before
  | v :: rest =>
    let here := match v with
      | string s => before ++ separator ++ Text.quote s
      | _ => write (before ++ separator) v
    writeItems here ", " rest
termination_by structural vs => vs

def writeEntries (before separator : String) : List (String × Value) → String
  | [] => before
  | (key, v) :: rest =>
    let before := before ++ separator ++ Text.quote key ++ ": "
    let here := match v with
      | string s => before ++ Text.quote s
      | _ => write before v
    writeEntries here ", " rest
termination_by structural es => es

end

/-- How a value is printed. -/
def text (v : Value) : String := write "" v

end Value

end Persona
