import Persona.Fault
import Persona.Limits

/-! What operators do to values. -/
namespace Persona.Value

/-! ### Bounds on results -/

def checkStringBytes (size : Nat) (limits : Limits) : Except Fault Unit :=
  if limits.maxStringBytes < size then .error (.limit (.stringBytes size limits.maxStringBytes))
  else .ok ()

def checkArrayLength (size : Nat) (limits : Limits) : Except Fault Unit :=
  if limits.maxArrayLength < size then .error (.limit (.arrayLength size limits.maxArrayLength))
  else .ok ()

/-! ### Binary operators -/

def operandFault (op : BinaryOp) (a b : Value) : Fault := .type (.operands op a.kind b.kind)

/-- A text on either side makes the sum a text. -/
def add (limits : Limits) : Value → Value → Except Fault Value
  | number x, number y => .ok (number (x + y))
  | array xs, array ys => do
    checkArrayLength (xs.size + ys.size) limits
    return array (xs ++ ys)
  | string s, b => concat (b.write s)
  | a, string t => concat (a.text ++ t)
  | a, b => .error (operandFault .add a b)
where
  concat (s : String) : Except Fault Value := do
    checkStringBytes s.utf8ByteSize limits
    return string s

/-- A text a number of times. A size that a machine word does not hold counts as the
greatest that it holds. -/
def replicate (limits : Limits) (s : String) (count : Value) : Except Fault Value :=
  match count.integer? with
  | some (.ofNat n) => do
    checkStringBytes (min (s.utf8ByteSize * n) Decimal.wordMax) limits
    return string (if s.isEmpty then "" else n.repeat (· ++ s) "")
  | _ => .error (.type .repetition)

def multiply (limits : Limits) : Value → Value → Except Fault Value
  | number x, number y => .ok (number (x * y))
  | string s, number n => replicate limits s (number n)
  | number n, string s => replicate limits s (number n)
  | a, b => .error (operandFault .mul a b)

def divide : Value → Value → Except Fault Value
  | number x, number y => if y == 0.0 then .error .divisionByZero else .ok (number (x / y))
  | a, b => .error (operandFault .div a b)

def modulo : Value → Value → Except Fault Value
  | number x, number y =>
    if y == 0.0 then .error .divisionByZero else .ok (number (Decimal.remainder x y))
  | a, b => .error (operandFault .mod a b)

/-- Numbers and texts are ordered, each among themselves. -/
def compare (op : BinaryOp) : Value → Value → Except Fault Ordering
  | number x, number y =>
    if x < y then .ok .lt
    else if x == y then .ok .eq
    else if y < x then .ok .gt
    else .error (.type .unordered)
  | string s, string t => .ok (if s < t then .lt else if s = t then .eq else .gt)
  | a, b => .error (operandFault op a b)

/-- `&&` and `||` decide whether their right operand is evaluated at all; on two values
they are not defined. -/
def binary (limits : Limits) (op : BinaryOp) (a b : Value) : Except Fault Value :=
  match op with
  | .add => add limits a b
  | .sub =>
    match a, b with
    | number x, number y => .ok (number (x - y))
    | _, _ => .error (operandFault .sub a b)
  | .mul => multiply limits a b
  | .div => divide a b
  | .mod => modulo a b
  | .pow =>
    match a, b with
    | number x, number y => .ok (number (x.pow y))
    | _, _ => .error (operandFault .pow a b)
  | .equal => .ok (bool (a == b))
  | .notEqual => .ok (bool (a != b))
  | .less => (compare op a b).map fun o => bool o.isLT
  | .lessEqual => (compare op a b).map fun o => bool o.isLE
  | .greater => (compare op a b).map fun o => bool o.isGT
  | .greaterEqual => (compare op a b).map fun o => bool o.isGE
  | .and | .or => .error (.code (.logicalOperator op))

/-! ### Unary operators -/

def unary : UnaryOp → Value → Except Fault Value
  | .not, v => .ok (bool (!v.isTruthy))
  | .negate, number x => .ok (number (-x))
  | .negate, v => .error (.type (.negation v.kind))

/-! ### Parts -/

/-- The place among `length` that a key denotes. -/
def place (key : Value) (length : Nat) : Except Fault Nat :=
  match key.integer? with
  | none => .error (.type (.indexKey key.kind))
  | some i => if 0 ≤ i ∧ i < length then .ok i.toNat else .error (.indexOutOfBounds i length)

/-- A map has a null wherever nothing was put. -/
def index : Value → Value → Except Fault Value
  | array items, key => do
    return items.getD (← place key items.size) null
  | string s, key => do
    let cs := s.toList
    return string (((cs[← place key cs.length]?).map String.singleton).getD "")
  | map entries, string key => .ok ((Keyed.get? key entries).getD null)
  | map _, key => .error (.type (.mapKey key.kind))
  | object, _ => .error (.type (.indexed object.kind))

/-- What a loop runs over: items, characters or keys. -/
def items : Value → Except Fault (Array Value)
  | array items => .ok items
  | string s => .ok (s.toList.toArray.map fun c => string (String.singleton c))
  | map entries => .ok (entries.toArray.map fun (key, _) => string key)
  | v => .error (.type (.iterated v.kind))

/-- Two segments of one literal. -/
def extend (limits : Limits) : Value → Value → Except Fault Value
  | array xs, array ys => do
    checkArrayLength (xs.size + ys.size) limits
    return array (xs ++ ys)
  | map m, map n => .ok (map (Keyed.insertAll n m))
  | a, b => .error (.code (.extension a.kind b.kind))

end Persona.Value
