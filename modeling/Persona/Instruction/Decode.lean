import Persona.Instruction

/-! Reading instructions back from bytes.

`decode` looks at the bytes from an offset on and at nothing before them; the
offset itself only goes into messages. -/
namespace Persona

/-- Why the bytes at an offset are not an instruction. -/
inductive DecodeError where
  | unknownOpcode (offset : Nat) (byte : UInt8)
  | truncated (offset : Nat) (opcode : Opcode)
  | unknownBinaryOp (offset code : Nat)
  | unknownUnaryOp (offset code : Nat)
  | unknownTrait (offset id : Nat)
  | unknownBuiltin (offset id : Nat)
deriving DecidableEq

def hexDigit (n : Nat) : Char := Nat.digitChar (n % 16)

/-- Two capital hexadecimal digits. -/
def byteHex (b : UInt8) : String :=
  String.ofList [(hexDigit (b.toNat / 16)).toUpper, (hexDigit b.toNat).toUpper]

def DecodeError.message : DecodeError → String
  | unknownOpcode offset byte => s!"unknown opcode 0x{byteHex byte} at offset {offset}"
  | truncated offset opcode => s!"truncated operand of {opcode.name} at offset {offset}"
  | unknownBinaryOp offset code =>
    s!"invalid operand of {Opcode.binOp.name} at offset {offset}: unknown binary operator {code}"
  | unknownUnaryOp offset code =>
    s!"invalid operand of {Opcode.unOp.name} at offset {offset}: unknown unary operator {code}"
  | unknownTrait offset id => s!"unknown trait id {id} at offset {offset}"
  | unknownBuiltin offset id => s!"unknown builtin id {id} at offset {offset}"

namespace Instruction

/-- The bytes behind an opcode and the number of bytes already taken. -/
structure Unread where
  bytes : List UInt8
  taken : Nat

abbrev Operands (α : Type) := StateT Unread (Except DecodeError) α

namespace Operands

def byte (short : DecodeError) : Operands Nat := do
  let u ← get
  match u.bytes with
  | [] => throw short
  | b :: bs =>
    set (Unread.mk bs (u.taken + 1))
    return b.toNat

def varint (short : DecodeError) : Operands Nat := do
  let u ← get
  match Varint.read u.bytes with
  | (some n, k) =>
    set (Unread.mk (u.bytes.drop k) (u.taken + k))
    return n
  | (none, _) => throw short

/-- Two bytes in two's complement. -/
def distance (short : DecodeError) : Operands Int := do
  let low ← byte short
  let high ← byte short
  let n := low + 256 * high
  return if n < 32768 then n else (n : Int) - 65536

/-- The same operand a number of times. -/
def times (operand : Operands α) : Nat → Operands (List α)
  | 0 => return []
  | n + 1 => do
    let x ← operand
    return x :: (← times operand n)

def orThrow (e : DecodeError) : Option α → Operands α
  | some x => return x
  | none => throw e

end Operands
open Operands

/-- The instruction of an opcode, from the bytes behind it. -/
def operands (offset : Nat) (op : Opcode) : Operands Instruction :=
  let short := DecodeError.truncated offset op
  match op with
  | .halt => return halt
  | .pushConst => return pushConst (← varint short)
  | .pushNull => return pushNull
  | .pushTrue => return pushTrue
  | .pushFalse => return pushFalse
  | .pop => return pop
  | .loadVar => return loadVar (← varint short)
  | .storeVar => return storeVar (← varint short)
  | .defineVar => return defineVar (← varint short)
  | .loadBuiltin => do
    let id ← byte short
    return loadBuiltin (← orThrow (.unknownBuiltin offset id) (Builtin.ofIndex? id))
  | .call => return call (← byte short) false
  | .ret => return ret
  | .jump => return jump (← distance short)
  | .jumpIfFalse => return jumpIfFalse (← distance short)
  | .binOp => do
    let code ← byte short
    return binOp (← orThrow (.unknownBinaryOp offset code) (BinaryOp.ofCode? code))
  | .unOp => do
    let code ← byte short
    return unOp (← orThrow (.unknownUnaryOp offset code) (UnaryOp.ofCode? code))
  | .makeArray => return makeArray (← varint short)
  | .makeMap => return makeMap (← varint short)
  | .index => return index
  | .makeFunction => do
    let name ← varint short
    let argc ← byte short
    let params ← times (varint short) argc
    return makeFunction name params (← varint short)
  | .iterInit => return iterInit
  | .forNext => return forNext (← distance short)
  | .personality => do
    let count ← byte short
    let entry : Operands (Trait × Nat) := do
      let id ← byte short
      let t ← orThrow (.unknownTrait offset id) (Trait.ofIndex? id)
      return (t, ← varint short)
    return personality (← times entry count)
  | .extend => return extend

/-- The instruction of a one-byte form. -/
def ofShort (offset b : Nat) : Except DecodeError Instruction :=
  if shortDefineVar ≤ b then .ok (defineVar (b - shortDefineVar))
  else if shortLoadVar ≤ b then .ok (loadVar (b - shortLoadVar))
  else if shortPushConst ≤ b then .ok (pushConst (b - shortPushConst))
  else if shortCall ≤ b then .ok (call (b % 8) (8 ≤ b - shortCall))
  else
    let id := b - shortBuiltin
    match Builtin.ofIndex? id with
    | some builtin => .ok (loadBuiltin builtin)
    | none => .error (.unknownBuiltin offset id)

/-- The instruction at the front of the bytes and the number of bytes it takes. -/
def decode (offset : Nat) : List UInt8 → Except DecodeError (Instruction × Nat)
  | [] => .error (.truncated offset .halt)
  | b :: bs =>
    if shortBuiltin ≤ b.toNat then (ofShort offset b.toNat).map fun i => (i, 1)
    else match Opcode.ofByte? b with
      | some op => ((operands offset op).run ⟨bs, 1⟩).map fun (i, u) => (i, u.taken)
      | none => .error (.unknownOpcode offset b)

/-- The instruction at an offset of a code, and the offset behind it. -/
def decodeAt (code : List UInt8) (offset : Nat) : Except DecodeError (Instruction × Nat) :=
  (decode offset (code.drop offset)).map fun (i, n) => (i, offset + n)

/-- What stands at every offset of a code: `decodeAt`, offset by offset. -/
def table (code : List UInt8) : Array (Except DecodeError (Instruction × Nat)) :=
  go 0 code #[]
where
  go (offset : Nat) : List UInt8 → Array (Except DecodeError (Instruction × Nat)) →
      Array (Except DecodeError (Instruction × Nat))
    | [], before => before
    | b :: bs, before =>
      go (offset + 1) bs (before.push ((decode offset (b :: bs)).map fun (i, n) => (i, offset + n)))

/-- The offset that a jump from behind its instruction leads to, unless it is negative. -/
def jumpTarget? (next : Nat) (distance : Int) : Option Nat :=
  match (next : Int) + distance with
  | .ofNat t => some t
  | .negSucc _ => none

/-- The instructions of a stream with their offsets, and the error that ends it if one
does. An instruction takes at least one byte, so that the bytes left bound the rounds. -/
def stream : (fuel offset : Nat) → List UInt8 → Array (Nat × Instruction) →
    Array (Nat × Instruction) × Option DecodeError
  | 0, _, _, before => (before, none)
  | _ + 1, _, [], before => (before, none)
  | fuel + 1, offset, b :: bs, before =>
    match decode offset (b :: bs) with
    | .error e => (before, some e)
    | .ok (i, n) => stream fuel (offset + n) ((b :: bs).drop n) (before.push (offset, i))

def decodeAll (code : List UInt8) : List (Nat × Instruction) × Option DecodeError :=
  let (is, e) := stream code.length 0 code #[]
  (is.toList, e)

end Instruction

end Persona
