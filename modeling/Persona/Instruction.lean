import Persona.Builtin
import Persona.Encoding.Varint
import Persona.Syntax

/-! Instructions and their bytes.

An instruction is an opcode byte and its operands. Indices and counts are
varints, jumps two bytes with the low byte first. The commonest instructions
also have one-byte forms from `0x20` on, for small operands; writing takes the
short form where there is one. -/
namespace Persona

inductive Opcode where
  | halt | pushConst | pushNull | pushTrue | pushFalse | pop | loadVar | storeVar | defineVar | call
  | ret | jump | jumpIfFalse | binOp | unOp | makeArray | makeMap | index | makeFunction | iterInit
  | forNext | personality | loadBuiltin | extend
deriving DecidableEq

namespace Opcode

def all : List Opcode :=
  [halt, pushConst, pushNull, pushTrue, pushFalse, pop, loadVar, storeVar, defineVar, call, ret, jump,
   jumpIfFalse, binOp, unOp, makeArray, makeMap, index, makeFunction, iterInit, forNext, personality,
   loadBuiltin, extend]

def byte (op : Opcode) : UInt8 := UInt8.ofNat op.ctorIdx

def ofByte? (b : UInt8) : Option Opcode := all[b.toNat]?

def name : Opcode → String
  | halt => "HALT"
  | pushConst => "PUSH_CONST"
  | pushNull => "PUSH_NULL"
  | pushTrue => "PUSH_TRUE"
  | pushFalse => "PUSH_FALSE"
  | pop => "POP"
  | loadVar => "LOAD_VAR"
  | storeVar => "STORE_VAR"
  | defineVar => "DEFINE_VAR"
  | call => "CALL"
  | ret => "RETURN"
  | jump => "JUMP"
  | jumpIfFalse => "JUMP_IF_FALSE"
  | binOp => "BINOP"
  | unOp => "UNOP"
  | makeArray => "MAKE_ARRAY"
  | makeMap => "MAKE_MAP"
  | index => "INDEX"
  | makeFunction => "MAKE_FUNCTION"
  | iterInit => "ITER_INIT"
  | forNext => "FOR_NEXT"
  | personality => "PERSONALITY"
  | loadBuiltin => "LOAD_BUILTIN"
  | extend => "EXTEND"

@[simp] theorem ofByte?_byte (op : Opcode) : ofByte? op.byte = some op := by cases op <;> rfl

end Opcode

/-- Operators are numbered in the order of their type. -/
def BinaryOp.all : List BinaryOp :=
  [add, sub, mul, div, mod, pow, equal, notEqual, less, lessEqual, greater, greaterEqual, and, or]

def BinaryOp.code (op : BinaryOp) : Nat := op.ctorIdx

def BinaryOp.ofCode? (n : Nat) : Option BinaryOp := all[n]?

def UnaryOp.all : List UnaryOp := [negate, not]

def UnaryOp.code (op : UnaryOp) : Nat := op.ctorIdx

def UnaryOp.ofCode? (n : Nat) : Option UnaryOp := all[n]?

@[simp] theorem BinaryOp.ofCode?_code (op : BinaryOp) : ofCode? op.code = some op := by
  cases op <;> rfl

@[simp] theorem UnaryOp.ofCode?_code (op : UnaryOp) : ofCode? op.code = some op := by
  cases op <;> rfl

/-- Indices point into the constant pool, entries into the code; a jump counts from
behind its own instruction. -/
inductive Instruction where
  | halt
  | pushConst (idx : Nat)
  | pushNull
  | pushTrue
  | pushFalse
  | pop
  | loadVar (idx : Nat)
  | storeVar (idx : Nat)
  | defineVar (idx : Nat)
  | loadBuiltin (b : Builtin)
  | call (argc : Nat) (discard : Bool)
  | ret
  | jump (distance : Int)
  | jumpIfFalse (distance : Int)
  | binOp (op : BinaryOp)
  | unOp (op : UnaryOp)
  | makeArray (count : Nat)
  | makeMap (count : Nat)
  | index
  | makeFunction (name : Nat) (params : List Nat) (entry : Nat)
  | iterInit
  | forNext (distance : Int)
  | personality (entries : List (Trait × Nat))
  | extend
deriving DecidableEq

namespace Instruction

def opcode : Instruction → Opcode
  | halt => .halt
  | pushConst _ => .pushConst
  | pushNull => .pushNull
  | pushTrue => .pushTrue
  | pushFalse => .pushFalse
  | pop => .pop
  | loadVar _ => .loadVar
  | storeVar _ => .storeVar
  | defineVar _ => .defineVar
  | loadBuiltin _ => .loadBuiltin
  | call .. => .call
  | ret => .ret
  | jump _ => .jump
  | jumpIfFalse _ => .jumpIfFalse
  | binOp _ => .binOp
  | unOp _ => .unOp
  | makeArray _ => .makeArray
  | makeMap _ => .makeMap
  | index => .index
  | makeFunction .. => .makeFunction
  | iterInit => .iterInit
  | forNext _ => .forNext
  | personality _ => .personality
  | extend => .extend

/-- How far the instruction jumps, if it is a jump. -/
def jumpDistance? : Instruction → Option Int
  | jump d | jumpIfFalse d | forNext d => some d
  | _ => none

/-! ### One-byte forms -/

/-- `0x20 …`: built-ins, by index. -/
def shortBuiltin : Nat := 0x20
/-- `0x30 …`: calls with up to seven arguments; from `0x38` on the result is dropped. -/
def shortCall : Nat := 0x30
/-- `0x40 …`: constants with indices below 64. -/
def shortPushConst : Nat := 0x40
/-- `0x80 …`: loads with indices below 64. -/
def shortLoadVar : Nat := 0x80
/-- `0xC0 …`: definitions with indices below 64. -/
def shortDefineVar : Nat := 0xC0

/-- The greatest argument count that a one-byte call holds. -/
def shortArgcMax : Nat := 7
/-- The first index that a one-byte form does not hold. -/
def shortIndexLimit : Nat := 64

/-! ### Bytes -/

/-- A distance that a jump can hold. -/
def fitsJump (d : Int) : Bool := -32768 ≤ d && d < 32768

/-- Two bytes in two's complement, the low one first. -/
def jumpBytes (d : Int) : List UInt8 :=
  let n := (d % 65536).toNat
  [UInt8.ofNat (n % 256), UInt8.ofNat (n / 256)]

def withVarint (op : Opcode) (n : Nat) : List UInt8 := op.byte :: Varint.write n

def indexed (short : Nat) (op : Opcode) (idx : Nat) : List UInt8 :=
  if idx < shortIndexLimit then [UInt8.ofNat (short + idx)] else withVarint op idx

/-- A call of more than seven arguments has no form that drops the result: a `POP`
follows it. -/
def callBytes (argc : Nat) (discard : Bool) : List UInt8 :=
  if argc ≤ shortArgcMax then [UInt8.ofNat (shortCall + (if discard then 8 else 0) + argc)]
  else Opcode.call.byte :: UInt8.ofNat argc :: if discard then [Opcode.pop.byte] else []

def encode : Instruction → List UInt8
  | pushConst idx => indexed shortPushConst .pushConst idx
  | loadVar idx => indexed shortLoadVar .loadVar idx
  | storeVar idx => withVarint .storeVar idx
  | defineVar idx => indexed shortDefineVar .defineVar idx
  | loadBuiltin b => [UInt8.ofNat (shortBuiltin + b.index)]
  | call argc discard => callBytes argc discard
  | jump d => Opcode.jump.byte :: jumpBytes d
  | jumpIfFalse d => Opcode.jumpIfFalse.byte :: jumpBytes d
  | forNext d => Opcode.forNext.byte :: jumpBytes d
  | binOp op => [Opcode.binOp.byte, UInt8.ofNat op.code]
  | unOp op => [Opcode.unOp.byte, UInt8.ofNat op.code]
  | makeArray n => withVarint .makeArray n
  | makeMap n => withVarint .makeMap n
  | makeFunction name params entry =>
    withVarint .makeFunction name ++ UInt8.ofNat params.length :: params.flatMap Varint.write ++
      Varint.write entry
  | personality entries =>
    Opcode.personality.byte :: UInt8.ofNat entries.length ::
      entries.flatMap fun (t, idx) => UInt8.ofNat t.index :: Varint.write idx
  | i => [i.opcode.byte]

/-- The number of bytes. -/
def size (i : Instruction) : Nat := i.encode.length

end Instruction

end Persona
