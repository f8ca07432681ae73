import Persona.Bytecode
import Std.Data.HashSet

/-! Structural checks on a compiled program.

A valid program decodes from end to end; its entry, the entries of its functions
and the targets of its jumps are starts of instructions; the indices in its
instructions lead to constants of the right kind. -/
namespace Persona

/-- The first structural fault of a program. -/
inductive Corruption where
  | checksum (stored computed : Nat)
  | decoding (e : DecodeError)
  | poolIndex (offset index : Nat)
  | constantType (offset index : Nat) (expected : String)
  | jumpTarget (offset : Nat) (target : Int)
  | entry (offset : Nat)
  | functionEntry (offset entry : Nat)
deriving DecidableEq

/-- Eight hexadecimal digits. -/
def wordHex (n : Nat) : String :=
  String.ofList ((List.range 8).map fun i => hexDigit (n >>> (4 * (7 - i))))

def Corruption.message : Corruption → String
  | checksum stored computed =>
    s!"checksum mismatch: stored {wordHex stored}, computed {wordHex computed}"
  | decoding e => e.message
  | poolIndex offset index => s!"constant index {index} out of range at offset {offset}"
  | constantType offset index expected =>
    s!"constant {index} at offset {offset} must be a {expected}"
  | jumpTarget offset target =>
    s!"jump at offset {offset} targets {target}, which is not an instruction"
  | entry offset => s!"entry {offset} is not an instruction"
  | functionEntry offset target =>
    s!"function at offset {offset} enters at {target}, which is not an instruction"

namespace Bytecode

def checkConstant (p : Bytecode) (offset idx : Nat) : Except Corruption Constant :=
  match p.constants[idx]? with
  | some c => .ok c
  | none => .error (.poolIndex offset idx)

def checkName (p : Bytecode) (offset idx : Nat) : Except Corruption Unit := do
  match ← p.checkConstant offset idx with
  | .string _ => return
  | .number _ => throw (.constantType offset idx "string")

def checkNumber (p : Bytecode) (offset idx : Nat) : Except Corruption Unit := do
  match ← p.checkConstant offset idx with
  | .number _ => return
  | .string _ => throw (.constantType offset idx "number")

/-- The operands of an instruction, given the starts of all instructions. -/
def checkOperands (p : Bytecode) (starts : Std.HashSet Nat) (offset : Nat) :
    Instruction → Except Corruption Unit
  | .pushConst idx => discard (p.checkConstant offset idx)
  | .loadVar idx | .storeVar idx | .defineVar idx => p.checkName offset idx
  | .makeFunction name params entry => do
    p.checkName offset name
    params.forM (p.checkName offset)
    unless starts.contains entry do throw (.functionEntry offset entry)
  | .personality entries => entries.forM fun (_, idx) => p.checkNumber offset idx
  | _ => return

/-- Where the instruction jumps to, if it jumps. A jump takes three bytes. -/
def checkJump (starts : Std.HashSet Nat) (offset : Nat) (i : Instruction) : Except Corruption Unit :=
  match i.jumpDistance? with
  | none => .ok ()
  | some d =>
    match Instruction.jumpTarget? (offset + 3) d with
    | some t => if starts.contains t then .ok () else .error (.jumpTarget offset t)
    | none => .error (.jumpTarget offset ((offset + 3 : Nat) + d))

def validate (p : Bytecode) : Except Corruption Unit := do
  match Instruction.decodeAll p.code with
  | (_, some e) => throw (.decoding e)
  | (is, none) =>
    let starts := Std.HashSet.ofList (is.map (·.1))
    unless starts.contains p.entry do throw (.entry p.entry)
    is.forM fun (offset, i) => do
      p.checkOperands starts offset i
      checkJump starts offset i

end Bytecode

end Persona
