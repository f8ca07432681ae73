import Persona.Decimal.Text
import Persona.Instruction.Decode
import Persona.Text.Quoted

/-! Compiled programs: a pool of constants, a code and the offset where it begins. -/
namespace Persona

/-- A number is kept as its binary64 bits, so that equal constants are identical. -/
inductive Constant where
  | number (bits : UInt64)
  | string (s : String)
deriving DecidableEq

namespace Constant

def ofFloat (x : Float) : Constant := number x.toBits

/-- How a listing shows a constant. -/
def text : Constant → String
  | number bits => Decimal.number (Float.ofBits bits)
  | string s => Text.quote s

def string? : Constant → Option String
  | string s => some s
  | number _ => none

end Constant

/-- The only version of the format. -/
def formatVersion : Nat := 1

structure Bytecode where
  constants : List Constant
  code : List UInt8
  entry : Nat
deriving DecidableEq

namespace Bytecode

def constantText (p : Bytecode) (idx : Nat) : String :=
  (p.constants[idx]?.map Constant.text).getD "<invalid>"

/-- The name that an index stands for in a listing. -/
def nameText (p : Bytecode) (idx : Nat) : String :=
  (p.constants[idx]?.bind Constant.string?).getD "<invalid>"

/-- A natural in at least `width` characters, filled up on the left. -/
def padded (fill : Char) (width n : Nat) : String :=
  let ds := toString n
  String.ofList (List.replicate (width - ds.length) fill) ++ ds

def offsetText (n : Nat) : String := padded '0' 4 n

/-- One instruction of a listing, at its offset. -/
def instructionText (p : Bytecode) (offset : Nat) (i : Instruction) : String :=
  let name := i.opcode.name
  match i with
  | .pushConst idx => s!"{name} {idx} ({p.constantText idx})"
  | .loadVar idx | .storeVar idx | .defineVar idx => s!"{name} {idx} ({p.nameText idx})"
  | .loadBuiltin b => s!"{name} {b.name}"
  | .call argc discard => if discard then s!"{name} {argc} (discard)" else s!"{name} {argc}"
  | .jump d | .jumpIfFalse d | .forNext d =>
    let target := match Instruction.jumpTarget? (offset + 3) d with
      | some t => offsetText t
      | none => "????"
    s!"{name} {d} -> {target}"
  | .binOp op => s!"{name} {op.symbol}"
  | .unOp op => s!"{name} {op.symbol}"
  | .makeArray n | .makeMap n => s!"{name} {n}"
  | .makeFunction fn params entry =>
    let row := ", ".intercalate (params.map p.nameText)
    s!"{name} {p.nameText fn}({row}) -> {offsetText entry}"
  | .personality entries =>
    let row := " ".intercalate (entries.map fun (t, idx) => s!"{t.name}={p.constantText idx}")
    s!"{name} {row}"
  | _ => name

/-- The constants and the instructions, a line each. A code that does not decode is
listed up to its error. -/
def listing (p : Bytecode) : String :=
  let constants := p.constants.mapIdx fun i c =>
    let number := padded ' ' 3 i
    s!"  [{number}] {c.text}\n"
  let (is, e) := Instruction.decodeAll p.code
  let lines := is.map fun (offset, i) =>
    let mark := if offset = p.entry then "-- entry --\n" else ""
    s!"{mark}{offsetText offset} {p.instructionText offset i}\n"
  let failure := match e with
    | some e => s!"<error: {e.message}>\n"
    | none => ""
  s!"== constants ({p.constants.length}) ==\n" ++ String.join constants ++
    s!"== code ({p.code.length} bytes, entry {offsetText p.entry}) ==\n" ++ String.join lines ++ failure

end Bytecode

end Persona
