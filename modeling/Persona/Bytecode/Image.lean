import Persona.Bytecode.Validation
import Persona.Encoding.Digest

/-! Compiled programs as files.

An image is the letters `NX`, the version, the number of constants and the
constants, the length of the code and the code, the entry, and a checksum of all
bytes before it. A constant is a header whose two low bits say what it is, and
its payload: integers within the header, other numbers as eight bytes, texts as
UTF-8 of the length in the header.

`load` reads what `image` writes and accepts only valid programs. -/
namespace Persona

/-- Why bytes are not an image. -/
inductive FormatError where
  | badMagic
  | unsupportedVersion (version : Nat)
  | truncated (part : String)
  | trailingBytes (count : Nat)
  | invalidUtf8 (index : Nat)
  | unknownTag (index tag : Nat)
deriving DecidableEq

def FormatError.message : FormatError → String
  | badMagic => "bad magic: not a Nexus binary"
  | unsupportedVersion version => s!"unsupported format version {version}"
  | truncated part => s!"truncated {part} section"
  | trailingBytes count => s!"{count} trailing byte(s) after the checksum"
  | invalidUtf8 index => s!"constant {index} is not valid UTF-8"
  | unknownTag index tag => s!"constant {index} has unknown tag 0x{byteHex (UInt8.ofNat tag)}"

inductive LoadError where
  | format (e : FormatError)
  | corruption (e : Corruption)
deriving DecidableEq

def LoadError.message : LoadError → String
  | format e => s!"Format error: {e.message}"
  | corruption e => s!"Corruption error: {e.message}"

namespace Image

/-- `NX`. -/
def magic : List UInt8 := [0x4E, 0x58]

def tagInteger : Nat := 0
def tagFloat : Nat := 1
def tagString : Nat := 2

/-! ### Writing -/

/-- Little-endian bytes. -/
def leBytes (count n : Nat) : List UInt8 :=
  (List.range count).map fun i => UInt8.ofNat (n >>> (8 * i))

/-- The integer that is written in place of a number: exact, and not for a negative
zero. -/
def exactInteger? (bits : UInt64) : Option Int :=
  let x := Float.ofBits bits
  if bits = Float.toBits (-0.0) then none else Decimal.integerBelow? (1 <<< 53) x

def writeHeader (tag payload : Nat) : List UInt8 := Varint.write (payload * 4 + tag)

def utf8 (s : String) : List UInt8 := s.toByteArray.toList

def writeConstant : Constant → List UInt8
  | .number bits =>
    match exactInteger? bits with
    | some i => writeHeader tagInteger (Varint.zigzag i)
    | none => writeHeader tagFloat 0 ++ leBytes 8 bits.toNat
  | .string s => writeHeader tagString s.utf8ByteSize ++ utf8 s

/-- Everything before the checksum. -/
def content (p : Bytecode) : List UInt8 :=
  magic ++ UInt8.ofNat formatVersion :: Varint.write p.constants.length ++
    p.constants.flatMap writeConstant ++ Varint.write p.code.length ++ p.code ++ Varint.write p.entry

/-- The bytes with their checksum behind them. -/
def sealed (bytes : List UInt8) : List UInt8 := bytes ++ leBytes 4 (Digest.checksum bytes)

/-! ### Reading -/

/-- Takes bytes off the front. What is left is kept also where reading fails. -/
abbrev Reader (α : Type) := ExceptT FormatError (StateM (List UInt8)) α

namespace Reader

def byte (part : String) : Reader Nat := do
  match ← get with
  | [] => throw (.truncated part)
  | b :: bs =>
    set bs
    return b.toNat

def bytes (part : String) (count : Nat) : Reader (List UInt8) := do
  let bs ← get
  let taken := bs.take count
  if taken.length < count then throw (.truncated part)
  set (bs.drop count)
  return taken

def varint (part : String) : Reader Nat := do
  let bs ← get
  let (n, taken) := Varint.read bs
  set (bs.drop taken)
  match n with
  | some n => return n
  | none => throw (.truncated part)

/-- A length that the bytes left can meet. -/
def length (part : String) : Reader Nat := do
  let n ← varint part
  if (← get).length < n then throw (.truncated part)
  return n

def leNat (bs : List UInt8) : Nat := bs.foldr (fun b n => b.toNat + 256 * n) 0

/-- A number of bytes, the low one first. -/
def word (part : String) (count : Nat) : Reader Nat := leNat <$> bytes part count

end Reader
open Reader

def text (index : Nat) (bs : List UInt8) : Reader String :=
  match String.fromUTF8? ⟨bs.toArray⟩ with
  | some s => return s
  | none => throw (.invalidUtf8 index)

def constant (index : Nat) : Reader Constant := do
  let header ← varint "pool"
  let payload := header / 4
  let tag := header % 4
  if tag = tagInteger then return .ofFloat (Float.ofInt (Varint.unzigzag payload))
  else if tag = tagFloat ∧ payload = 0 then return .number (UInt64.ofNat (← word "pool" 8))
  else if tag = tagString then
    if (← get).length < payload then throw (.truncated "pool")
    return .string (← text index (← bytes "pool" payload))
  else throw (.unknownTag index tag)

/-- The constants from an index on. A constant takes at least one byte, so that the bytes
left bound the rounds. -/
def constants : (fuel index : Nat) → (count : Nat) → (before : List Constant) → Reader (List Constant)
  | 0, _, count, before => if count = 0 then return before.reverse else throw (.truncated "pool")
  | fuel + 1, index, count, before => do
    if index = count then return before.reverse
    let c ← constant index
    constants fuel (index + 1) count (c :: before)

/-- Everything up to the entry. -/
def program : Reader Bytecode := do
  if (← bytes "header" 2) ≠ magic then throw .badMagic
  let version ← byte "header"
  if version ≠ formatVersion then throw (.unsupportedVersion version)
  let count ← varint "pool"
  let constants ← constants ((← get).length + 1) 0 count []
  let code ← bytes "code" (← length "code")
  return ⟨constants, code, ← varint "entry"⟩

end Image

/-- The bytes of a program's file. -/
def Bytecode.image (p : Bytecode) : List UInt8 := Image.sealed (Image.content p)

/-- The valid program that the bytes are the image of. -/
def Bytecode.load (bytes : List UInt8) : Except LoadError Bytecode :=
  match Image.program.run bytes with
  | (.error e, _) => .error (.format e)
  | (.ok p, rest) =>
    match (Image.Reader.word "checksum" 4).run rest with
    | (.error e, _) => .error (.format e)
    | (.ok stored, []) =>
      let computed := Digest.checksum (bytes.take (bytes.length - rest.length))
      if stored ≠ computed then .error (.corruption (.checksum stored computed))
      else match p.validate with
        | .error e => .error (.corruption e)
        | .ok () => .ok p
    | (.ok _, trailing) => .error (.format (.trailingBytes trailing.length))

end Persona
