import Persona.Instruction

/-! Code under construction.

Bytes are only added at the end, except that a jump written before its target is
known holds a placeholder which `patch` replaces. -/
namespace Persona

/-- A jump of this distance does not fit into two bytes. -/
structure JumpTooFar where
  distance : Int
deriving DecidableEq

structure Chunk where
  code : Array UInt8 := #[]

namespace Chunk

def size (c : Chunk) : Nat := c.code.size

def append (c : Chunk) (bytes : List UInt8) : Chunk := ⟨c.code ++ bytes.toArray⟩

def write (c : Chunk) (i : Instruction) : Chunk := c.append i.encode

def writeAll (c : Chunk) (is : List Instruction) : Chunk := is.foldl write c

def writeVarint (c : Chunk) (n : Nat) : Chunk := c.append (Varint.write n)

/-- Writes the opcode of a jump and a placeholder; the number is where the placeholder is. -/
def writeJump (c : Chunk) (op : Opcode) : Nat × Chunk :=
  (c.size + 1, c.append (op.byte :: Instruction.jumpBytes (-1)))

/-- Makes the jump with this placeholder lead to the end of the code. -/
def patch (c : Chunk) (placeholder : Nat) : Except JumpTooFar Chunk :=
  let distance : Int := (c.size : Int) - (placeholder + 2 : Nat)
  if Instruction.fitsJump distance then
    .ok ⟨(Instruction.jumpBytes distance).zipIdx.foldl
      (fun code (b, i) => code.setIfInBounds (placeholder + i) b) c.code⟩
  else .error ⟨distance⟩

/-- Writes a jump to a known target. Where it does not fit, the opcode stays behind. -/
def writeJumpTo (c : Chunk) (op : Opcode) (target : Nat) : Except JumpTooFar Unit × Chunk :=
  let c := c.append [op.byte]
  let distance : Int := (target : Int) - (c.size + 2 : Nat)
  if Instruction.fitsJump distance then (.ok (), c.append (Instruction.jumpBytes distance))
  else (.error ⟨distance⟩, c)

end Chunk

end Persona
