/-! Why a path is refused. -/
namespace Persona.Command

inductive Refusal where
  | missing
  | denied
  | notAFolder
  | isAFolder
  | nameTooLong
  /-- A zero character would end the path for the system, which is not asked. -/
  | zeroCharacter
deriving DecidableEq

namespace Refusal

/-- The system's number for a refusal of its own. -/
def code? : Refusal → Option Nat
  | missing => some 2
  | denied => some 13
  | notAFolder => some 20
  | isAFolder => some 21
  | nameTooLong => some 36
  | zeroCharacter => none

def all : List Refusal := [missing, denied, notAFolder, isAFolder, nameTooLong, zeroCharacter]

def ofCode? (n : Nat) : Option Refusal := all.find? (·.code? = some n)

def maxPathBytes : Nat := 4095

/-- A refusal for the path alone, whatever the files are. -/
def ofPath? (path : String) : Option Refusal :=
  if path.toList.contains '\x00' then some zeroCharacter
  else if path.isEmpty then some missing
  else if maxPathBytes < path.utf8ByteSize then some nameTooLong
  else none

def text : Refusal → String
  | missing => "No such file or directory"
  | denied => "Permission denied"
  | notAFolder => "Not a directory"
  | isAFolder => "Is a directory"
  | nameTooLong => "File name too long"
  | zeroCharacter => "file name contained an unexpected NUL byte"

def message (r : Refusal) : String := r.text ++ ((r.code?.map fun n => s!" (os error {n})").getD "")

end Refusal

end Persona.Command
