import Persona.Command
import Persona.Command.Refusal

/-! The command line over real files and streams. -/
namespace Persona

/-- How the system words a refusal. -/
def refusalText (e : IO.Error) : String :=
  let known? := match e with
    | .noFileOrDirectory _ code _ | .permissionDenied _ code _ | .inappropriateType _ code _
    | .invalidArgument _ code _ => Command.Refusal.ofCode? code.toNat
    | _ => none
  (known?.map Command.Refusal.message).getD (toString e)

def attempt (path : String) (act : IO α) : IO (Except String α) := do
  match Command.Refusal.ofPath? path with
  | some r => return .error r.message
  | none => return (← act.toBaseIO).mapError refusalText

def realSurroundings : Command.Surroundings IO where
  exists? path := do return (← attempt path (IO.FS.Handle.mk path .read)).isOk
  read path := attempt path do return (← IO.FS.readBinFile path).toList
  write path bytes := attempt path (IO.FS.writeBinFile path ⟨bytes.toArray⟩)
  openLog path := attempt path do
    let _ ← IO.FS.Handle.mk path .append
  print := IO.print
  warn := IO.eprint
  input := do (← IO.getStdin).readToEnd

end Persona

def main (words : List String) : IO UInt32 :=
  Persona.Command.carryOut Persona.realSurroundings words
