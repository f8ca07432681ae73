import Persona.Proofs.Machine.Growth
import Persona.Proofs.Simulation.Program

/-! Literals that are too long.

A program counts the items of an array literal before it evaluates them, a compiled program
behind them. So where a program is refused at a literal, the compiled one has not yet done
less, but it can still do more. -/
namespace Persona

open Machine (Steps)

/-- No array may have items. -/
def narrow : Host := { limits := { maxArrayLength := 0 } }

end Persona
