import Mathlib
import Persona.Proofs.Compilation.Pushed
import Persona.Proofs.Evaluation.Heredity
import Persona.Proofs.Machine.Compiled
import Persona.Proofs.Machine.Limited

/-! Sizes in both ways of running a program.

That all values are of permitted size is a hereditary property, so a walk of the tree keeps it if
the texts of the source have it, and so does a machine on the chart of a compiled program, where
no other texts are pushed. -/
namespace Persona

open Compilation (Parts PushesOnly)
open Machine (Steps)
open Value (Sized)

/-! ### Walks of the tree -/

/-- The value by itself is within the limits, or a text no longer than one of the source or of an answer. -/
def Value.Bounded (h : Host) (longest : Nat) : Value → Prop
  | array items => items.size ≤ h.limits.maxArrayLength
  | string s => s.utf8ByteSize ≤ max h.limits.maxStringBytes longest ∨
      ∃ answer, h.Answers answer ∧ s.utf8ByteSize ≤ answer.utf8ByteSize
  | _ => True

end Persona
