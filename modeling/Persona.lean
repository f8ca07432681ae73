import Persona.Command.Folder
import Persona.Main
import Persona.Proofs.Compilation.Validity
import Persona.Proofs.Machine.Safety
import Persona.Syntax.Printer
import Persona.Proofs.Evaluation.Growth
import Persona.Proofs.Machine.Steps
import Persona.Proofs.Simulation.Expression
import Persona.Proofs.Simulation.Loop
import Persona.Proofs.Evaluation.Budget
import Persona.Proofs.Machine.Calm
import Persona.Proofs.Simulation.Call
import Persona.Proofs.Simulation.Program
import Persona.Proofs.Compilation.Balance
import Persona.Proofs.Machine.Budget
import Persona.Proofs.Machine.Compiled
import Persona.Proofs.Machine.Growth
import Persona.Proofs.Simulation.Refusal
import Persona.Proofs.Simulation.Spent
import Persona.Proofs.Syntax.Precedence
import Persona.Proofs.Syntax.Nesting
import Persona.Proofs.Syntax.Block
import Persona.Proofs.Syntax.Statement
import Persona.Proofs.Syntax.Printing
import Persona.Proofs.Syntax.Faithful
import Persona.Proofs.Bytecode.Delimited
import Persona.Proofs.Machine.Bounds
import Persona.Proofs.Analysis.Scopes
import Persona.Proofs.Analysis.Unreachable
import Persona.Proofs.Token.LineBreak
import Persona.Proofs.Analysis.Personality
import Persona.Proofs.Syntax.Context
import Persona.Proofs.Evaluation.Flow
import Persona.Proofs.Compilation.Excess
import Persona.Proofs.Session.Every
import Persona.Proofs.Value.Hereditary
import Persona.Proofs.Value.Size
import Persona.Proofs.Evaluation.Heredity
import Persona.Proofs.Compilation.Pushed
import Persona.Proofs.Machine.Size
import Persona.Proofs.Evaluation.Answers
import Persona.Proofs.Machine.Answers
import Persona.Proofs.Analysis.Unused
import Persona.Proofs.Analysis.ControlFlow
import Persona.Proofs.Evaluation.Isolation
import Persona.Proofs.Machine.Isolation
import Persona.Proofs.Syntax.Layout
import Persona.Proofs.Compilation.References
import Persona.Proofs.Machine.Literal
import Persona.Proofs.Session.Output
import Persona.Proofs.Syntax.Number
import Persona.Proofs.Command.Context
import Persona.Proofs.Instruction.Emission
import Persona.Proofs.Value.Equality
import Persona.Proofs.Profile.Range
import Persona.Proofs.Machine.Names
import Persona.Proofs.Encoding.Word
import Persona.Proofs.Instruction.Locality
