import Persona.Analysis.Diagnostic
import Persona.Builtin
import Persona.Profile
import Persona.Syntax.Walk

/-! What can be said about a program without running it.

Each check is a function from a part of the program to its diagnostics;
`analyze` runs them in a fixed order. -/
namespace Persona.Analysis

/-! ### Personality blocks -/

/-- Diagnostics of one block, entry by entry. `seen` holds the traits before. -/
def entryDiagnostics (seen : List Trait) : List TraitEntry → List Diagnostic
  | [] => []
  | e :: rest =>
    (if Profile.inUnit e.value then [] else [⟨.traitOutOfRange e.key e.value, e.place⟩]) ++
      (if e.key ∈ seen then [⟨.duplicateTrait e.key, e.place⟩] else []) ++
      entryDiagnostics (e.key :: seen) rest

/-- The line of the entry that sets a trait last. -/
def lineOf? (t : Trait) (entries : List TraitEntry) : Option Nat :=
  (entries.reverse.find? (·.key = t)).map (·.place.line)

/-- First entries of traits that an earlier block has set. `earlier` holds the entries of
those blocks, `seen` the traits before. -/
def overriddenDiagnostics (earlier : List TraitEntry) (seen : List Trait) :
    List TraitEntry → List Diagnostic
  | [] => []
  | e :: rest =>
    let here := match lineOf? e.key earlier with
      | some line => if e.key ∈ seen then [] else [⟨.traitOverridden e.key line, e.place⟩]
      | none => []
    here ++ overriddenDiagnostics earlier (e.key :: seen) rest

def personalityDiagnostics (earlier : List TraitEntry) : List (List TraitEntry) → List Diagnostic
  | [] => []
  | entries :: rest =>
    entryDiagnostics [] entries ++ overriddenDiagnostics earlier [] entries ++
      personalityDiagnostics (earlier ++ entries) rest

/-! ### Control flow -/

/-- The keyword of a statement that nothing after it in its list survives. -/
def terminator? : Stmt → Option String
  | .giveBack .. => some "return"
  | .leave _ => some "break"
  | .again _ => some "continue"
  | _ => none

/-- The statement after the first terminator of a list, with the terminator's keyword. -/
def unreachable? : List Stmt → Option (String × Stmt)
  | [] => none
  | s :: rest =>
    match terminator? s with
    | some keyword => rest.head?.map fun next => (keyword, next)
    | none => unreachable? rest

def unreachableDiagnostics (ss : List Stmt) : List Diagnostic :=
  (ss :: Stmt.listsIn ss).filterMap fun list =>
    (unreachable? list).map fun (keyword, next) => ⟨.unreachableCode keyword, next.place⟩

mutual

/-- Whether a statement can end the loop around it by `break`. -/
def breaks : Stmt → Bool
  | .leave _ => true
  | .cond _ _ yes no => breaksList yes || breaksElse no
  | .block _ body => breaksList body
  | _ => false
termination_by structural s => s

def breaksList : List Stmt → Bool
  | [] => false
  | s :: rest => breaks s || breaksList rest
termination_by structural ss => ss

def breaksElse : Option Stmt → Bool
  | none => false
  | some s => breaks s
termination_by structural no => no

end

/-- A loop on the literal `true` that no `break` ends. -/
def isInfiniteLoop : Stmt → Bool
  | .whileLoop _ (.literal (.bool true)) body => !breaksList body
  | _ => false

def infiniteLoopDiagnostics (ss : List Stmt) : List Diagnostic :=
  ((Stmt.deepList ss).filter isInfiniteLoop).map fun s => ⟨.infiniteLoop, s.place⟩

/-- Whether some `return` of a body has a value. -/
def returnsValue (body : List Stmt) : Bool :=
  (Stmt.ownList body).any fun
    | .giveBack _ (some _) => true
    | _ => false

/-! ### Functions -/

/-- The types that a return type may name. -/
def knownTypes : List String := ["number", "string", "bool", "array", "map", "null", "any", "fn"]

def returnTypeDiagnostics (d : FunctionDecl) : List Diagnostic :=
  match d.returnType with
  | none => []
  | some type =>
    (if type ∈ knownTypes then [] else [⟨.unknownReturnType type d.name, d.place⟩]) ++
      (if type ≠ "null" ∧ !returnsValue d.body then [⟨.missingReturnValue d.name type, d.place⟩] else [])

/-- The names that can be bound in a function's scope. -/
def locals (d : FunctionDecl) : List String := d.params.map (·.name) ++ Stmt.bindings d.body

/-- The names in a function's body that nothing can have bound. -/
def unresolved (globals : List String) (d : FunctionDecl) : List Identifier :=
  let known := locals d ++ globals
  (Stmt.uses d.body).filter fun i => !(known.contains i.name || (Builtin.ofName? i.name).isSome)

/-- The parameters that a body never reads. A name that starts with an underscore is
meant to be so. -/
def unusedParams (d : FunctionDecl) : List Param :=
  let used := (Stmt.uses d.body).map (·.name)
  d.params.filter fun p => p.name.toList.head? != some '_' && !used.contains p.name

def functionDiagnostics (globals : List String) (d : FunctionDecl) : List Diagnostic :=
  (if d.body.isEmpty then [⟨.emptyFunctionBody d.name, d.place⟩] else []) ++
    returnTypeDiagnostics d ++
    ((unresolved globals d).map fun i => ⟨.unresolvedIdentifier i.name d.name, i.place⟩) ++
    ((unusedParams d).map fun p => ⟨.unusedParameter p.name d.name, d.place⟩)

/-! ### The main function -/

def isMainCall : Expr → Bool
  | .call _ (.identifier i) _ => i.name == "main"
  | _ => false

/-- Whether the program, outside or inside its functions, calls something named `main`. -/
def callsMain (p : Program) : Bool :=
  (Stmt.deepList p.statements).any fun s => s.exprs.any fun e => e.parts.any isMainCall

def mainDiagnostics (p : Program) : List Diagnostic :=
  let main? := p.statements.findSome? fun
    | .function d => if d.name = "main" then some d else none
    | _ => none
  match main? with
  | some d => if callsMain p then [] else [⟨.mainNotCalled, d.place⟩]
  | none => []

end Analysis

/-- All diagnostics of a program. -/
def analyze (p : Program) : Report :=
  let globals := Stmt.bindings p.statements
  ⟨Analysis.personalityDiagnostics [] p.personalityBlocks ++
    Analysis.unreachableDiagnostics p.statements ++
    (Stmt.functions p.statements).flatMap (Analysis.functionDiagnostics globals) ++
    Analysis.mainDiagnostics p ++
    Analysis.infiniteLoopDiagnostics p.statements⟩

end Persona
