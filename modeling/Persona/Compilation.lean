import Persona.Compilation.Pool
import Persona.Instruction.Chunk

/-! From programs to bytecode.

The code of an expression, of a statement or of a list of statements is a list
of instructions that works wherever it is put: jumps are relative, and distances
follow from the sizes of the parts. Two things come from outside. A `break`
stands in the code as a gap until the loop around it is complete; `continue`
needs the number of bytes since its loop began. And a function statement needs
the entry of the function's body: bodies are put in front of everything else,
innermost first, and their entries handed to the statements in the order of the
source. -/
namespace Persona

/-- What a jump that is too far belongs to. -/
inductive JumpOwner where
  | logical
  | statement (keyword : String) (place : Coordinate)
deriving DecidableEq

/-- Why a program has no bytecode. -/
inductive CompileError where
  | tooManyArguments (place : Coordinate) (count : Nat)
  | tooManyParameters (place : Coordinate) (count : Nat)
  | tooManyTraits (count : Nat)
  | missingBody (place : Coordinate)
  | misplacedPersonality (place : Coordinate)
  | breakOutsideLoop (place : Coordinate)
  | continueOutsideLoop (place : Coordinate)
  | jumpTooFar (owner : JumpOwner) (distance : Int)
deriving DecidableEq

namespace CompileError

/-- What cannot be compiled. -/
def node : CompileError → String
  | tooManyArguments place _ => s!"call at {place.text}"
  | tooManyParameters place _ | missingBody place => s!"function at {place.text}"
  | tooManyTraits _ => "personality block"
  | misplacedPersonality place => s!"personality block at {place.text}"
  | breakOutsideLoop place => s!"break at {place.text}"
  | continueOutsideLoop place => s!"continue at {place.text}"
  | jumpTooFar .logical _ => "logical expression"
  | jumpTooFar (.statement keyword place) _ => s!"{keyword} at {place.text}"

def reason : CompileError → String
  | tooManyArguments _ n => s!"{n} arguments exceed 255"
  | tooManyParameters _ n => s!"{n} parameters exceed 255"
  | tooManyTraits n => s!"{n} entries exceed 255"
  | missingBody _ => "function body was not emitted"
  | misplacedPersonality _ => "personality blocks are only allowed at the top level"
  | breakOutsideLoop _ => "'break' outside of a loop"
  | continueOutsideLoop _ => "'continue' outside of a loop"
  | jumpTooFar _ d => s!"jump distance {d} does not fit in i16"

def message (e : CompileError) : String := s!"Cannot compile {e.node}: {e.reason}"

end CompileError

namespace Compilation

/-- An instruction, or the three bytes of a jump out of the loop around. -/
inductive Piece where
  | instr (i : Instruction)
  | exit
deriving DecidableEq

abbrev Code := List Piece

def Piece.size : Piece → Nat
  | instr i => i.size
  | exit => 3

def size (code : Code) : Nat := code.foldr (fun p n => p.size + n) 0

/-- The greatest count of arguments, parameters or traits. -/
def maxCount : Nat := 255

/-- Long literals are made in segments of this many entries. -/
def segmentLength : Nat := 128

/-- A jump over a distance that two bytes must hold. -/
def jumpBy (owner : JumpOwner) (make : Int → Instruction) (distance : Int) : Except CompileError Code :=
  if Instruction.fitsJump distance then .ok [.instr (make distance)]
  else .error (.jumpTooFar owner distance)

/-! ### Expressions -/

def literalCode (pool : Pool) : Literal → Code
  | .number x => [.instr (.pushConst (pool.indexOf (.ofFloat x)))]
  | .string s => [.instr (.pushConst (pool.indexOf (.string s)))]
  | .bool true => [.instr .pushTrue]
  | .bool false => [.instr .pushFalse]
  | .null => [.instr .pushNull]

/-- A built-in that nothing can hide is loaded directly. -/
def nameCode (pool : Pool) (name : String) : Code :=
  match pool.builtin? name with
  | some b => [.instr (.loadBuiltin b)]
  | none => [.instr (.loadVar (pool.indexOf (.string name)))]

/-- A call whose result is dropped needs a second instruction if it is long. -/
def callCode (argc : Nat) (drop : Bool) : Code :=
  if drop && Instruction.shortArgcMax < argc then [.instr (.call argc false), .instr .pop]
  else [.instr (.call argc drop)]

/-- The entries of a literal, made into values a segment at a time; every segment but
the first extends the value before it. `done` entries of the present segment lie on the
stack, `first` says that no segment is complete. -/
def segments (make : Nat → Instruction) : (first : Bool) → (done : Nat) → List Code → Code
  | first, done, [] =>
    if done = 0 && !first then []
    else .instr (make done) :: if first then [] else [.instr .extend]
  | first, done, entry :: rest =>
    if done = segmentLength then
      .instr (make done) :: (if first then [] else [.instr .extend]) ++ entry ++ segments make false 1 rest
    else entry ++ segments make first (done + 1) rest

mutual

def expr (pool : Pool) : Expr → Except CompileError Code
  | .literal l => .ok (literalCode pool l)
  | .identifier i => .ok (nameCode pool i.name)
  | .binary .and l r => do
    let left ← expr pool l
    let right ← expr pool r
    let skip ← jumpBy .logical .jumpIfFalse (size right + 3)
    return left ++ (skip ++ right ++ [.instr (.jump 1), .instr .pushFalse])
  | .binary .or l r => do
    let left ← expr pool l
    let right ← expr pool r
    let skip ← jumpBy .logical .jump (size right)
    return left ++ .instr (.jumpIfFalse 4) :: .instr .pushTrue :: (skip ++ right)
  | .binary op l r => do
    let left ← expr pool l
    let right ← expr pool r
    return left ++ (right ++ [.instr (.binOp op)])
  | .unary op e => do
    return (← expr pool e) ++ [.instr (.unOp op)]
  | .assign target value => do
    return (← expr pool value) ++ [.instr (.storeVar (pool.indexOf (.string target.name)))]
  | .call place callee arguments =>
    if maxCount < arguments.length then .error (.tooManyArguments place arguments.length)
    else do
      let function ← expr pool callee
      let values ← exprs pool arguments
      return function ++ (values.flatten ++ callCode arguments.length false)
  | .array elements => do
    return segments .makeArray true 0 (← exprs pool elements)
  | .map es => do
    return segments .makeMap true 0 (← entries pool es)
  | .index object key => do
    let o ← expr pool object
    let k ← expr pool key
    return o ++ (k ++ [.instr .index])
termination_by structural e => e

def exprs (pool : Pool) : List Expr → Except CompileError (List Code)
  | [] => .ok []
  | e :: es => do
    let first ← expr pool e
    let rest ← exprs pool es
    return first :: rest
termination_by structural es => es

/-- Key and value of every entry. -/
def entries (pool : Pool) : List (String × Expr) → Except CompileError (List Code)
  | [] => .ok []
  | (key, value) :: es => do
    let first ← expr pool value
    let rest ← entries pool es
    return (.instr (.pushConst (pool.indexOf (.string key))) :: first) :: rest
termination_by structural es => es

end

/-- An expression whose value is dropped. -/
def dropped (pool : Pool) : Expr → Except CompileError Code
  | .call place callee arguments =>
    if maxCount < arguments.length then .error (.tooManyArguments place arguments.length)
    else do
      let function ← expr pool callee
      let values ← exprs pool arguments
      return function ++ (values.flatten ++ callCode arguments.length true)
  | e => do
    return (← expr pool e) ++ [.instr .pop]

/-! ### Statements -/

/-- What a statement stands in. `sinceLoop` is the number of bytes between the start of
the loop around it and the statement. -/
structure Surroundings where
  inFunction : Bool
  inBlock : Bool
  sinceLoop : Option Nat

def Surroundings.after (s : Surroundings) (code : Code) : Surroundings :=
  { s with sinceLoop := s.sinceLoop.map (· + size code) }

/-- Fills the gaps of `break` in a loop's body; `behind` is the number of bytes after the
code to where they lead. -/
def fillExits (place : Coordinate) (behind : Nat) : Code → Except CompileError Code
  | [] => .ok []
  | .exit :: rest => do
    let jump ← jumpBy (.statement "break" place) .jump (size rest + behind)
    let rest ← fillExits place behind rest
    return jump ++ rest
  | .instr i :: rest => do
    let rest ← fillExits place behind rest
    return .instr i :: rest

/-- Statements need the entries of the functions they declare, in order. -/
abbrev Emit (α : Type) := StateT (List Nat) (Except CompileError) α

def takeEntry (place : Coordinate) : Emit Nat := do
  match ← get with
  | [] => throw (.missingBody place)
  | entry :: rest =>
    set rest
    return entry

def functionCode (pool : Pool) (d : FunctionDecl) (entry : Nat) : Code :=
  let name := pool.indexOf (.string d.name)
  let params := d.params.map fun p => pool.indexOf (.string p.name)
  [.instr (.makeFunction name params entry), .instr (.defineVar name)]

/-- A loop's code from its parts. `head` is run before every round and jumps behind the
loop when there is none; `tail` is run by a `break` and not by the head. -/
def loopCode (keyword : String) (place : Coordinate) (test : Code) (exit : Int → Instruction)
    (body tail : Code) : Except CompileError Code := do
  let back ← jumpBy (.statement keyword place) .jump (-(size test + 3 + size body + 3 : Int))
  let leave ← jumpBy (.statement keyword place) exit (size body + 3 + size tail)
  let body ← fillExits place 3 body
  return test ++ leave ++ body ++ back ++ tail

mutual

def stmt (pool : Pool) (around : Surroundings) : Stmt → Emit Code
  | .expr _ e => dropped pool e
  | .bind _ name value => do
    return (← expr pool value) ++ [.instr (.defineVar (pool.indexOf (.string name)))]
  | .function d => do
    if maxCount < d.params.length then throw (.tooManyParameters d.place d.params.length)
    return functionCode pool d (← takeEntry d.place)
  | .cond place test yes no => do
    let test ← expr pool test
    let inner := { (around.after test).after [.exit] with inBlock := true }
    let yes ← stmts pool inner [] yes
    match no with
    | none =>
      let skip ← jumpBy (.statement "if" place) .jumpIfFalse (size yes)
      return test ++ skip ++ yes
    | some s =>
      let skip ← jumpBy (.statement "if" place) .jumpIfFalse (size yes + 3)
      let no ← stmt pool ((inner.after yes).after [.exit]) s
      let past ← jumpBy (.statement "if" place) .jump (size no)
      return test ++ skip ++ yes ++ past ++ no
  | .whileLoop place test body => do
    let test ← expr pool test
    let body ← stmts pool ⟨around.inFunction, true, some (size test + 3)⟩ [] body
    loopCode "while" place test .jumpIfFalse body []
  | .forEach place name iterable body => do
    let iterable ← expr pool iterable
    let define := Piece.instr (.defineVar (pool.indexOf (.string name)))
    let body ← stmts pool ⟨around.inFunction, true, some (3 + size [define])⟩ [] body
    let loop ← loopCode "for" place [] .forNext (define :: body) [.instr .pop, .instr .pop]
    return iterable ++ .instr .iterInit :: loop
  | .block _ body => stmts pool { around with inBlock := true } [] body
  | .personality place _ =>
    if around.inFunction || around.inBlock then throw (.misplacedPersonality place)
    else return []
  | .giveBack _ value => do
    let value ← match value with
      | some e => expr pool e
      | none => pure [Piece.instr .pushNull]
    return value ++ if around.inFunction then [.instr .ret] else [.instr .pop, .instr .halt]
  | .leave place => if around.sinceLoop.isSome then return [.exit] else throw (.breakOutsideLoop place)
  | .again place =>
    match around.sinceLoop with
    | some n => jumpBy (.statement "continue" place) .jump (-(n + 3 : Int))
    | none => throw (.continueOutsideLoop place)
termination_by structural s => s

/-- Statements one after the other. `before` is the code so far, last statement first. -/
def stmts (pool : Pool) (around : Surroundings) (before : List Code) : List Stmt → Emit Code
  | [] => return before.reverse.flatten
  | s :: rest => do
    let code ← stmt pool around s
    stmts pool (around.after code) (code :: before) rest
termination_by structural ss => ss

end

/-! ### Programs -/

/-- Bodies written so far and the entries of the functions in hand, last first. -/
structure Bodies where
  code : List Code
  size : Nat
  entries : List Nat

/-- Adds the body of a function whose inner functions have the given entries. -/
def addBody (pool : Pool) (d : FunctionDecl) (inner : List Nat) (b : Bodies) :
    Except CompileError Bodies := do
  let (code, _) ← (stmts pool ⟨true, false, none⟩ [] d.body).run inner
  let code := code ++ [.instr .pushNull, .instr .ret]
  return ⟨code :: b.code, b.size + size code, b.size :: b.entries⟩

mutual

/-- Adds the bodies of the functions that a statement declares; `entries` gets those of
the functions that are not inside another. -/
def bodies (pool : Pool) : Stmt → Bodies → Except CompileError Bodies
  | .function ⟨place, name, params, returnType, body⟩, b => do
    let inner ← bodiesOf pool body { b with entries := [] }
    addBody pool ⟨place, name, params, returnType, body⟩ inner.entries.reverse
      { inner with entries := b.entries }
  | .cond _ _ yes no, b => do
    bodiesElse pool no (← bodiesOf pool yes b)
  | .whileLoop _ _ body, b | .forEach _ _ _ body, b | .block _ body, b => bodiesOf pool body b
  | _, b => .ok b
termination_by structural s => s

def bodiesOf (pool : Pool) : List Stmt → Bodies → Except CompileError Bodies
  | [], b => .ok b
  | s :: rest, b => do
    bodiesOf pool rest (← bodies pool s b)
termination_by structural ss => ss

def bodiesElse (pool : Pool) : Option Stmt → Bodies → Except CompileError Bodies
  | none, b => .ok b
  | some s, b => bodies pool s b
termination_by structural no => no

end

/-- All personality blocks, which take effect before anything else. -/
def personalityCode (pool : Pool) : List (List TraitEntry) → Except CompileError Code
  | [] => .ok []
  | block :: rest => do
    if maxCount < block.length then throw (.tooManyTraits block.length)
    let entries := block.map fun e => (e.key, pool.indexOf (.ofFloat e.value))
    return .instr (.personality entries) :: (← personalityCode pool rest)

/-- The instructions of complete code. -/
def instructions (code : Code) : List Instruction :=
  code.filterMap fun
    | .instr i => some i
    | .exit => none

end Compilation

open Compilation in
/-- The bytecode of a program. -/
def compile (p : Program) : Except CompileError Bytecode := do
  let pool := Pool.ofProgram p
  let b ← bodiesOf pool p.statements ⟨[], 0, []⟩
  let setup ← personalityCode pool p.personalityBlocks
  let (main, _) ← (stmts pool ⟨false, false, none⟩ [] p.statements).run b.entries.reverse
  let code := b.code.reverse.flatten ++ setup ++ main ++ [.instr .halt]
  return ⟨pool.constants, (instructions code).flatMap Instruction.encode, b.size⟩

end Persona
