import Persona.Compilation

/-! Emission with a pool that may grow.

The same traversal as `compile`, one that does not rely on the pool to have a constant: each index that
is written comes from a lookup that adds the constant if it is not there. What comes out is the code
together with the pool as it is then. -/
namespace Persona

namespace Compilation

/-- Emission that looks constants up in a pool and adds those that it does not find. -/
abbrev Growing (α : Type) := StateT Pool (Except CompileError) α

namespace Growing

/-- The index of a constant, which is added if it is new. -/
def index (c : Constant) : Growing Nat := do
  modify fun pool => pool.intern c
  return (← get).indexOf c

/-! ### Expressions -/

def literalCode : Literal → Growing Code
  | .number x => return [.instr (.pushConst (← index (.ofFloat x)))]
  | .string s => return [.instr (.pushConst (← index (.string s)))]
  | .bool true => return [.instr .pushTrue]
  | .bool false => return [.instr .pushFalse]
  | .null => return [.instr .pushNull]

def nameCode (name : String) : Growing Code := do
  match (← get).builtin? name with
  | some b => return [.instr (.loadBuiltin b)]
  | none => return [.instr (.loadVar (← index (.string name)))]

mutual

def expr : Expr → Growing Code
  | .literal l => literalCode l
  | .identifier i => nameCode i.name
  | .binary .and l r => do
    let left ← expr l
    let right ← expr r
    let skip ← jumpBy .logical .jumpIfFalse (size right + 3)
    return left ++ (skip ++ right ++ [.instr (.jump 1), .instr .pushFalse])
  | .binary .or l r => do
    let left ← expr l
    let right ← expr r
    let skip ← jumpBy .logical .jump (size right)
    return left ++ .instr (.jumpIfFalse 4) :: .instr .pushTrue :: (skip ++ right)
  | .binary op l r => do
    let left ← expr l
    let right ← expr r
    return left ++ (right ++ [.instr (.binOp op)])
  | .unary op e => do
    return (← expr e) ++ [.instr (.unOp op)]
  | .assign target value => do
    return (← expr value) ++ [.instr (.storeVar (← index (.string target.name)))]
  | .call place callee arguments =>
    if maxCount < arguments.length then throw (.tooManyArguments place arguments.length)
    else do
      let function ← expr callee
      let values ← exprs arguments
      return function ++ (values.flatten ++ callCode arguments.length false)
  | .array elements => do
    return segments .makeArray true 0 (← exprs elements)
  | .map es => do
    return segments .makeMap true 0 (← entries es)
  | .index object key => do
    let o ← expr object
    let k ← expr key
    return o ++ (k ++ [.instr .index])
termination_by structural e => e

def exprs : List Expr → Growing (List Code)
  | [] => return []
  | e :: es => do
    let first ← expr e
    let rest ← exprs es
    return first :: rest
termination_by structural es => es

/-- Key and value of every entry. -/
def entries : List (String × Expr) → Growing (List Code)
  | [] => return []
  | (key, value) :: es => do
    let idx ← index (.string key)
    let first ← expr value
    let rest ← entries es
    return (.instr (.pushConst idx) :: first) :: rest
termination_by structural es => es

end

/-- An expression whose value is dropped. -/
def dropped : Expr → Growing Code
  | .call place callee arguments =>
    if maxCount < arguments.length then throw (.tooManyArguments place arguments.length)
    else do
      let function ← expr callee
      let values ← exprs arguments
      return function ++ (values.flatten ++ callCode arguments.length true)
  | e => do
    return (← expr e) ++ [.instr .pop]

/-! ### Statements -/

/-- Emission of statements, which need the entries of the functions that they declare. -/
abbrev Emit (α : Type) := StateT (List Nat) Growing α

def takeEntry (place : Coordinate) : Emit Nat := do
  match ← get with
  | [] => throw (.missingBody place)
  | entry :: rest =>
    set rest
    return entry

def functionCode (d : FunctionDecl) (entry : Nat) : Growing Code := do
  let name ← index (.string d.name)
  let params ← d.params.mapM fun p => index (.string p.name)
  return [.instr (.makeFunction name params entry), .instr (.defineVar (← index (.string d.name)))]

mutual

def stmt (around : Surroundings) : Stmt → Emit Code
  | .expr _ e => dropped e
  | .bind _ name value => do
    let value ← expr value
    return value ++ [.instr (.defineVar (← index (.string name)))]
  | .function d => do
    if maxCount < d.params.length then throw (.tooManyParameters d.place d.params.length)
    functionCode d (← takeEntry d.place)
  | .cond place test yes no => do
    let test ← expr test
    let inner := { (around.after test).after [.exit] with inBlock := true }
    let yes ← stmts inner [] yes
    match no with
    | none =>
      let skip ← jumpBy (.statement "if" place) .jumpIfFalse (size yes)
      return test ++ skip ++ yes
    | some s =>
      let skip ← jumpBy (.statement "if" place) .jumpIfFalse (size yes + 3)
      let no ← stmt ((inner.after yes).after [.exit]) s
      let past ← jumpBy (.statement "if" place) .jump (size no)
      return test ++ skip ++ yes ++ past ++ no
  | .whileLoop place test body => do
    let test ← expr test
    let body ← stmts ⟨around.inFunction, true, some (size test + 3)⟩ [] body
    loopCode "while" place test .jumpIfFalse body []
  | .forEach place name iterable body => do
    let iterable ← expr iterable
    let define := Piece.instr (.defineVar (← index (.string name)))
    let body ← stmts ⟨around.inFunction, true, some (3 + size [define])⟩ [] body
    let loop ← loopCode "for" place [] .forNext (define :: body) [.instr .pop, .instr .pop]
    return iterable ++ .instr .iterInit :: loop
  | .block _ body => stmts { around with inBlock := true } [] body
  | .personality place _ =>
    if around.inFunction || around.inBlock then throw (.misplacedPersonality place)
    else return []
  | .giveBack _ value => do
    let value ← match value with
      | some e => expr e
      | none => pure [Piece.instr .pushNull]
    return value ++ if around.inFunction then [.instr .ret] else [.instr .pop, .instr .halt]
  | .leave place => if around.sinceLoop.isSome then return [.exit] else throw (.breakOutsideLoop place)
  | .again place =>
    match around.sinceLoop with
    | some n => jumpBy (.statement "continue" place) .jump (-(n + 3 : Int))
    | none => throw (.continueOutsideLoop place)
termination_by structural s => s

/-- Statements one after the other. `before` is the code so far, last statement first. -/
def stmts (around : Surroundings) (before : List Code) : List Stmt → Emit Code
  | [] => return before.reverse.flatten
  | s :: rest => do
    let code ← stmt around s
    stmts (around.after code) (code :: before) rest
termination_by structural ss => ss

end

/-! ### Programs -/

/-- Adds the body of a function whose inner functions have the given entries. -/
def addBody (d : FunctionDecl) (inner : List Nat) (b : Bodies) : Growing Bodies := do
  let (code, _) ← (stmts ⟨true, false, none⟩ [] d.body).run inner
  let code := code ++ [.instr .pushNull, .instr .ret]
  return ⟨code :: b.code, b.size + size code, b.size :: b.entries⟩

mutual

/-- Adds the bodies of the functions that a statement declares. -/
def bodies : Stmt → Bodies → Growing Bodies
  | .function ⟨place, name, params, returnType, body⟩, b => do
    let inner ← bodiesOf body { b with entries := [] }
    addBody ⟨place, name, params, returnType, body⟩ inner.entries.reverse
      { inner with entries := b.entries }
  | .cond _ _ yes no, b => do
    bodiesElse no (← bodiesOf yes b)
  | .whileLoop _ _ body, b | .forEach _ _ _ body, b | .block _ body, b => bodiesOf body b
  | _, b => return b
termination_by structural s => s

def bodiesOf : List Stmt → Bodies → Growing Bodies
  | [], b => return b
  | s :: rest, b => do
    bodiesOf rest (← bodies s b)
termination_by structural ss => ss

def bodiesElse : Option Stmt → Bodies → Growing Bodies
  | none, b => return b
  | some s, b => bodies s b
termination_by structural no => no

end

/-- All personality blocks, which take effect before anything else. -/
def personalityCode : List (List TraitEntry) → Growing Code
  | [] => return []
  | block :: rest => do
    if maxCount < block.length then throw (.tooManyTraits block.length)
    let entries ← block.mapM fun e => do return (e.key, ← index (.ofFloat e.value))
    return .instr (.personality entries) :: (← personalityCode rest)

/-- Code and entry of a program. -/
def program (p : Program) : Growing (Code × Nat) := do
  let b ← bodiesOf p.statements ⟨[], 0, []⟩
  let setup ← personalityCode p.personalityBlocks
  let (main, _) ← (stmts ⟨false, false, none⟩ [] p.statements).run b.entries.reverse
  return (b.code.reverse.flatten ++ setup ++ main ++ [.instr .halt], b.size)

end Growing

end Compilation

open Compilation in
/-- The bytecode of a program, with the constants that emission leaves behind: those that were collected
and those that it did not find among them. -/
def compileGrowing (p : Program) : Except CompileError Bytecode := do
  let ((code, entry), pool) ← (Growing.program p).run (Pool.ofProgram p)
  return ⟨pool.constants, (instructions code).flatMap Instruction.encode, entry⟩

end Persona
