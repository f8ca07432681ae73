import Persona.Syntax

/-! Parts of programs, in the order of the source.

A function's body belongs to the function and not to the statements around it:
`Stmt.own` stays outside, `Stmt.deep` goes in. -/
namespace Persona

namespace Expr

mutual

/-- An expression and all expressions inside it. -/
def parts : Expr → List Expr
  | literal l => [literal l]
  | identifier i => [identifier i]
  | binary op l r => binary op l r :: (parts l ++ parts r)
  | unary op e => unary op e :: parts e
  | assign target value => assign target value :: parts value
  | call place callee arguments => call place callee arguments :: (parts callee ++ listParts arguments)
  | array elements => array elements :: listParts elements
  | map entries => map entries :: entryParts entries
  | index object key => index object key :: (parts object ++ parts key)
termination_by structural e => e

def listParts : List Expr → List Expr
  | [] => []
  | e :: es => parts e ++ listParts es
termination_by structural es => es

def entryParts : List (String × Expr) → List Expr
  | [] => []
  | (_, value) :: rest => parts value ++ entryParts rest
termination_by structural es => es

end

/-- The names that an expression uses, each use once. -/
def uses (e : Expr) : List Identifier :=
  e.parts.filterMap fun
    | identifier i => some i
    | _ => none

/-- The names that an expression assigns. -/
def assigned (e : Expr) : List String :=
  e.parts.filterMap fun
    | assign target _ => some target.name
    | _ => none

end Expr

namespace Stmt

mutual

/-- A statement and the statements inside it that run in the same call. -/
def own : Stmt → List Stmt
  | cond p test yes no => cond p test yes no :: (ownList yes ++ ownElse no)
  | whileLoop p test body => whileLoop p test body :: ownList body
  | forEach p name iterable body => forEach p name iterable body :: ownList body
  | block p body => block p body :: ownList body
  | s => [s]
termination_by structural s => s

def ownList : List Stmt → List Stmt
  | [] => []
  | s :: rest => own s ++ ownList rest
termination_by structural ss => ss

def ownElse : Option Stmt → List Stmt
  | none => []
  | some s => own s
termination_by structural no => no

end

mutual

/-- A statement and all statements inside it, function bodies included. -/
def deep : Stmt → List Stmt
  | cond p test yes no => cond p test yes no :: (deepList yes ++ deepElse no)
  | whileLoop p test body => whileLoop p test body :: deepList body
  | forEach p name iterable body => forEach p name iterable body :: deepList body
  | block p body => block p body :: deepList body
  | function ⟨p, name, params, returnType, body⟩ =>
    function ⟨p, name, params, returnType, body⟩ :: deepList body
  | s => [s]
termination_by structural s => s

def deepList : List Stmt → List Stmt
  | [] => []
  | s :: rest => deep s ++ deepList rest
termination_by structural ss => ss

def deepElse : Option Stmt → List Stmt
  | none => []
  | some s => deep s
termination_by structural no => no

end

mutual

/-- The statement lists inside a statement, outer before inner. An `else` branch is a
list of its own. -/
def lists : Stmt → List (List Stmt)
  | cond _ _ yes no => (yes :: listsIn yes) ++ listsElse no
  | whileLoop _ _ body => body :: listsIn body
  | forEach _ _ _ body => body :: listsIn body
  | block _ body => body :: listsIn body
  | function ⟨_, _, _, _, body⟩ => body :: listsIn body
  | _ => []
termination_by structural s => s

def listsIn : List Stmt → List (List Stmt)
  | [] => []
  | s :: rest => lists s ++ listsIn rest
termination_by structural ss => ss

def listsElse : Option Stmt → List (List Stmt)
  | none => []
  | some s => [s] :: lists s
termination_by structural no => no

end

/-- The expressions that stand in a statement itself. -/
def exprs : Stmt → List Expr
  | expr _ e | bind _ _ e | cond _ e _ _ | whileLoop _ e _ | forEach _ _ e _ => [e]
  | giveBack _ e => e.toList
  | _ => []

/-- The name that a statement binds, apart from assignments in its expressions. -/
def binds : Stmt → List String
  | bind _ name _ | forEach _ name _ _ => [name]
  | function d => [d.name]
  | _ => []

/-- The functions that statements declare, at any depth. -/
def functions (ss : List Stmt) : List FunctionDecl :=
  (deepList ss).filterMap fun
    | function d => some d
    | _ => none

/-- The names that running statements can bind, in the scope that they run in or, by
assignment, outside. -/
def bindings (ss : List Stmt) : List String :=
  (ownList ss).flatMap fun s => s.binds ++ s.exprs.flatMap Expr.assigned

/-- The names that statements use. -/
def uses (ss : List Stmt) : List Identifier :=
  (ownList ss).flatMap fun s => s.exprs.flatMap Expr.uses

end Stmt

/-- The entries of the top-level personality blocks, block by block. -/
def Program.personalityBlocks (p : Program) : List (List TraitEntry) :=
  p.statements.filterMap fun
    | .personality _ entries => some entries
    | _ => none

end Persona
