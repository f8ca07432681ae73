import Persona.Text.Position
import Persona.Trait

/-! Syntax trees.

A program is a list of statements. Every statement, name and call keeps the
coordinate where it was written; nothing in the meaning of a program depends on
one. -/
namespace Persona

inductive BinaryOp where
  | add | sub | mul | div | mod | pow
  | equal | notEqual | less | lessEqual | greater | greaterEqual
  | and | or
deriving DecidableEq

def BinaryOp.symbol : BinaryOp → String
  | add => "+"
  | sub => "-"
  | mul => "*"
  | div => "/"
  | mod => "%"
  | pow => "**"
  | equal => "=="
  | notEqual => "!="
  | less => "<"
  | lessEqual => "<="
  | greater => ">"
  | greaterEqual => ">="
  | and => "&&"
  | or => "||"

inductive UnaryOp where
  | negate | not
deriving DecidableEq

def UnaryOp.symbol : UnaryOp → String
  | negate => "-"
  | not => "!"

inductive Literal where
  | number (x : Float)
  | string (s : String)
  | bool (b : Bool)
  | null
deriving DecidableEq

/-- A use of a name. -/
structure Identifier where
  name : String
  place : Coordinate
deriving DecidableEq

inductive Expr where
  | literal (l : Literal)
  | identifier (i : Identifier)
  | binary (op : BinaryOp) (left right : Expr)
  | unary (op : UnaryOp) (operand : Expr)
  | assign (target : Identifier) (value : Expr)
  | call (place : Coordinate) (callee : Expr) (arguments : List Expr)
  | array (elements : List Expr)
  | map (entries : List (String × Expr))
  | index (object key : Expr)

/-- A parameter and its type, which is only a remark. -/
structure Param where
  name : String
  type : Option String
deriving DecidableEq

/-- One line of a personality block. -/
structure TraitEntry where
  key : Trait
  value : Float
  place : Coordinate
deriving DecidableEq

mutual

inductive Stmt where
  | expr (place : Coordinate) (e : Expr)
  | bind (place : Coordinate) (name : String) (value : Expr)
  | function (decl : FunctionDecl)
  | cond (place : Coordinate) (test : Expr) (yes : List Stmt) (no : Option Stmt)
  | whileLoop (place : Coordinate) (test : Expr) (body : List Stmt)
  | forEach (place : Coordinate) (name : String) (iterable : Expr) (body : List Stmt)
  | block (place : Coordinate) (body : List Stmt)
  | personality (place : Coordinate) (entries : List TraitEntry)
  | giveBack (place : Coordinate) (value : Option Expr)
  | leave (place : Coordinate)
  | again (place : Coordinate)

/-- A named function; the types are only remarks. -/
structure FunctionDecl where
  place : Coordinate
  name : String
  params : List Param
  returnType : Option String
  body : List Stmt

end

def Stmt.place : Stmt → Coordinate
  | expr p _ | bind p _ _ | cond p _ _ _ | whileLoop p _ _ | forEach p _ _ _ | block p _
  | personality p _ | giveBack p _ | leave p | again p => p
  | function d => d.place

structure Program where
  statements : List Stmt

end Persona
