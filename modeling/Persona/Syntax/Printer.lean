import Persona.Decimal.Text
import Persona.Syntax
import Persona.Text.Quoted

/-! The canonical text of a program.

Every operation stands in parentheses, every statement on lines of its own, and
a block is indented by four blanks. Read again, the text gives the same program
at other coordinates. -/
namespace Persona

def Literal.text : Literal → String
  | number x => Decimal.number x
  | string s => Text.quote s
  | bool b => toString b
  | null => "null"

/-- Texts in a row, with `, ` between two. -/
def commaSeparated (texts : List String) : String := ", ".intercalate texts

namespace Expr

mutual

def text : Expr → String
  | literal l => l.text
  | identifier i => i.name
  | binary op l r => s!"({l.text} {op.symbol} {r.text})"
  | unary op e => s!"({op.symbol}{e.text})"
  | assign target value => s!"{target.name} = {value.text}"
  | call _ callee arguments => s!"{callee.text}({commaSeparated (listTexts arguments)})"
  | array elements => s!"[{commaSeparated (listTexts elements)}]"
  | map entries => "\x7b" ++ commaSeparated (entryTexts entries) ++ "\x7d"
  | index object key => s!"{object.text}[{key.text}]"
termination_by structural e => e

def listTexts : List Expr → List String
  | [] => []
  | e :: es => e.text :: listTexts es
termination_by structural es => es

def entryTexts : List (String × Expr) → List String
  | [] => []
  | (key, value) :: rest => s!"{Text.quote key}: {value.text}" :: entryTexts rest
termination_by structural es => es

end

end Expr

def Param.text (p : Param) : String :=
  match p.type with
  | some type => s!"{p.name}: {type}"
  | none => p.name

def TraitEntry.text (e : TraitEntry) : String := s!"{e.key.name}: {Decimal.number e.value}"

namespace Stmt

def indent (depth : Nat) : String := String.join (List.replicate depth "    ")

/-- The texts of a block's statements between its braces. -/
def braced (depth : Nat) (statements : List String) : String :=
  "\x7b\n" ++ String.join statements ++ indent depth ++ "\x7d"

mutual

/-- One statement at a depth of indentation, up to its line feed. -/
def text (depth : Nat) : Stmt → String
  | expr _ e => s!"{indent depth}{e.text};\n"
  | bind _ name value => s!"{indent depth}let {name} = {value.text};\n"
  | function ⟨_, name, params, returnType, body⟩ =>
    let result := match returnType with
      | some type => s!"-> {type} "
      | none => ""
    s!"{indent depth}fn {name}({commaSeparated (params.map Param.text)}) {result}" ++
      braced depth (listTexts (depth + 1) body) ++ "\n"
  | cond _ test yes no =>
    s!"{indent depth}if {test.text} " ++ braced depth (listTexts (depth + 1) yes) ++ elseText depth no ++ "\n"
  | whileLoop _ test body => s!"{indent depth}while {test.text} " ++ braced depth (listTexts (depth + 1) body) ++ "\n"
  | forEach _ name iterable body =>
    s!"{indent depth}for {name} in {iterable.text} " ++ braced depth (listTexts (depth + 1) body) ++ "\n"
  | block _ body => indent depth ++ braced depth (listTexts (depth + 1) body) ++ "\n"
  | personality _ entries =>
    indent depth ++ "personality \x7b " ++ commaSeparated (entries.map TraitEntry.text) ++ " \x7d\n"
  | giveBack _ (some e) => s!"{indent depth}return {e.text};\n"
  | giveBack _ none => s!"{indent depth}return;\n"
  | leave _ => s!"{indent depth}break;\n"
  | again _ => s!"{indent depth}continue;\n"
termination_by structural s => s

def listTexts (depth : Nat) : List Stmt → List String
  | [] => []
  | s :: rest => text depth s :: listTexts depth rest
termination_by structural ss => ss

/-- What follows the first block of a conditional: another conditional or a block. -/
def elseText (depth : Nat) : Option Stmt → String
  | some (cond _ test yes no) =>
    s!" else if {test.text} " ++ braced depth (listTexts (depth + 1) yes) ++ elseText depth no
  | some (block _ body) => " else " ++ braced depth (listTexts (depth + 1) body)
  | _ => ""
termination_by structural no => no

end

end Stmt

def Program.text (p : Program) : String := String.join (Stmt.listTexts 0 p.statements)

end Persona
