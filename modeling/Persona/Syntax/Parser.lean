import Persona.Decimal.Reading
import Persona.Syntax
import Persona.Token

/-! From tokens to a program.

A parser takes tokens off the front of a list. Nesting is bounded by the *room*
left: an expression, an operand of a unary operator, a block and a chained
conditional each take one from it, and where none is left parsing stops with
`nestingTooDeep`. A repetition is bounded by the tokens that are left when it
begins: every round takes at least one of them.

Binary operators are read by strength: after an operand, operators of strength
above a minimum continue the expression, and the right operand is the expression
of the operator's own strength, or of one less where the operator associates to
the right. -/
namespace Persona

/-- Why a sequence of tokens is not a program. -/
inductive SyntaxFault where
  | unexpectedToken (found : Lexeme) (expected : List String)
  | invalidNumber (text : String)
  | missingParen
  | missingBracket
  | missingBrace
  | unexpectedEnd
  | expectedName (found : Lexeme)
  | invalidTarget
  | unknownTrait (name : String)
  | misplacedPersonality
  | expectedTraitValue (found : Lexeme)
  | breakOutsideLoop
  | continueOutsideLoop
  | nestingTooDeep (limit : Nat)
deriving DecidableEq

/-- A fault and the token where it was noticed; no place is the end of the input. -/
structure SyntaxError where
  fault : SyntaxFault
  place : Option Coordinate
deriving DecidableEq

def SyntaxFault.message : SyntaxFault → String
  | unexpectedToken found expected =>
    if expected.isEmpty then s!"Unexpected token {found.quoted}"
    else s!"Unexpected token {found.quoted}, expected: " ++ ", ".intercalate expected
  | invalidNumber text => s!"Invalid number format: '{text}'"
  | missingParen => "Missing right parenthesis ')'"
  | missingBracket => "Missing right bracket ']'"
  | missingBrace => "Missing right curly brace '\x7d'"
  | unexpectedEnd => "Unexpected end of input"
  | expectedName found => s!"Expected identifier, found: {found.quoted}"
  | invalidTarget => "Invalid assignment target: only identifiers can be assigned"
  | unknownTrait name => s!"Unknown personality trait '{name}'"
  | misplacedPersonality => "Personality blocks are only allowed at the top level"
  | expectedTraitValue found => s!"Expected a numeric trait value, found: {found.quoted}"
  | breakOutsideLoop => "'break' outside of a loop"
  | continueOutsideLoop => "'continue' outside of a loop"
  | nestingTooDeep limit => s!"Nesting too deep: more than {limit} levels"

/-- The message behind its place. -/
def SyntaxError.text (e : SyntaxError) : String :=
  match e.place with
  | some place => s!"[{place.text}] {e.fault.message}"
  | none => s!"[EOF] {e.fault.message}"

/-! ### Operators -/

def BinaryOp.strength : BinaryOp → Nat
  | or => 60
  | and => 80
  | equal | notEqual | less | lessEqual | greater | greaterEqual => 100
  | add | sub => 200
  | mul | div | mod => 300
  | pow => 400

def BinaryOp.mark : BinaryOp → Mark
  | add => .plus
  | sub => .minus
  | mul => .star
  | div => .slash
  | mod => .percent
  | pow => .starStar
  | equal => .equalEqual
  | notEqual => .bangEqual
  | less => .less
  | lessEqual => .lessEqual
  | greater => .greater
  | greaterEqual => .greaterEqual
  | and => .ampAmp
  | or => .pipePipe

def BinaryOp.ofMark? : Mark → Option BinaryOp
  | .plus => some add
  | .minus => some sub
  | .star => some mul
  | .slash => some div
  | .percent => some mod
  | .starStar => some pow
  | .equalEqual => some equal
  | .bangEqual => some notEqual
  | .less => some less
  | .lessEqual => some lessEqual
  | .greater => some greater
  | .greaterEqual => some greaterEqual
  | .ampAmp => some and
  | .pipePipe => some or
  | _ => none

theorem BinaryOp.ofMark?_mark (op : BinaryOp) : ofMark? op.mark = some op := by cases op <;> rfl

/-- What may stand between two operands. -/
inductive Connective where
  | binary (op : BinaryOp)
  | assign
deriving DecidableEq

namespace Connective

def ofLexeme? : Lexeme → Option Connective
  | .mark .equal => some assign
  | .mark m => (BinaryOp.ofMark? m).map binary
  | _ => none

def strength : Connective → Nat
  | binary op => op.strength
  | assign => 50

/-- The minimum for the right operand: powers and assignments group to the right. -/
def rightMinimum : Connective → Nat
  | binary .pow => BinaryOp.pow.strength - 1
  | binary op => op.strength
  | assign => 49

end Connective

/-- Takes tokens off the front. -/
abbrev Parser (α : Type) := StateT (List Token) (Except SyntaxError) α

namespace Parser

/-! ### Single tokens -/

def peek : Parser (Option Token) := do return (← get).head?

def peekLexeme : Parser (Option Lexeme) := do return (← get).head?.map (·.lexeme)

def advance : Parser Unit := modify List.tail

/-- The coordinate of the next token. -/
def here : Parser Coordinate := do
  return match (← get).head? with
    | some t => t.start.coordinate
    | none => .start

/-- Fails at the next token, or at the end. -/
def failHere (fault : SyntaxFault) : Parser α := do
  throw ⟨fault, (← get).head?.map (·.start.coordinate)⟩

def failAt (place : Coordinate) (fault : SyntaxFault) : Parser α := throw ⟨fault, some place⟩

/-- Takes the next token if it is this one. -/
def accept (l : Lexeme) : Parser Bool := do
  if (← peekLexeme) = some l then
    advance
    return true
  else return false

def expect (l : Lexeme) : Parser Unit := do
  match ← peekLexeme with
  | none => failHere .unexpectedEnd
  | some found => if found = l then advance else failHere (.unexpectedToken found [l.describe])

/-- Like `expect`, but what is missing names the fault, also at the end. -/
def expectClosing (m : Mark) (missing : SyntaxFault) : Parser Unit := do
  unless ← accept (.mark m) do failHere missing

def expectName : Parser String := do
  match ← peekLexeme with
  | none => failHere .unexpectedEnd
  | some (.name s) => advance; return s
  | some found => failHere (.expectedName found)

/-- A type is a name; two keywords are types as well. -/
def expectType : Parser String := do
  match ← peekLexeme with
  | some (.keyword .nullKey) => advance; return "null"
  | some (.keyword .fnKey) => advance; return "fn"
  | _ => expectName

/-- The value of a number token, which is the next one. -/
def numberValue (text : String) : Parser Float := do
  match Decimal.parse? text with
  | some x => advance; return x
  | none => failHere (.invalidNumber text)

/-! ### Repetition -/

/-- Items with commas between them, up to a closing mark; a comma may end the row. -/
def separated (close : Mark) (item : Parser α) :
    (bound : List Token) → (before : List α) → Parser (List α)
  | [], before => return before.reverse
  | _ :: bound, before => do
    match ← peekLexeme with
    | none => return before.reverse
    | some l =>
      if l = .mark close then return before.reverse
      else
        let x ← item
        if ← accept (.mark .comma) then separated close item bound (x :: before)
        else return (x :: before).reverse

/-- Items with commas and the closing mark. -/
def row (close : Mark) (missing : SyntaxFault) (item : Parser α) : Parser (List α) := do
  let items ← separated close item (← get) []
  expectClosing close missing
  return items

/-- Like `separated`, for items that report the end of the input themselves. -/
def members (close : Mark) (item : Parser α) :
    (bound : List Token) → (before : List α) → Parser (List α)
  | [], before => do
    return ((← item) :: before).reverse
  | _ :: bound, before => do
    if (← peekLexeme) = some (.mark close) then return before.reverse
    else
      let x ← item
      if ← accept (.mark .comma) then members close item bound (x :: before)
      else return (x :: before).reverse

/-- Members and the closing mark. -/
def body (close : Mark) (missing : SyntaxFault) (item : Parser α) : Parser (List α) := do
  let items ← members close item (← get) []
  expectClosing close missing
  return items

/-- Statements up to a closing brace or the end; semicolons stand alone. -/
def statements (item : Parser Stmt) (closing : Bool) :
    (bound : List Token) → (before : List Stmt) → Parser (List Stmt)
  | [], before => return before.reverse
  | _ :: bound, before => do
    match ← peekLexeme with
    | none => return before.reverse
    | some (.mark .semicolon) =>
      advance
      statements item closing bound before
    | some l =>
      if closing && l = .mark .rightBrace then return before.reverse
      else statements item closing bound ((← item) :: before)

/-! ### Expressions -/

/-- Operators and their right operands after a left one. -/
def operators (operand : (minimum : Nat) → Parser Expr) (minimum : Nat) :
    (bound : List Token) → (left : Expr) → Parser Expr
  | [], left => return left
  | _ :: bound, left => do
    match (← peekLexeme).bind Connective.ofLexeme? with
    | none => return left
    | some c =>
      if c.strength ≤ minimum then return left
      else
        let place ← here
        advance
        let right ← operand c.rightMinimum
        match c, left with
        | .binary op, left => operators operand minimum bound (.binary op left right)
        | .assign, .identifier target => operators operand minimum bound (.assign target right)
        | .assign, _ => failAt place .invalidTarget

/-- Calls and indexings after an expression. They all have the place where it began. -/
def postfixes (expression : Parser Expr) (place : Coordinate) :
    (bound : List Token) → (base : Expr) → Parser Expr
  | [], base => return base
  | _ :: bound, base => do
    match ← peekLexeme with
    | some (.mark .leftParen) =>
      advance
      let arguments ← row .rightParen .missingParen expression
      postfixes expression place bound (.call place base arguments)
    | some (.mark .leftBracket) =>
      advance
      let key ← expression
      expectClosing .rightBracket .missingBracket
      postfixes expression place bound (.index base key)
    | _ => return base

/-- A key, a colon and a value. -/
def mapEntry (expression : Parser Expr) : Parser (String × Expr) := do
  let key ← match ← peekLexeme with
    | some (.name s) | some (.string s) => do advance; pure s
    | some found => failHere (.unexpectedToken found ["identifier", "string"])
    | none => failHere .missingBrace
  expect (.mark .colon)
  return (key, ← expression)

/-- An expression without operators: a literal, a name, or something in brackets. -/
def base (expression : Parser Expr) : Parser Expr := do
  match ← peek with
  | none => failHere .unexpectedEnd
  | some token =>
    match token.lexeme with
    | .number text => return .literal (.number (← numberValue text))
    | .string s => advance; return .literal (.string s)
    | .keyword .trueKey => advance; return .literal (.bool true)
    | .keyword .falseKey => advance; return .literal (.bool false)
    | .keyword .nullKey => advance; return .literal .null
    | .name s => advance; return .identifier ⟨s, token.start.coordinate⟩
    | .mark .leftParen =>
      advance
      let e ← expression
      expectClosing .rightParen .missingParen
      return e
    | .mark .leftBracket =>
      advance
      return .array (← row .rightBracket .missingBracket expression)
    | .mark .leftBrace =>
      advance
      return .map (← body .rightBrace .missingBrace (mapEntry expression))
    | found => failHere (.unexpectedToken found ["expression"])

/-- A base and what follows it. -/
def primary (expression : Parser Expr) : Parser Expr := do
  let place ← here
  let e ← base expression
  postfixes expression place (← get) e

mutual

/-- An expression whose operators are stronger than `minimum`. -/
def expression (limit : Nat) : (room minimum : Nat) → Parser Expr
  | 0, _ => failHere (.nestingTooDeep limit)
  | room + 1, minimum => do
    let left ← unary limit room
    operators (expression limit room) minimum (← get) left
termination_by room _ => (room, 0)

def unary (limit room : Nat) : Parser Expr := do
  match ← peekLexeme with
  | some (.mark .minus) => return .unary .negate (← operand limit room)
  | some (.mark .bang) => return .unary .not (← operand limit room)
  | _ => primary (expression limit room 0)
termination_by (room, 2)

/-- The operand behind a unary operator, which is the next token. -/
def operand (limit : Nat) : (room : Nat) → Parser Expr
  | 0 => do
    advance
    failHere (.nestingTooDeep limit)
  | room + 1 => do
    advance
    unary limit room
termination_by room => (room, 1)

end

/-! ### Statements -/

/-- What a statement stands in. -/
structure Surroundings where
  inBlock : Bool
  inLoop : Bool

def param : Parser Param := do
  let name ← expectName
  let type ← if ← accept (.mark .colon) then some <$> expectType else pure none
  return ⟨name, type⟩

/-- A number with at most one sign. -/
def traitValue : Parser Float := do
  let negative ← accept (.mark .minus)
  match ← peekLexeme with
  | some (.number text) =>
    let x ← numberValue text
    return if negative then -x else x
  | some found => failHere (.expectedTraitValue found)
  | none => failHere .unexpectedEnd

def traitEntry : Parser TraitEntry := do
  let place ← here
  let name ← expectName
  match Trait.ofName? name with
  | none => failAt place (.unknownTrait name)
  | some key =>
    expect (.mark .colon)
    return ⟨key, ← traitValue, place⟩

def personality (around : Surroundings) : Parser (List TraitEntry) := do
  if around.inBlock then failHere .misplacedPersonality
  advance
  expect (.mark .leftBrace)
  body .rightBrace .missingBrace traitEntry

/-- What follows `return`: a value if one begins on the same line. -/
def returned (expression : Parser Expr) (line : Nat) : Parser (Option Expr) := do
  match ← peek with
  | some t =>
    if t.lexeme.startsExpression && t.start.line = line then some <$> expression
    else return none
  | none => return none

/-- A function from its keyword on, given how to read its body. -/
def function (body : Parser (List Stmt)) (place : Coordinate) : Parser FunctionDecl := do
  advance
  let name ← expectName
  expect (.mark .leftParen)
  let params ← Parser.body .rightParen .missingParen param
  let returnType ← if ← accept (.mark .arrow) then some <$> expectType else pure none
  return ⟨place, name, params, returnType, ← body⟩

mutual

/-- Statements between braces. -/
def block (limit : Nat) (around : Surroundings) : (room : Nat) → Parser (List Stmt)
  | 0 => do
    expect (.mark .leftBrace)
    failHere (.nestingTooDeep limit)
  | room + 1 => do
    expect (.mark .leftBrace)
    let ss ← statements (statement limit ⟨true, around.inLoop⟩ room) true (← get) []
    expectClosing .rightBrace .missingBrace
    return ss
termination_by room => (room, 0)

/-- A conditional from its keyword on. -/
def conditional (limit : Nat) (around : Surroundings) (room : Nat) (place : Coordinate) :
    Parser Stmt := do
  advance
  let test ← expression limit room 0
  let yes ← block limit around room
  if ← accept (.keyword .elseKey) then
    let place' ← here
    if (← peekLexeme) = some (.keyword .ifKey) then
      match room with
      | 0 => failHere (.nestingTooDeep limit)
      | room + 1 => return .cond place test yes (some (← conditional limit around room place'))
    else return .cond place test yes (some (.block place' (← block limit around room)))
  else return .cond place test yes none
termination_by (room, 1)

/-- A statement and the semicolon behind it, if there is one. -/
def statement (limit : Nat) (around : Surroundings) (room : Nat) : Parser Stmt := do
  let place ← here
  let s ← match ← peekLexeme with
    | none => failHere .unexpectedEnd
    | some (.keyword .fnKey) => .function <$> function (block limit ⟨around.inBlock, false⟩ room) place
    | some (.keyword .letKey) => do
      advance
      let name ← expectName
      expect (.mark .equal)
      pure (.bind place name (← expression limit room 0))
    | some (.keyword .ifKey) => conditional limit around room place
    | some (.keyword .whileKey) => do
      advance
      let test ← expression limit room 0
      pure (.whileLoop place test (← block limit ⟨around.inBlock, true⟩ room))
    | some (.keyword .forKey) => do
      advance
      let name ← expectName
      expect (.keyword .inKey)
      let iterable ← expression limit room 0
      pure (.forEach place name iterable (← block limit ⟨around.inBlock, true⟩ room))
    | some (.keyword .returnKey) => do
      advance
      pure (.giveBack place (← returned (expression limit room 0) place.line))
    | some (.keyword .breakKey) =>
      if around.inLoop then do advance; pure (.leave place) else failHere .breakOutsideLoop
    | some (.keyword .continueKey) =>
      if around.inLoop then do advance; pure (.again place) else failHere .continueOutsideLoop
    | some (.keyword .personalityKey) => .personality place <$> personality around
    | some (.mark .leftBrace) => .block place <$> block limit around room
    | some _ => .expr place <$> expression limit room 0
  discard (accept (.mark .semicolon))
  return s
termination_by (room, 2)

end

/-- All tokens, as statements. -/
def program (limit : Nat) : Parser Program := do
  return ⟨← statements (statement limit ⟨false, false⟩ limit) false (← get) []⟩

end Parser

/-- The program that the tokens form, nested at most `limit` levels deep. -/
def parse (limit : Nat) (tokens : List Token) : Except SyntaxError Program :=
  (·.1) <$> (Parser.program limit).run tokens

end Persona
