import Persona.Text.Position

/-! Tokens.

A *lexeme* is what a stretch of source says: a keyword, a mark, a literal or a
name. A *token* is a lexeme with the places where it starts and ends. -/
namespace Persona

inductive Keyword where
  | fnKey | letKey | ifKey | elseKey | whileKey | forKey | inKey | returnKey | breakKey
  | continueKey | trueKey | falseKey | nullKey | personalityKey
deriving DecidableEq

namespace Keyword

def all : List Keyword :=
  [fnKey, letKey, ifKey, elseKey, whileKey, forKey, inKey, returnKey, breakKey, continueKey,
   trueKey, falseKey, nullKey, personalityKey]

def text : Keyword → String
  | fnKey => "fn"
  | letKey => "let"
  | ifKey => "if"
  | elseKey => "else"
  | whileKey => "while"
  | forKey => "for"
  | inKey => "in"
  | returnKey => "return"
  | breakKey => "break"
  | continueKey => "continue"
  | trueKey => "true"
  | falseKey => "false"
  | nullKey => "null"
  | personalityKey => "personality"

/-- The keyword spelled so, if there is one; every other word is a name. -/
def ofText? (s : String) : Option Keyword := all.find? (·.text == s)

theorem mem_all (k : Keyword) : k ∈ all := by cases k <;> decide

theorem ofText?_text (k : Keyword) : ofText? k.text = some k := by cases k <;> decide

end Keyword

/-- Operators and punctuation. -/
inductive Mark where
  | equalEqual | bangEqual | greaterEqual | lessEqual | starStar | ampAmp | pipePipe | arrow
  | greater | less | plus | minus | star | slash | percent | bang | colon | equal | comma
  | semicolon | leftParen | rightParen | leftBrace | rightBrace | leftBracket | rightBracket
deriving DecidableEq

def Mark.text : Mark → String
  | equalEqual => "=="
  | bangEqual => "!="
  | greaterEqual => ">="
  | lessEqual => "<="
  | starStar => "**"
  | ampAmp => "&&"
  | pipePipe => "||"
  | arrow => "->"
  | greater => ">"
  | less => "<"
  | plus => "+"
  | minus => "-"
  | star => "*"
  | slash => "/"
  | percent => "%"
  | bang => "!"
  | colon => ":"
  | equal => "="
  | comma => ","
  | semicolon => ";"
  | leftParen => "("
  | rightParen => ")"
  | leftBrace => "\x7b"
  | rightBrace => "\x7d"
  | leftBracket => "["
  | rightBracket => "]"

/-- What a token says. A number keeps its spelling, a string the text it denotes. -/
inductive Lexeme where
  | keyword (k : Keyword)
  | mark (m : Mark)
  | number (text : String)
  | string (text : String)
  | name (text : String)
deriving DecidableEq

namespace Lexeme

/-- The text of a literal or a name; empty for a fixed spelling. -/
def text : Lexeme → String
  | keyword _ | mark _ => ""
  | number s | string s | name s => s

/-- How a message names the kind of token. -/
def describe : Lexeme → String
  | keyword k => s!"'{k.text}'"
  | mark m => s!"'{m.text}'"
  | number _ => "number"
  | string _ => "string"
  | name _ => "identifier"

/-- How a message quotes the token itself. -/
def quoted : Lexeme → String
  | number s | name s => s!"'{s}'"
  | string s => s!"string \"{s}\""
  | other => other.describe

/-- Whether an expression can begin here. -/
def startsExpression : Lexeme → Bool
  | number _ | string _ | name _ => true
  | keyword .trueKey | keyword .falseKey | keyword .nullKey => true
  | mark .minus | mark .bang | mark .leftParen | mark .leftBracket | mark .leftBrace => true
  | _ => false

end Lexeme

/-- A lexeme and the half-open span it was read from. -/
structure Token where
  lexeme : Lexeme
  start : Position
  stop : Position
deriving DecidableEq

end Persona
