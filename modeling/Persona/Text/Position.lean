/-! Places in a source text.

A *position* is what the lexer counts: a line, a column and a byte offset. A
*coordinate* is what a syntax tree and a message keep of it: line and column. -/
namespace Persona

/-- Lines and columns count from one, in characters; the offset counts UTF-8 bytes from zero. -/
structure Position where
  line : Nat
  column : Nat
  offset : Nat
deriving DecidableEq

structure Coordinate where
  line : Nat
  column : Nat
deriving DecidableEq

namespace Position

/-- Before the first character. -/
def start : Position := ⟨1, 1, 0⟩

/-- The place after a character: a line feed opens the next line. -/
def advance (p : Position) (c : Char) : Position :=
  if c = '\n' then ⟨p.line + 1, 1, p.offset + c.utf8Size⟩
  else ⟨p.line, p.column + 1, p.offset + c.utf8Size⟩

def advanceAll (p : Position) (cs : List Char) : Position := cs.foldl advance p

@[simp] theorem advanceAll_nil (p : Position) : p.advanceAll [] = p := rfl

@[simp] theorem advanceAll_cons (p : Position) (c : Char) (cs : List Char) :
    p.advanceAll (c :: cs) = (p.advance c).advanceAll cs := rfl

theorem advanceAll_append (p : Position) (a b : List Char) :
    p.advanceAll (a ++ b) = (p.advanceAll a).advanceAll b := List.foldl_append

def coordinate (p : Position) : Coordinate := ⟨p.line, p.column⟩

end Position

namespace Coordinate

/-- The first character of a text. -/
def start : Coordinate := ⟨1, 1⟩

/-- `line:column`. -/
def text (c : Coordinate) : String := s!"{c.line}:{c.column}"

end Coordinate

end Persona
