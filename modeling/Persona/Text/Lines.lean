/-! Lines of a text. -/
namespace Persona.Text

/-- The lines that a line feed ends, without it, and what is behind the last of them. -/
def endedLines (cs : List Char) : List (List Char) × List Char := go [] [] cs
where
  go (ended : List (List Char)) (line : List Char) : List Char → List (List Char) × List Char
    | [] => (ended.reverse, line.reverse)
    | c :: cs => if c = '\n' then go (line.reverse :: ended) [] cs else go ended (c :: line) cs

/-- Drops a carriage return at the end. -/
def dropReturn (line : List Char) : List Char :=
  if line.getLast? = some '\r' then line.dropLast else line

/-- The lines of a text, without their ends. A carriage return belongs to the end only before
a line feed. -/
def lines (s : String) : List String :=
  let (ended, rest) := endedLines s.toList
  (ended.map dropReturn ++ if rest.isEmpty then [] else [rest]).map String.ofList

/-- The lines of a text, without any line feeds and returns at their ends. -/
def bareLines (s : String) : List String :=
  let (ended, rest) := endedLines s.toList
  (ended ++ if rest.isEmpty then [] else [rest]).map fun line =>
    String.ofList (line.reverse.dropWhile (· == '\r')).reverse

def blanks (count : Nat) : String := String.ofList (List.replicate count ' ')

def padRight (width : Nat) (s : String) : String := s ++ blanks (width - s.length)

def padLeft (width : Nat) (s : String) : String := blanks (width - s.length) ++ s

end Persona.Text
