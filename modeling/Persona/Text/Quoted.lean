/-! String literals: a text between double quotes.

Six characters are written as a backslash and a letter; every other character
stands for itself. Reading knows one escape more, the single quote, because a
literal may be written between single quotes too. -/
namespace Persona.Text

/-- How a character is written inside double quotes. -/
def escape (c : Char) : List Char :=
  if c = '"' then ['\\', '"']
  else if c = '\\' then ['\\', '\\']
  else if c = '\n' then ['\\', 'n']
  else if c = '\t' then ['\\', 't']
  else if c = '\r' then ['\\', 'r']
  else if c = '\x00' then ['\\', '0']
  else [c]

/-- The character that a backslash before `c` stands for. -/
def unescape? (c : Char) : Option Char :=
  if c = 'n' then some '\n'
  else if c = 't' then some '\t'
  else if c = 'r' then some '\r'
  else if c = '0' then some '\x00'
  else if c = '\\' ∨ c = '"' ∨ c = '\'' then some c
  else none

/-- The literal that denotes a text. -/
def quote (s : String) : String :=
  String.ofList ('"' :: s.toList.flatMap escape ++ ['"'])

/-- A written escape is read back as its character. -/
theorem unescape?_escape {c d : Char} (h : escape c = ['\\', d]) : unescape? d = some c := by
  unfold escape at h
  repeat' split at h
  all_goals simp at h
  all_goals subst_vars
  all_goals rfl

end Persona.Text
