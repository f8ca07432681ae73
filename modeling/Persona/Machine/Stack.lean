import Persona.Value

/-! The operand stack of the machine. -/
namespace Persona

/-- Values, the top first, and how many there are. -/
structure Stack where
  values : List Value := []
  height : Nat := 0
  height_eq : height = values.length := by rfl

namespace Stack

def push (s : Stack) (v : Value) : Stack :=
  ⟨v :: s.values, s.height + 1, by simp [s.height_eq]⟩

def pop? (s : Stack) : Option (Value × Stack) :=
  match h : s.values with
  | [] => none
  | v :: rest => some (v, ⟨rest, s.height - 1, by simp [s.height_eq, h]⟩)

/-- Drops values from the top. -/
def drop (s : Stack) (count : Nat) : Stack :=
  ⟨s.values.drop count, s.height - count, by simp [s.height_eq]⟩

/-- Takes values from the top; the one pushed first comes first. -/
def popMany? (s : Stack) (count : Nat) : Option (List Value × Stack) :=
  if s.height < count then none else some ((s.values.take count).reverse, s.drop count)

/-- Drops all values above a height. -/
def truncate (s : Stack) (height : Nat) : Stack := s.drop (s.height - height)

@[simp] theorem values_push (s : Stack) (v : Value) : (s.push v).values = v :: s.values := rfl

@[simp] theorem pop?_push (s : Stack) (v : Value) : (s.push v).pop? = some (v, s) := rfl

end Stack

end Persona
