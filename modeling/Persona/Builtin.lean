/-! The functions that every program starts with. -/
namespace Persona

/-- How many arguments a function takes. -/
structure Arity where
  least : Nat
  greatest : Option Nat
deriving DecidableEq

namespace Arity

def exactly (count : Nat) : Arity := ⟨count, some count⟩

def accepts (a : Arity) (count : Nat) : Bool :=
  decide (a.least ≤ count) && a.greatest.all (count ≤ ·)

def text (a : Arity) : String :=
  match a.greatest with
  | none => s!"at least {a.least}"
  | some greatest => if a.least = greatest then toString greatest else s!"{a.least} to {greatest}"

@[simp] theorem accepts_exactly (n count : Nat) : (exactly n).accepts count = true ↔ count = n := by
  show (decide (n ≤ count) && decide (count ≤ n)) = true ↔ count = n
  simp
  omega

end Arity

inductive Builtin where
  | print | len | range | push | str | type | keys | trait | describe | knowledge | say | listen
deriving DecidableEq

namespace Builtin

def all : List Builtin :=
  [print, len, range, push, str, type, keys, trait, describe, knowledge, say, listen]

/-- The place in the list, by which bytecode refers to a built-in. -/
def index (b : Builtin) : Nat := b.ctorIdx

def ofIndex? (i : Nat) : Option Builtin := all[i]?

def name : Builtin → String
  | print => "print"
  | len => "len"
  | range => "range"
  | push => "push"
  | str => "str"
  | type => "type"
  | keys => "keys"
  | trait => "trait"
  | describe => "describe"
  | knowledge => "knowledge"
  | say => "say"
  | listen => "listen"

def ofName? (s : String) : Option Builtin := all.find? (·.name == s)

/-- Only `print` takes any number of arguments. -/
def arity : Builtin → Arity
  | print => ⟨0, none⟩
  | len | str | type | keys | trait | describe => ⟨1, some 1⟩
  | range | knowledge | say => ⟨1, some 2⟩
  | push => ⟨2, some 2⟩
  | listen => ⟨0, some 1⟩

theorem mem_all (b : Builtin) : b ∈ all := by cases b <;> decide

@[simp] theorem ofIndex?_index (b : Builtin) : ofIndex? b.index = some b := by cases b <;> rfl

theorem index_of_ofIndex? {i : Nat} {b : Builtin} (h : ofIndex? i = some b) : b.index = i := by
  obtain ⟨hi, rfl⟩ := List.getElem?_eq_some_iff.mp h
  have : ∀ j : Fin 12, (all[j]).index = j := by decide
  exact this ⟨i, hi⟩

theorem index_lt (b : Builtin) : b.index < 12 := by cases b <;> decide

@[simp] theorem ofName?_name (b : Builtin) : ofName? b.name = some b := by cases b <;> decide

end Builtin

end Persona
