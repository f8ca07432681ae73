import Persona.Bytecode
import Persona.Syntax.Walk

/-! The constants of a program.

A program *mentions* its numbers, its texts and its names, in the order of the
source; the pool holds each mentioned constant once, where it is mentioned
first. A name of a built-in is no constant as long as the program nowhere binds
it. -/
namespace Persona

/-- Constants without repetition, and the names that the program binds. -/
structure Pool where
  constants : List Constant := []
  bound : List String := []

namespace Pool

/-- The built-in that a name stands for throughout the program. -/
def builtin? (p : Pool) (name : String) : Option Builtin :=
  if p.bound.contains name then none else Builtin.ofName? name

/-- The index of a constant; behind the last one if it is not there. -/
def indexOf (p : Pool) (c : Constant) : Nat := p.constants.idxOf c

/-- Adds a constant if it is new. -/
def intern (p : Pool) (c : Constant) : Pool :=
  if c ∈ p.constants then p else { p with constants := p.constants ++ [c] }

def internAll (p : Pool) (cs : List Constant) : Pool := cs.foldl intern p

theorem indexOf_intern_lt (p : Pool) (c : Constant) :
    (p.intern c).indexOf c < (p.intern c).constants.length := by
  unfold intern
  split
  · next h => exact List.idxOf_lt_length_of_mem h
  · exact List.idxOf_lt_length_of_mem (by simp)

theorem nodup_intern {p : Pool} (h : p.constants.Nodup) (c : Constant) :
    (p.intern c).constants.Nodup := by
  unfold intern
  split
  · exact h
  · next hc =>
    simp only [List.nodup_append, h, true_and]
    refine ⟨by simp, ?_⟩
    intro a ha b hb
    simp only [List.mem_singleton] at hb
    subst hb
    exact fun e => hc (e ▸ ha)

end Pool

/-! ### Bound names -/

/-- The names that a statement binds, its assignments included. -/
def Stmt.bound (s : Stmt) : List String :=
  let params := match s with
    | .function d => d.params.map (·.name)
    | _ => []
  s.binds ++ params ++ s.exprs.flatMap Expr.assigned

/-- The names that are bound anywhere in a program. -/
def Program.bound (p : Program) : List String := (Stmt.deepList p.statements).flatMap Stmt.bound

/-! ### Mentions -/

namespace Expr

mutual

/-- The constants of an expression; `isFixed` tells the names that need none. -/
def mentions (isFixed : String → Bool) : Expr → List Constant
  | literal (.number x) => [.ofFloat x]
  | literal (.string s) => [.string s]
  | literal _ => []
  | identifier i => if isFixed i.name then [] else [.string i.name]
  | binary _ l r => mentions isFixed l ++ mentions isFixed r
  | unary _ e => mentions isFixed e
  | assign target value => mentions isFixed value ++ [.string target.name]
  | call _ callee arguments => mentions isFixed callee ++ listMentions isFixed arguments
  | array elements => listMentions isFixed elements
  | map entries => entryMentions isFixed entries
  | index object key => mentions isFixed object ++ mentions isFixed key
termination_by structural e => e

def listMentions (isFixed : String → Bool) : List Expr → List Constant
  | [] => []
  | e :: es => mentions isFixed e ++ listMentions isFixed es
termination_by structural es => es

def entryMentions (isFixed : String → Bool) : List (String × Expr) → List Constant
  | [] => []
  | (key, value) :: rest => .string key :: (mentions isFixed value ++ entryMentions isFixed rest)
termination_by structural es => es

end

end Expr

namespace Stmt

mutual

/-- The constants of a statement, function bodies included. -/
def mentions (isFixed : String → Bool) : Stmt → List Constant
  | expr _ e => e.mentions isFixed
  | bind _ name value => .string name :: value.mentions isFixed
  | function ⟨_, name, params, _, body⟩ =>
    .string name :: params.map (fun p => .string p.name) ++ listMentions isFixed body
  | cond _ test yes no =>
    test.mentions isFixed ++ listMentions isFixed yes ++ elseMentions isFixed no
  | whileLoop _ test body => test.mentions isFixed ++ listMentions isFixed body
  | forEach _ name iterable body =>
    iterable.mentions isFixed ++ .string name :: listMentions isFixed body
  | block _ body => listMentions isFixed body
  | personality _ entries => entries.map fun e => .ofFloat e.value
  | giveBack _ (some e) => e.mentions isFixed
  | giveBack _ none | leave _ | again _ => []
termination_by structural s => s

def listMentions (isFixed : String → Bool) : List Stmt → List Constant
  | [] => []
  | s :: rest => mentions isFixed s ++ listMentions isFixed rest
termination_by structural ss => ss

def elseMentions (isFixed : String → Bool) : Option Stmt → List Constant
  | none => []
  | some s => mentions isFixed s
termination_by structural no => no

end

end Stmt

/-- The pool of a program. -/
def Pool.ofProgram (p : Program) : Pool :=
  let empty : Pool := ⟨[], p.bound⟩
  empty.internAll (Stmt.listMentions (fun name => (empty.builtin? name).isSome) p.statements)

end Persona
