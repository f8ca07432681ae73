import Persona.Proofs.Syntax.Result
import Persona.Syntax.Walk

/-! What parsers complain of.

A parser that fails does so at a token that it was given, or at the end of the input, and it complains of a number only
if a token has the text of a number that cannot be read. The places of trait entries are those of tokens too. -/
namespace Persona

/-- The entries of a personality block; no other statement has any. -/
def Stmt.entries : Stmt → List TraitEntry
  | personality _ entries => entries
  | _ => []

namespace Parser

/-- All forms of statements keep the places of their entries. -/
theorem entries_forms {I : Token → Prop} :
    StmtForms I (fun _ _ => True) fun _ _ s => All (fun e => Starts I e.place) s.entries where
  expr _ := All.nil
  bind _ _ := All.nil
  function _ _ _ _ := All.nil
  cond _ _ := All.nil
  condElse _ _ _ := All.nil
  condChain _ _ _ := All.nil
  whileLoop _ _ := All.nil
  forEach _ _ _ := All.nil
  block _ := All.nil
  personality _ hes := fun e he => (hes e he).place
  giveBack _ := All.nil
  leave _ := All.nil
  again _ := All.nil

variable {limit : Nat} {ts : List Token}

/-- The entries of a program stand at tokens of its source. -/
theorem starts_of_mem_entries {p : Program} (h : parse limit ts = .ok p) {s : Stmt} (hs : s ∈ p.statements)
    {e : TraitEntry} (he : e ∈ s.entries) : Starts (· ∈ ts) e.place :=
  of_parse any_forms entries_forms (fun _ ht => ht) h s hs e he

/-- The tokens account for an error. -/
theorem blames_of_parse {e : SyntaxError} (h : parse limit ts = .error e) : Blames (· ∈ ts) e :=
  (outcome_of_parse any_forms entries_forms fun _ ht => ht).2 e h

end Parser

end Persona
