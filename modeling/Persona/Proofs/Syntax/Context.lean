import Persona.Proofs.Syntax.Result
import Persona.Syntax.Walk

/-! Where statements may stand.

`break` and `continue` stand in a loop of the same function, and personality blocks at the top level. The parser
sees to both, however loops, functions, blocks and conditionals are nested, and so does every statement of a parsed
program. -/
namespace Persona

namespace Stmt

mutual

/-- A statement may stand here: in a block or not, in a loop or not. A function's body is a block of its own, with
no loop around it. -/
def Allowed (inBlock inLoop : Bool) : Stmt → Prop
  | .leave _ | .again _ => inLoop = true
  | .personality .. => inBlock = false
  | .cond _ _ yes no => AllowedList true inLoop yes ∧ AllowedElse inLoop no
  | .whileLoop _ _ body | .forEach _ _ _ body => AllowedList true true body
  | .block _ body => AllowedList true inLoop body
  | .function ⟨_, _, _, _, body⟩ => AllowedList true false body
  | .expr .. | .bind .. | .giveBack .. => True
termination_by structural s => s

def AllowedList (inBlock inLoop : Bool) : List Stmt → Prop
  | [] => True
  | s :: rest => Allowed inBlock inLoop s ∧ AllowedList inBlock inLoop rest
termination_by structural ss => ss

def AllowedElse (inLoop : Bool) : Option Stmt → Prop
  | none => True
  | some s => Allowed true inLoop s
termination_by structural no => no

end

theorem allowedList_iff {inBlock inLoop : Bool} {ss : List Stmt} :
    AllowedList inBlock inLoop ss ↔ ∀ s ∈ ss, s.Allowed inBlock inLoop := by
  induction ss with
  | nil => simp [AllowedList]
  | cons s rest ih => simp [AllowedList, ih]

mutual

/-- The bodies of the functions inside are allowed too. -/
theorem allowed_deep {inBlock inLoop : Bool} : ∀ s : Stmt, s.Allowed inBlock inLoop → ∀ d, .function d ∈ s.deep →
    AllowedList true false d.body
  | .function ⟨_, _, _, _, body⟩, h, d, hd => by
    rw [Allowed] at h
    rw [deep, List.mem_cons] at hd
    rcases hd with heq | hd
    · cases heq
      exact h
    · exact allowed_deepList body h d hd
  | .cond _ _ yes no, h, d, hd => by
    rw [Allowed] at h
    simp only [deep, List.mem_cons, List.mem_append, reduceCtorEq, false_or] at hd
    rcases hd with hd | hd
    · exact allowed_deepList yes h.1 d hd
    · exact allowed_deepElse no h.2 d hd
  | .whileLoop _ _ body, h, d, hd | .forEach _ _ _ body, h, d, hd | .block _ body, h, d, hd => by
    rw [Allowed] at h
    simp only [deep, List.mem_cons, reduceCtorEq, false_or] at hd
    exact allowed_deepList body h d hd
  | .expr .., _, d, hd | .bind .., _, d, hd | .personality .., _, d, hd | .giveBack .., _, d, hd | .leave _, _, d, hd
  | .again _, _, d, hd => by simp [deep] at hd
termination_by structural s => s

theorem allowed_deepList {inBlock inLoop : Bool} : ∀ ss : List Stmt, AllowedList inBlock inLoop ss →
    ∀ d, .function d ∈ deepList ss → AllowedList true false d.body
  | [], _, d, hd => by simp [deepList] at hd
  | s :: rest, h, d, hd => by
    rw [AllowedList] at h
    rcases List.mem_append.1 hd with hd | hd
    · exact allowed_deep s h.1 d hd
    · exact allowed_deepList rest h.2 d hd
termination_by structural ss => ss

theorem allowed_deepElse {inLoop : Bool} : ∀ no : Option Stmt, AllowedElse inLoop no →
    ∀ d, .function d ∈ deepElse no → AllowedList true false d.body
  | none, _, d, hd => by simp [deepElse] at hd
  | some s, h, d, hd => allowed_deep s h d hd
termination_by structural no => no

end

end Stmt

namespace Parser

/-- The parser lets a statement stand where it is allowed. -/
theorem allowed_forms : StmtForms (fun _ => True) (fun _ _ => True)
    fun around _ s => s.Allowed around.inBlock around.inLoop := by
  have hbody : ∀ {around room ss}, Body (fun around _ s => s.Allowed around.inBlock around.inLoop) around room ss →
      Stmt.AllowedList true around.inLoop ss := by
    rintro around _ ss ⟨_, rfl, hss⟩
    exact Stmt.allowedList_iff.2 hss
  exact {
    expr := fun _ => trivial
    bind := fun _ _ => trivial
    function := fun _ _ _ h => hbody h
    cond := fun _ hyes => ⟨hbody hyes, trivial⟩
    condElse := fun _ hyes hno => ⟨hbody hyes, hbody hno⟩
    condChain := fun _ hyes ⟨_, _, hno⟩ => ⟨hbody hyes, hno⟩
    whileLoop := fun _ h => hbody h
    forEach := fun _ _ h => hbody h
    block := fun h => hbody h
    personality := fun h _ => h
    giveBack := fun _ => trivial
    leave := fun h => h
    again := fun h => h }

/-- No statement of a parsed program stands where it may not. -/
theorem allowed_of_parse {limit : Nat} {ts : List Token} {p : Program} (h : parse limit ts = .ok p) :
    Stmt.AllowedList false false p.statements :=
  Stmt.allowedList_iff.2 (of_parse any_forms allowed_forms (fun _ _ => trivial) h)

end Parser

end Persona
