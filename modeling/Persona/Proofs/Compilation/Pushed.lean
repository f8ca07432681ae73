import Persona.Proofs.Compilation.Emitted

/-! What compiled code pushes from the pool.

The pool holds names next to numbers and texts, and one text may be all of these. But code
pushes only what its source makes a value of: the numbers, and the texts that are written out as
literals or as keys of maps. A name is looked up by its index and never pushed for itself. -/
namespace Persona.Compilation

/-- If the piece pushes a constant of the pool, it is a number or one of the texts. -/
def Piece.PushesOnly (pool : Pool) (texts : List String) : Piece → Prop
  | .instr (.pushConst idx) => ∃ c, idx = pool.indexOf c ∧ ∀ s, c = .string s → s ∈ texts
  | _ => True

/-- So do all pieces of a code. -/
def PushesOnly (pool : Pool) (texts : List String) (code : Code) : Prop := ∀ q ∈ code, q.PushesOnly pool texts

/-- A text that is pushed is one of those that may be. -/
theorem PushesOnly.text {pool : Pool} {texts : List String} {code : Code} (h : PushesOnly pool texts code)
    {idx : Nat} (hidx : .instr (.pushConst idx) ∈ code) {s : String}
    (hs : pool.constants[idx]? = some (.string s)) : s ∈ texts := by
  obtain ⟨c, rfl, hc⟩ := h _ hidx
  exact hc s (eq_of_getElem?_indexOf hs).symm

end Persona.Compilation
