import Persona.Bytecode.Validation
import Persona.Proofs.Bytecode.RoundTrip
import Persona.Proofs.Instruction.Stream

/-! What the structural checks establish.

A program is valid exactly if its code is a stream of instructions whose operands lead
to constants of the right kind and to starts of the same stream. -/
namespace Persona

/-- An index of a text. -/
def IsName (constants : List Constant) (idx : Nat) : Prop := ∃ s, constants[idx]? = some (.string s)

/-- An index of a number. -/
def IsNumber (constants : List Constant) (idx : Nat) : Prop :=
  ∃ bits, constants[idx]? = some (.number bits)

/-- The operands of an instruction lead to constants of the right kind, and its entry, if it
has one, to a start. -/
def Instruction.Fits (constants : List Constant) (start : Nat → Prop) : Instruction → Prop
  | pushConst idx => idx < constants.length
  | loadVar idx | storeVar idx | defineVar idx => IsName constants idx
  | makeFunction name params entry =>
    IsName constants name ∧ (∀ idx ∈ params, IsName constants idx) ∧ start entry
  | personality entries => ∀ e ∈ entries, IsNumber constants e.2
  | _ => True

/-- A jump from an offset leads to a start. -/
def Instruction.Lands (start : Nat → Prop) (offset : Nat) (i : Instruction) : Prop :=
  ∀ d, i.jumpDistance? = some d → ∃ t, start t ∧ ((offset + 3 : Nat) : Int) + d = t

/-- The offsets of instructions in a stream. -/
def Starts (is : List (Nat × Instruction)) (offset : Nat) : Prop := offset ∈ is.map (·.1)

namespace Bytecode

/-- A program with the stream that its code is. -/
structure Valid (p : Bytecode) (is : List (Nat × Instruction)) : Prop where
  decodes : Instruction.Decodes 0 p.code is
  entry : Starts is p.entry
  fits : ∀ x ∈ is, x.2.Fits p.constants (Starts is)
  lands : ∀ x ∈ is, x.2.Lands (Starts is) x.1

/-! ### Single checks -/

theorem checkName_iff {p : Bytecode} {offset idx : Nat} :
    p.checkName offset idx = .ok () ↔ IsName p.constants idx := by
  unfold checkName checkConstant IsName
  cases p.constants[idx]? with
  | none =>
    constructor
    · intro h
      cases h
    · rintro ⟨s, h⟩
      cases h
  | some c =>
    cases c with
    | number bits =>
      constructor
      · intro h
        cases h
      · rintro ⟨s, h⟩
        cases h
    | string s => exact ⟨fun _ => ⟨s, rfl⟩, fun _ => rfl⟩

theorem checkNumber_iff {p : Bytecode} {offset idx : Nat} :
    p.checkNumber offset idx = .ok () ↔ IsNumber p.constants idx := by
  unfold checkNumber checkConstant IsNumber
  cases p.constants[idx]? with
  | none =>
    constructor
    · intro h
      cases h
    · rintro ⟨s, h⟩
      cases h
  | some c =>
    cases c with
    | string s =>
      constructor
      · intro h
        cases h
      · rintro ⟨bits, h⟩
        cases h
    | number bits => exact ⟨fun _ => ⟨bits, rfl⟩, fun _ => rfl⟩

theorem checkConstant_iff {p : Bytecode} {offset idx : Nat} :
    discard (p.checkConstant offset idx) = .ok () ↔ idx < p.constants.length := by
  unfold checkConstant
  by_cases h : idx < p.constants.length
  · rw [List.getElem?_eq_getElem h]
    exact ⟨fun _ => h, fun _ => rfl⟩
  · rw [List.getElem?_eq_none (Nat.le_of_not_lt h)]
    constructor
    · intro hc
      cases hc
    · exact fun hc => absurd hc h

theorem bind_unit_iff {x y : Except ε Unit} :
    (do x; y) = .ok () ↔ x = .ok () ∧ y = .ok () := by
  cases x with
  | error e =>
    constructor
    · intro h
      cases h
    · rintro ⟨h, -⟩
      cases h
  | ok u => exact ⟨fun h => ⟨rfl, h⟩, And.right⟩

theorem forM_iff {f : α → Except ε Unit} {xs : List α} :
    xs.forM f = .ok () ↔ ∀ x ∈ xs, f x = .ok () := by
  induction xs with
  | nil => exact ⟨fun _ x hx => absurd hx (List.not_mem_nil), fun _ => rfl⟩
  | cons x xs ih =>
    show (do f x; xs.forM f) = _ ↔ _
    rw [bind_unit_iff, ih, List.forall_mem_cons]

theorem unless_iff {b : Bool} {e : ε} :
    (unless b do throw e : Except ε Unit) = .ok () ↔ b = true := by
  cases b with
  | true => exact ⟨fun _ => rfl, fun _ => rfl⟩
  | false =>
    constructor
    · intro h
      cases h
    · intro h
      cases h

theorem unless_bind_iff {b : Bool} {e : ε} {x : Except ε Unit} :
    (do
      unless b do throw e
      x) = .ok () ↔ b = true ∧ x = .ok () := by
  cases b with
  | true => exact ⟨fun h => ⟨rfl, h⟩, And.right⟩
  | false =>
    constructor
    · intro h
      cases h
    · rintro ⟨h, -⟩
      cases h

/-- The set of starts that the checks use. -/
def startSet (is : List (Nat × Instruction)) : Std.HashSet Nat := .ofList (is.map (·.1))

theorem contains_startSet {is : List (Nat × Instruction)} {offset : Nat} :
    (startSet is).contains offset = true ↔ Starts is offset := by
  rw [startSet, Std.HashSet.contains_ofList, List.contains_iff_mem]
  rfl

theorem checkOperands_iff {p : Bytecode} {is : List (Nat × Instruction)} {offset : Nat}
    {i : Instruction} :
    p.checkOperands (startSet is) offset i = .ok () ↔
      i.Fits p.constants (Starts is) := by
  cases i with
  | pushConst idx => exact checkConstant_iff
  | loadVar idx | storeVar idx | defineVar idx => exact checkName_iff
  | makeFunction name params entry =>
    show (do
      p.checkName offset name
      params.forM (p.checkName offset)
      unless (startSet is).contains entry do
        throw (Corruption.functionEntry offset entry)) = _ ↔ _
    rw [bind_unit_iff, bind_unit_iff, unless_iff, checkName_iff, forM_iff, contains_startSet]
    exact and_congr Iff.rfl (and_congr (forall₂_congr fun idx _ => checkName_iff) Iff.rfl)
  | personality entries =>
    show entries.forM _ = _ ↔ _
    rw [forM_iff]
    exact forall₂_congr fun e _ => checkNumber_iff
  | _ => exact ⟨fun _ => trivial, fun _ => rfl⟩

theorem checkJump_iff {is : List (Nat × Instruction)} {offset : Nat} {i : Instruction} :
    checkJump (startSet is) offset i = .ok () ↔ i.Lands (Starts is) offset := by
  unfold checkJump Instruction.Lands
  cases hd : i.jumpDistance? with
  | none =>
    refine ⟨fun _ d h => ?_, fun _ => rfl⟩
    cases h
  | some d =>
    simp only [Option.some.injEq, forall_eq']
    cases ht : ((offset + 3 : Nat) : Int) + d with
    | ofNat t =>
      have htarget : Instruction.jumpTarget? (offset + 3) d = some t := by
        rw [Instruction.jumpTarget?, ht]
      rw [htarget]
      simp only
      split
      · next hc =>
        refine ⟨fun _ => ⟨t, contains_startSet.1 hc, rfl⟩, fun _ => rfl⟩
      · next hc =>
        constructor
        · intro h
          cases h
        · rintro ⟨t', hs, heq⟩
          cases heq
          exact absurd (contains_startSet.2 hs) hc
    | negSucc t =>
      have htarget : Instruction.jumpTarget? (offset + 3) d = none := by
        rw [Instruction.jumpTarget?, ht]
      rw [htarget]
      constructor
      · intro h
        cases h
      · rintro ⟨t', -, heq⟩
        cases heq

/-- The checks accept exactly the valid programs. -/
theorem validate_iff {p : Bytecode} : p.validate = .ok () ↔ ∃ is, p.Valid is := by
  unfold validate
  cases hall : Instruction.decodeAll p.code with
  | mk is e =>
    cases e with
    | some e =>
      constructor
      · intro h
        cases h
      · rintro ⟨is', hv⟩
        rw [Instruction.decodeAll_eq_iff.2 hv.decodes] at hall
        cases hall
    | none =>
      have hdecodes := Instruction.decodeAll_eq_iff.1 hall
      show (do
        unless (startSet is).contains p.entry do throw (Corruption.entry p.entry)
        is.forM fun x => do
          p.checkOperands (startSet is) x.1 x.2
          checkJump (startSet is) x.1 x.2) = _ ↔ _
      rw [unless_bind_iff, contains_startSet, forM_iff]
      simp only [bind_unit_iff, checkOperands_iff, checkJump_iff]
      constructor
      · rintro ⟨hentry, hchecks⟩
        exact ⟨is, hdecodes, hentry, fun x hx => (hchecks x hx).1, fun x hx => (hchecks x hx).2⟩
      · rintro ⟨is', hv⟩
        have hsame := Instruction.decodeAll_eq_iff.2 hv.decodes
        rw [hall] at hsame
        cases hsame
        exact ⟨hv.entry, fun x hx => ⟨hv.fits x hx, hv.lands x hx⟩⟩

/-- A valid program is read back from its image. -/
theorem load_of_valid {p : Bytecode} {is : List (Nat × Instruction)} (hp : p.Addressable)
    (hv : p.Valid is) : load p.image = .ok p := by
  rw [load_image_eq hp, validate_iff.2 ⟨is, hv⟩]
  rfl

end Bytecode

end Persona
