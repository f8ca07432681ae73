import Persona.Instruction.Chunk
import Persona.Proofs.Instruction.Stream

/-! Code that is written piece by piece.

A writer adds instructions at the end, in their short or their long form, and jumps whose
target is known or will be patched. What has been written is said by a *listing*: the
instructions with their offsets, and where the code ends. Every emission does to the code
what it does to the listing, so that the code is read back as the listing says. -/
namespace Persona

/-! ### Forms of instructions -/

namespace Instruction

/-- The opcode and its operands, also where there is a form of one byte. -/
def longForm : Instruction → List UInt8
  | pushConst idx => withVarint .pushConst idx
  | loadVar idx => withVarint .loadVar idx
  | defineVar idx => withVarint .defineVar idx
  | loadBuiltin b => [Opcode.loadBuiltin.byte, UInt8.ofNat b.index]
  | call argc false => [Opcode.call.byte, UInt8.ofNat argc]
  | i => i.encode

/-- What the bytes are read back as: a call of many arguments whose result is dropped is two
instructions. -/
def parts : Instruction → List Instruction
  | call argc true => if argc ≤ shortArgcMax then [call argc true] else [call argc false, pop]
  | i => [i]

/-- A jump of another distance. -/
def redirect (d : Int) : Instruction → Instruction
  | jump _ => jump d
  | jumpIfFalse _ => jumpIfFalse d
  | forNext _ => forNext d
  | i => i

theorem flatMap_encode_parts (i : Instruction) : i.parts.flatMap encode = i.encode := by
  unfold parts
  split
  · next argc =>
    split
    · simp
    · next h => simp [encode, callBytes, h, opcode]
  · simp

theorem redirect_jumpDistance? {i : Instruction} (h : i.jumpDistance?.isSome) (d : Int) :
    (i.redirect d).jumpDistance? = some d := by
  cases i with
  | jump | jumpIfFalse | forNext => rfl
  | _ => cases h

theorem decode_longForm {i : Instruction} (h : i.Encodable) (offset : Nat) (rest : List UInt8) :
    decode offset (i.longForm ++ rest) = .ok (i, i.longForm.length) := by
  cases i with
  | pushConst idx =>
    have hreads : Operands.Reads (operands offset .pushConst) (Varint.write idx) (pushConst idx) :=
      (Operands.reads_varint _ h).into pushConst
    exact decode_withVarint hreads rest
  | loadVar idx =>
    have hreads : Operands.Reads (operands offset .loadVar) (Varint.write idx) (loadVar idx) :=
      (Operands.reads_varint _ h).into loadVar
    exact decode_withVarint hreads rest
  | defineVar idx =>
    have hreads : Operands.Reads (operands offset .defineVar) (Varint.write idx) (defineVar idx) :=
      (Operands.reads_varint _ h).into defineVar
    exact decode_withVarint hreads rest
  | loadBuiltin b => cases b <;> rfl
  | call argc discard =>
    cases discard with
    | true => exact decode_encode h offset rest
    | false =>
      have hargc : argc < 256 := by
        have := h.1
        omega
      have hreads : Operands.Reads (operands offset .call) [UInt8.ofNat argc] (call argc false) :=
        (Operands.reads_byte _ hargc).into fun argc => call argc false
      exact decode_operands hreads rest
  | _ => exact decode_encode h offset rest

instance : DecidablePred Encodable
  | pushConst _ | loadVar _ | storeVar _ | defineVar _ | makeArray _ | makeMap _ => Nat.decLt ..
  | call .. => inferInstanceAs (Decidable (_ ∧ (_ → _)))
  | jump _ | jumpIfFalse _ | forNext _ => inferInstanceAs (Decidable (_ = true))
  | makeFunction .. => inferInstanceAs (Decidable (_ ∧ _ ∧ (∀ idx ∈ _, idx < _) ∧ _))
  | personality entries => inferInstanceAs (Decidable (_ ∧ ∀ e ∈ entries, e.2 < _))
  | halt | pushNull | pushTrue | pushFalse | pop | loadBuiltin _ | ret | binOp _ | unOp _ | index
  | iterInit | extend => .isTrue trivial

/-- The bytes are one of the forms of the instruction, and its operands fit into it. -/
def Stands (bytes : List UInt8) (i : Instruction) : Prop :=
  i.Encodable ∧ (bytes = i.encode ∨ bytes = i.longForm)

theorem Stands.decode {bytes : List UInt8} {i : Instruction} (h : Stands bytes i) (offset : Nat)
    (rest : List UInt8) : decode offset (bytes ++ rest) = .ok (i, bytes.length) := by
  obtain ⟨hfits, rfl | rfl⟩ := h
  · exact decode_encode hfits offset rest
  · exact decode_longForm hfits offset rest

theorem Stands.length_pos {bytes : List UInt8} {i : Instruction} (h : Stands bytes i) :
    0 < bytes.length := by
  have hdecode := h.decode 0 []
  rw [List.append_nil] at hdecode
  exact (decode_taken hdecode).1

/-- A jump is an opcode and two bytes for the distance, any distance that fits. -/
theorem Stands.jump {bytes : List UInt8} {i : Instruction} (h : Stands bytes i)
    (hjump : i.jumpDistance?.isSome) :
    ∃ op low high, bytes = [op, low, high] ∧
      ∀ d, fitsJump d = true → Stands (op :: jumpBytes d) (i.redirect d) := by
  obtain ⟨-, hbytes⟩ := h
  cases i with
  | jump | jumpIfFalse | forNext =>
    obtain rfl : bytes = _ := hbytes.elim id id
    exact ⟨_, _, _, rfl, fun d hd => ⟨hd, .inl rfl⟩⟩
  | _ => cases hjump

/-! ### Code as a listing has it -/

/-- The bytes from an offset on are instructions, each in one of its forms and at its
offset. -/
inductive Laid : Nat → List UInt8 → List (Nat × Instruction) → Prop
  | nil (offset : Nat) : Laid offset [] []
  | cons {offset : Nat} {bytes rest : List UInt8} {i : Instruction} {is : List (Nat × Instruction)} :
    Stands bytes i → Laid (offset + bytes.length) rest is → Laid offset (bytes ++ rest) ((offset, i) :: is)

theorem Laid.decodes {offset : Nat} {bytes : List UInt8} {is : List (Nat × Instruction)}
    (h : Laid offset bytes is) : Decodes offset bytes is := by
  induction h with
  | nil offset => exact .nil offset
  | cons hstands _ ih =>
    apply Decodes.cons (hstands.decode _ _)
    rw [List.drop_left]
    exact ih

theorem Laid.append {offset : Nat} {bytes more : List UInt8} {is js : List (Nat × Instruction)}
    (h : Laid offset bytes is) (h' : Laid (offset + bytes.length) more js) :
    Laid offset (bytes ++ more) (is ++ js) := by
  induction h with
  | nil offset => exact h'
  | cons hstands _ ih =>
    rw [List.append_assoc, List.cons_append]
    apply Laid.cons hstands (ih _)
    rw [List.length_append, ← Nat.add_assoc] at h'
    exact h'

theorem Laid.offset_le {offset o : Nat} {bytes : List UInt8} {is : List (Nat × Instruction)}
    {i : Instruction} (h : Laid offset bytes is) (hmem : (o, i) ∈ is) : offset ≤ o := by
  induction h with
  | nil => cases hmem
  | cons _ _ ih =>
    rcases List.mem_cons.1 hmem with heq | htail
    · cases heq
      exact Nat.le_refl _
    · exact Nat.le_trans (Nat.le_add_right ..) (ih htail)

/-- The jump at this offset has this distance, everything else is as it was. -/
def redirectAt (offset : Nat) (d : Int) (is : List (Nat × Instruction)) : List (Nat × Instruction) :=
  is.map fun (o, i) => (o, if o = offset then i.redirect d else i)

theorem Laid.redirectAt_eq {offset o : Nat} {bytes : List UInt8} {is : List (Nat × Instruction)}
    (h : Laid offset bytes is) (ho : o < offset) (d : Int) : redirectAt o d is = is := by
  unfold redirectAt
  conv_rhs => rw [← List.map_id is]
  apply List.map_congr_left
  intro e hmem
  have hle : offset ≤ e.1 := h.offset_le hmem
  simp [show e.1 ≠ o by omega]

/-- Only the two bytes of its distance change where a jump is redirected. -/
theorem Laid.redirect {offset o : Nat} {bytes : List UInt8} {is : List (Nat × Instruction)}
    {i : Instruction} (h : Laid offset bytes is) (hmem : (o, i) ∈ is)
    (hjump : i.jumpDistance?.isSome) {d : Int} (hd : fitsJump d = true) :
    ∃ front op low high back, bytes = front ++ op :: low :: high :: back ∧ offset + front.length = o ∧
      Laid offset (front ++ op :: jumpBytes d ++ back) (redirectAt o d is) := by
  induction h with
  | nil => cases hmem
  | cons hstands hrest ih =>
    next offset bytes rest i' is =>
    have hpos := hstands.length_pos
    by_cases ho : offset = o
    · subst ho
      have hhead : i' = i := by
        rcases List.mem_cons.1 hmem with heq | htail
        · cases heq
          rfl
        · have := hrest.offset_le htail
          omega
      subst hhead
      obtain ⟨op, low, high, rfl, hredirect⟩ := hstands.jump hjump
      have hsame := hrest.redirectAt_eq (show offset < offset + [op, low, high].length by simp) d
      simp only [redirectAt] at hsame
      simp only [redirectAt, List.map_cons, if_true, hsame]
      exact ⟨[], op, low, high, rest, rfl, rfl, Laid.cons (hredirect d hd) hrest⟩
    · have htail : (o, i) ∈ is := by
        rcases List.mem_cons.1 hmem with heq | htail
        · cases heq
          exact absurd rfl ho
        · exact htail
      obtain ⟨front, op, low, high, back, rfl, hfront, hlaid⟩ := ih htail
      have hcons := Laid.cons hstands hlaid
      simp only [redirectAt, List.map_cons, if_neg ho]
      refine ⟨bytes ++ front, op, low, high, back, by simp, ?_, by simpa [redirectAt] using hcons⟩
      rw [List.length_append]
      omega

end Instruction
open Instruction

/-! ### Emissions -/

inductive JumpKind where
  | always
  | ifFalse
  | nextItem

namespace JumpKind

def opcode : JumpKind → Opcode
  | always => .jump
  | ifFalse => .jumpIfFalse
  | nextItem => .forNext

def instr (d : Int) : JumpKind → Instruction
  | always => .jump d
  | ifFalse => .jumpIfFalse d
  | nextItem => .forNext d

theorem instr_jumpDistance? (k : JumpKind) (d : Int) : (k.instr d).jumpDistance? = some d := by
  cases k <;> rfl

theorem stands_instr (k : JumpKind) {d : Int} (h : fitsJump d = true) :
    Stands (k.opcode.byte :: jumpBytes d) (k.instr d) := by
  cases k <;> exact ⟨h, .inl rfl⟩

end JumpKind

/-- One use of a writer. -/
inductive Emission where
  /-- An instruction in its short form, if it has one. -/
  | write (i : Instruction)
  | writeLong (i : Instruction)
  /-- A jump with a placeholder. -/
  | jump (k : JumpKind)
  | jumpTo (k : JumpKind) (target : Nat)
  /-- Makes the jump with this placeholder lead to the end of the code. -/
  | patch (placeholder : Nat)

/-- The jump that an emission aims, by its offset, and where it has to lead in a code of this
size. -/
def Emission.aim? (size : Nat) : Emission → Option (Nat × Nat)
  | .jumpTo _ target => some (size, target)
  | .patch (o + 1) => some (o, size)
  | _ => none

namespace Chunk

/-- A jump that cannot be patched stays as it is. -/
def emit (c : Chunk) : Emission → Except JumpTooFar Unit × Chunk
  | .write i => (.ok (), c.write i)
  | .writeLong i => (.ok (), c.append i.longForm)
  | .jump k => (.ok (), (c.writeJump k.opcode).2)
  | .jumpTo k target => c.writeJumpTo k.opcode target
  | .patch placeholder =>
    match c.patch placeholder with
    | .ok patched => (.ok (), patched)
    | .error e => (.error e, c)

def emitAll (c : Chunk) (es : List Emission) : Chunk := es.foldl (fun c e => (c.emit e).2) c

theorem toList_append (c : Chunk) (bytes : List UInt8) :
    (c.append bytes).code.toList = c.code.toList ++ bytes := by
  simp [append]

theorem size_append (c : Chunk) (bytes : List UInt8) :
    (c.append bytes).size = c.size + bytes.length := by
  simp [append, size]

theorem append_append (c : Chunk) (bytes more : List UInt8) :
    (c.append bytes).append more = c.append (bytes ++ more) := by
  simp [append]

/-- How far a jump with this placeholder has to go to the end of the code. -/
def gap (c : Chunk) (placeholder : Nat) : Int := (c.size : Int) - (placeholder + 2 : Nat)

theorem emit_patch_of_fits {c : Chunk} {placeholder : Nat} (h : fitsJump (c.gap placeholder) = true) :
    ∃ patched, c.emit (.patch placeholder) = (.ok (), patched) ∧ patched.size = c.size ∧
      ∀ front op low high back, c.code.toList = front ++ op :: low :: high :: back →
        placeholder = front.length + 1 →
          patched.code.toList = front ++ op :: jumpBytes (c.gap placeholder) ++ back := by
  have hpatch : c.patch placeholder = .ok ⟨(jumpBytes (c.gap placeholder)).zipIdx.foldl
      (fun code x => code.setIfInBounds (placeholder + x.2) x.1) c.code⟩ := if_pos h
  refine ⟨_, by rw [emit, hpatch], ?_, ?_⟩
  · simp [size, jumpBytes]
  · rintro front op low high back hcode rfl
    have hpast : ¬front.length + 1 + 1 < front.length := by omega
    simp [jumpBytes, hcode, List.set_append, hpast, show front.length + 1 + 1 - front.length = 2 by omega]

theorem emit_patch_of_not_fits {c : Chunk} {placeholder : Nat}
    (h : fitsJump (c.gap placeholder) = false) :
    c.emit (.patch placeholder) = (.error ⟨c.gap placeholder⟩, c) := by
  have hpatch : c.patch placeholder = .error ⟨c.gap placeholder⟩ :=
    if_neg (Bool.eq_false_iff.1 h)
  rw [emit, hpatch]

/-- A patch fails if the jump would be too far, and only then; it says how far and changes
nothing. -/
theorem emit_patch_error {c : Chunk} {placeholder : Nat} {e : JumpTooFar} :
    (c.emit (.patch placeholder)).1 = .error e ↔
      e.distance = c.gap placeholder ∧ fitsJump e.distance = false ∧
        (c.emit (.patch placeholder)).2 = c := by
  constructor
  · intro h
    by_cases hfits : fitsJump (c.gap placeholder) = true
    · obtain ⟨patched, hemit, -⟩ := emit_patch_of_fits hfits
      rw [hemit] at h
      cases h
    · have hemit := emit_patch_of_not_fits (Bool.eq_false_iff.2 hfits)
      rw [hemit] at h ⊢
      cases h
      exact ⟨rfl, Bool.eq_false_iff.2 hfits, rfl⟩
  · obtain ⟨distance⟩ := e
    rintro ⟨rfl, hfits, -⟩
    rw [emit_patch_of_not_fits hfits]

end Chunk

/-! ### Listings -/

/-- The instructions that have been written, with their offsets, and where the code ends. -/
structure Listing where
  entries : List (Nat × Instruction) := []
  size : Nat := 0

namespace Listing

def add (l : Listing) (i : Instruction) (bytes : Nat) : Listing :=
  ⟨l.entries ++ [(l.size, i)], l.size + bytes⟩

/-- Instructions in their short forms. -/
def addAll (l : Listing) (is : List Instruction) : Listing := is.foldl (fun l j => l.add j j.size) l

def after (l : Listing) : Emission → Listing
  | .write i => l.addAll i.parts
  | .writeLong i => l.add i i.longForm.length
  | .jump k => l.add (k.instr (-1)) 3
  | .jumpTo k target => l.add (k.instr (target - (l.size + 3 : Nat))) 3
  | .patch placeholder =>
    let d : Int := (l.size : Int) - (placeholder + 2 : Nat)
    if fitsJump d then { l with entries := redirectAt (placeholder - 1) d l.entries } else l

def afterAll (l : Listing) (es : List Emission) : Listing := es.foldl after l

/-- Operands fit into their places, a jump to a known target succeeds, and what is patched is
a jump. -/
def Completes (l : Listing) : Emission → Prop
  | .write i => ∀ j ∈ i.parts, j.Encodable
  | .writeLong i => i.Encodable
  | .jump _ => True
  | .jumpTo _ target => fitsJump (target - (l.size + 3 : Nat)) = true
  | .patch placeholder =>
    ∃ entry ∈ l.entries, placeholder = entry.1 + 1 ∧ entry.2.jumpDistance?.isSome = true

instance (l : Listing) : DecidablePred l.Completes
  | .write i => inferInstanceAs (Decidable (∀ j ∈ i.parts, j.Encodable))
  | .writeLong i => inferInstanceAs (Decidable i.Encodable)
  | .jump _ => .isTrue trivial
  | .jumpTo .. => inferInstanceAs (Decidable (_ = true))
  | .patch _ => inferInstanceAs (Decidable (∃ entry ∈ l.entries, _))

/-- Every emission is complete where it comes. -/
def Complete (l : Listing) : List Emission → Prop
  | [] => True
  | e :: es => l.Completes e ∧ (l.after e).Complete es

instance decidableComplete : (l : Listing) → (es : List Emission) → Decidable (l.Complete es)
  | _, [] => .isTrue trivial
  | l, e :: es =>
    have := decidableComplete (l.after e) es
    inferInstanceAs (Decidable (l.Completes e ∧ (l.after e).Complete es))

theorem Complete.append {l : Listing} {es es' : List Emission} (h : l.Complete (es ++ es')) :
    l.Complete es ∧ (l.afterAll es).Complete es' := by
  induction es generalizing l with
  | nil => exact ⟨trivial, h⟩
  | cons e es ih => exact ⟨⟨h.1, (ih h.2).1⟩, (ih h.2).2⟩

theorem mem_addAll {l : Listing} {o : Nat} {i : Instruction} (h : (o, i) ∈ l.entries)
    (is : List Instruction) : (o, i) ∈ (l.addAll is).entries := by
  induction is generalizing l with
  | nil => exact h
  | cons j is ih => exact ih (List.mem_append_left _ h)

/-- The code is what the listing says. -/
def Shows (l : Listing) (c : Chunk) : Prop := Laid 0 c.code.toList l.entries ∧ c.size = l.size

theorem Shows.add {l : Listing} {c : Chunk} (h : l.Shows c) {i : Instruction} {bytes : List UInt8}
    (hstands : Stands bytes i) : (l.add i bytes.length).Shows (c.append bytes) := by
  have hsize : c.code.toList.length = l.size := by simpa [Chunk.size] using h.2
  have hone : Laid l.size bytes [(l.size, i)] := by
    have := Laid.cons hstands (Laid.nil (l.size + bytes.length))
    rwa [List.append_nil] at this
  constructor
  · rw [Chunk.toList_append]
    apply h.1.append
    rw [Nat.zero_add, hsize]
    exact hone
  · rw [Chunk.size_append, h.2]
    rfl

theorem Shows.addAll {l : Listing} {c : Chunk} (h : l.Shows c) (is : List Instruction)
    (hfits : ∀ j ∈ is, j.Encodable) : (l.addAll is).Shows (c.append (is.flatMap encode)) := by
  induction is generalizing l c with
  | nil => simpa [Listing.addAll, Chunk.append] using h
  | cons j is ih =>
    rw [List.flatMap_cons, ← Chunk.append_append]
    have hj : Stands j.encode j := ⟨hfits j (List.mem_cons_self ..), .inl rfl⟩
    exact ih (h.add hj) fun k hk => hfits k (List.mem_cons_of_mem _ hk)

/-- Every complete emission does to the code what it does to the listing. -/
theorem Shows.emit {l : Listing} {c : Chunk} (h : l.Shows c) {e : Emission} (he : l.Completes e) :
    (l.after e).Shows (c.emit e).2 := by
  cases e with
  | write i =>
    have := h.addAll i.parts he
    rwa [flatMap_encode_parts] at this
  | writeLong i => exact h.add ⟨he, .inr rfl⟩
  | jump k => exact h.add (k.stands_instr (d := -1) rfl)
  | jumpTo k target =>
    have hd : (target : Int) - ((c.append [k.opcode.byte]).size + 2 : Nat) =
        target - (l.size + 3 : Nat) := by
      rw [Chunk.size_append, h.2]
      rfl
    have hemit : (c.emit (.jumpTo k target)).2 =
        c.append (k.opcode.byte :: jumpBytes (target - (l.size + 3 : Nat))) := by
      show (c.writeJumpTo k.opcode target).2 = _
      simp only [Chunk.writeJumpTo, hd, if_pos (show fitsJump _ = true from he), Chunk.append_append]
      rfl
    rw [hemit]
    exact h.add (k.stands_instr he)
  | patch placeholder =>
    obtain ⟨⟨o, i⟩, hmem, rfl, hjump⟩ := he
    have hgap : c.gap (o + 1) = (l.size : Int) - (o + 1 + 2 : Nat) := by rw [Chunk.gap, h.2]
    by_cases hfits : fitsJump (c.gap (o + 1)) = true
    · obtain ⟨patched, hemit, hsize, hcode⟩ := Chunk.emit_patch_of_fits hfits
      obtain ⟨front, op, low, high, back, hold, hfront, hlaid⟩ := h.1.redirect hmem hjump hfits
      have hafter : l.after (.patch (o + 1)) =
          { l with entries := redirectAt o (c.gap (o + 1)) l.entries } := by
        rw [hgap] at hfits ⊢
        exact if_pos hfits
      rw [hemit, hafter]
      constructor
      · rw [hcode front op low high back hold (by omega)]
        exact hlaid
      · rw [hsize, h.2]
    · have hafter : l.after (.patch (o + 1)) = l := by
        rw [hgap] at hfits
        exact if_neg hfits
      rw [Chunk.emit_patch_of_not_fits (Bool.eq_false_iff.2 hfits), hafter]
      exact h

theorem Shows.emitAll {l : Listing} {c : Chunk} (h : l.Shows c) {es : List Emission}
    (hes : l.Complete es) : (l.afterAll es).Shows (c.emitAll es) := by
  induction es generalizing l c with
  | nil => exact h
  | cons e es ih => exact ih (h.emit hes.1) hes.2

theorem shows_empty : Shows {} {} := ⟨.nil 0, rfl⟩

/-! ### Where jumps lead -/

/-- The jump at this offset leads to this target. -/
def Leads (l : Listing) (o target : Nat) : Prop :=
  ∃ i d, (o, i) ∈ l.entries ∧ i.jumpDistance? = some d ∧ jumpTarget? (o + 3) d = some target

theorem jumpTarget?_sub (next target : Nat) : jumpTarget? next ((target : Int) - (next : Nat)) = some target := by
  have hsum : (next : Int) + (target - (next : Nat)) = target := by omega
  rw [jumpTarget?, hsum]

/-- A jump leads where the emission that aims it says. -/
theorem leads_of_aim {l : Listing} {c : Chunk} (h : l.Shows c) {e : Emission} {o target : Nat}
    (he : l.Completes e) (haim : e.aim? c.size = some (o, target))
    (hok : (c.emit e).1 = .ok ()) : (l.after e).Leads o target := by
  cases e with
  | jumpTo k target' =>
    cases haim
    refine ⟨_, _, ?_, k.instr_jumpDistance? _, jumpTarget?_sub ..⟩
    rw [h.2]
    exact List.mem_append_right _ (List.mem_singleton_self _)
  | patch placeholder =>
    obtain ⟨⟨o', i⟩, hmem, rfl, hjump⟩ := he
    obtain ⟨rfl, rfl⟩ : o' = o ∧ c.size = target := by simpa [Emission.aim?] using haim
    have hfits : fitsJump (c.gap (o' + 1)) = true := by
      by_contra hnot
      rw [Chunk.emit_patch_of_not_fits (Bool.eq_false_iff.2 hnot)] at hok
      cases hok
    have hafter : (l.after (.patch (o' + 1))).entries = redirectAt o' (c.gap (o' + 1)) l.entries := by
      rw [Chunk.gap, h.2] at hfits ⊢
      rw [after, if_pos hfits]
      rfl
    refine ⟨i.redirect (c.gap (o' + 1)), _, ?_, redirect_jumpDistance? hjump _, jumpTarget?_sub ..⟩
    rw [hafter]
    exact List.mem_map.2 ⟨(o', i), hmem, by simp⟩
  | write | writeLong | jump => cases haim

/-- Only patching the jump itself makes it lead elsewhere. -/
theorem Leads.after {l : Listing} {o target : Nat} (h : l.Leads o target) {e : Emission}
    (he : l.Completes e) (hother : e ≠ .patch (o + 1)) : (l.after e).Leads o target := by
  obtain ⟨i, d, hmem, hd, htarget⟩ := h
  refine ⟨i, d, ?_, hd, htarget⟩
  cases e with
  | write i' => exact mem_addAll hmem i'.parts
  | writeLong | jump | jumpTo => exact List.mem_append_left _ hmem
  | patch placeholder =>
    obtain ⟨⟨o', i'⟩, -, rfl, -⟩ := he
    rw [Listing.after]
    split
    · have hne : o ≠ o' := by
        rintro rfl
        exact hother rfl
      exact List.mem_map.2 ⟨(o, i), hmem, by simp [hne]⟩
    · exact hmem

theorem Leads.afterAll {l : Listing} {o target : Nat} (h : l.Leads o target) {es : List Emission}
    (hes : l.Complete es) (hother : .patch (o + 1) ∉ es) : (l.afterAll es).Leads o target := by
  induction es generalizing l with
  | nil => exact h
  | cons e es ih =>
    rw [List.mem_cons, not_or] at hother
    exact ih (h.after hes.1 (Ne.symm hother.1)) hes.2 hother.2

end Listing

/-- What has been written is read back instruction by instruction. A jump that has been aimed
leads to its target whatever is written or patched behind it, unless it is aimed again. A
jump that is too far from the end of the code is not patched. -/
theorem decodeAll_emitAll {es : List Emission} (h : Listing.Complete {} es) :
    decodeAll (Chunk.emitAll {} es).code.toList = ((Listing.afterAll {} es).entries, none) ∧
      (∀ before e after o target, es = before ++ e :: after →
        e.aim? (Chunk.emitAll {} before).size = some (o, target) →
        ((Chunk.emitAll {} before).emit e).1 = .ok () → .patch (o + 1) ∉ after →
          ∃ i d, decodeAt (Chunk.emitAll {} es).code.toList o = .ok (i, o + 3) ∧
            i.jumpDistance? = some d ∧ jumpTarget? (o + 3) d = some target) ∧
      ∀ (c : Chunk) (placeholder : Nat) (e : JumpTooFar),
        (c.emit (.patch placeholder)).1 = .error e ↔
          e.distance = (c.size : Int) - (placeholder + 2 : Nat) ∧
            fitsJump e.distance = false ∧ (c.emit (.patch placeholder)).2 = c := by
  have hshows := Listing.shows_empty.emitAll h
  refine ⟨decodeAll_eq_iff.2 hshows.1.decodes, ?_, fun _ _ _ => Chunk.emit_patch_error⟩
  · rintro before e after o target rfl haim hok hother
    obtain ⟨hbefore, he, hafter⟩ := h.append
    have hleads := Listing.leads_of_aim (Listing.shows_empty.emitAll hbefore) he haim hok
    obtain ⟨i, d, hmem, hd, htarget⟩ := hleads.afterAll hafter hother
    have hentry : (o, i) ∈ (Listing.afterAll {} (before ++ e :: after)).entries := by
      simpa [Listing.afterAll] using hmem
    have hdecodes : Decodes 0 ((Chunk.emitAll {} (before ++ e :: after)).code.toList.drop 0) _ := hshows.1.decodes
    obtain ⟨-, next, hnext, -⟩ := hdecodes.decodeAt hentry
    obtain ⟨n, hdecode, rfl⟩ := decodeAt_ok.1 hnext
    obtain rfl := decode_jump hdecode hd
    exact ⟨i, d, hnext, hd, htarget⟩

/-- A jump forward over instructions of all forms, and a jump back to the front. -/
def forwardAndBack : List Emission :=
  [.jump .ifFalse, .write (.pushConst 3), .write (.pushConst 64), .writeLong (.loadVar 5),
    .write (.call 9 true), .patch 1, .jumpTo .always 0, .write .halt]

theorem forwardAndBack_reads_back :
    Listing.Complete {} forwardAndBack ∧
      decodeAll (Chunk.emitAll {} forwardAndBack).code.toList =
        ([(0, .jumpIfFalse 8), (3, .pushConst 3), (4, .pushConst 64), (6, .loadVar 5), (8, .call 9 false),
          (10, .pop), (11, .jump (-14)), (14, .halt)], none) ∧
      ∃ i d, decodeAt (Chunk.emitAll {} forwardAndBack).code.toList 0 = .ok (i, 3) ∧
        i.jumpDistance? = some d ∧ jumpTarget? 3 d = some 11 := by
  have hcomplete : Listing.Complete {} forwardAndBack := by decide +kernel
  obtain ⟨hreads, hleads, -⟩ := decodeAll_emitAll hcomplete
  refine ⟨hcomplete, hreads.trans (by decide +kernel), ?_⟩
  exact hleads (forwardAndBack.take 5) (.patch 1) (forwardAndBack.drop 6) 0 11 rfl (by decide +kernel) (by decide +kernel)
    (by simp [forwardAndBack])

end Persona
