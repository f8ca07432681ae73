import Mathlib.Tactic.IntervalCases
import Persona.Instruction.Decode
import Persona.Proofs.Encoding.Varint

/-! Reading back instructions.

`decode` finds what `encode` wrote as long as every operand fits into its place,
whatever bytes follow. -/
namespace Persona.Instruction

/-- Every operand fits into the place that its instruction has for it. -/
def Encodable : Instruction → Prop
  | pushConst idx | loadVar idx | storeVar idx | defineVar idx => idx < 2 ^ 64
  | makeArray count | makeMap count => count < 2 ^ 64
  | call argc discard => argc ≤ 255 ∧ (discard = true → argc ≤ shortArgcMax)
  | jump d | jumpIfFalse d | forNext d => fitsJump d = true
  | makeFunction name params entry =>
    name < 2 ^ 64 ∧ params.length ≤ 255 ∧ (∀ idx ∈ params, idx < 2 ^ 64) ∧ entry < 2 ^ 64
  | personality entries => entries.length ≤ 255 ∧ ∀ e ∈ entries, e.2 < 2 ^ 64
  | _ => True

theorem size_pos (i : Instruction) : 0 < i.size := by
  unfold size encode
  cases i <;> simp [withVarint, indexed, callBytes] <;> split <;> simp

/-! ### Operands -/

/-- The operand stands at the front of its bytes, whatever follows them. -/
def Operands.Reads (operand : Operands α) (bytes : List UInt8) (x : α) : Prop :=
  ∀ rest taken, operand.run ⟨bytes ++ rest, taken⟩ = .ok (x, ⟨rest, taken + bytes.length⟩)

namespace Operands

theorem reads_pure (x : α) : Reads (pure x) [] x := by
  intro rest taken
  rfl

theorem Reads.bind {operand : Operands α} {next : α → Operands β} {bs cs : List UInt8} {x : α} {y : β}
    (h : Reads operand bs x) (h' : Reads (next x) cs y) : Reads (operand >>= next) (bs ++ cs) y := by
  intro rest taken
  rw [StateT.run_bind, List.append_assoc, h]
  show (next x).run _ = _
  rw [h', List.length_append, Nat.add_assoc]

/-- An operand that only goes into something else. -/
theorem Reads.into {operand : Operands α} {bs : List UInt8} {x : α} (h : Reads operand bs x)
    (f : α → β) : Reads (operand >>= fun x => pure (f x)) bs (f x) := by
  intro rest taken
  rw [StateT.run_bind, h]
  rfl

theorem reads_byte (short : DecodeError) {n : Nat} (h : n < 256) :
    Reads (byte short) [UInt8.ofNat n] n := by
  intro rest taken
  have hb : (UInt8.ofNat n).toNat = n := by
    rw [UInt8.toNat_ofNat']
    omega
  show Except.ok ((UInt8.ofNat n).toNat, _) = _
  rw [hb]
  rfl

theorem reads_group (short : DecodeError) {g : List UInt8} (h : Varint.Readable g) :
    Reads (varint short) g (Varint.groupValue g) := by
  intro rest taken
  simp only [varint, StateT.run_bind, StateT.run_get, Varint.read_group h, pure_bind, StateT.run_set,
    StateT.run_pure, List.drop_left]
  rfl

theorem reads_varint (short : DecodeError) {n : Nat} (h : n < 2 ^ 64) :
    Reads (varint short) (Varint.write n) n := by
  have hreads := reads_group short (Varint.readable_write h)
  rwa [Varint.groupValue_write] at hreads

theorem reads_distance (short : DecodeError) {d : Int} (h : fitsJump d = true) :
    Reads (distance short) (jumpBytes d) d := by
  have hd : -32768 ≤ d ∧ d < 32768 := by simpa [fitsJump] using h
  have hlow : (d % 65536).toNat % 256 < 256 := by omega
  have hhigh : (d % 65536).toNat / 256 < 256 := by omega
  have hvalue : (if (d % 65536).toNat % 256 + 256 * ((d % 65536).toNat / 256) < 32768 then
      (((d % 65536).toNat % 256 + 256 * ((d % 65536).toNat / 256) : Nat) : Int)
      else (((d % 65536).toNat % 256 + 256 * ((d % 65536).toNat / 256) : Nat) : Int) - 65536) = d := by
    split <;> omega
  have hreads : Reads (distance short) _ _ :=
    (reads_byte short hlow).bind ((reads_byte short hhigh).bind (reads_pure _))
  rw [hvalue] at hreads
  exact hreads

theorem reads_times {operand : Operands α} {bytes : α → List UInt8} (xs : List α)
    (h : ∀ x ∈ xs, Reads operand (bytes x) x) :
    Reads (times operand xs.length) (xs.flatMap bytes) xs := by
  induction xs with
  | nil => exact reads_pure []
  | cons x xs ih =>
    have hx := h x (List.mem_cons_self ..)
    have hxs := ih fun y hy => h y (List.mem_cons_of_mem _ hy)
    exact hx.bind (hxs.into (x :: ·))

end Operands
open Operands

/-! ### Instructions -/

/-- The long form of an instruction: its opcode and its operands. -/
theorem decode_operands {offset : Nat} {op : Opcode} {bytes : List UInt8} {i : Instruction}
    (h : Reads (operands offset op) bytes i) (rest : List UInt8) :
    decode offset (op.byte :: bytes ++ rest) = .ok (i, (op.byte :: bytes).length) := by
  have hop : ¬shortBuiltin ≤ op.byte.toNat := by cases op <;> decide
  rw [List.cons_append, decode, if_neg hop, Opcode.ofByte?_byte]
  simp only [h rest 1, Except.map, List.length_cons]
  rw [Nat.add_comm]

theorem decode_short {offset b : Nat} {i : Instruction} (hb : b < 256) (hshort : shortBuiltin ≤ b)
    (h : ofShort offset b = .ok i) (rest : List UInt8) :
    decode offset ([UInt8.ofNat b] ++ rest) = .ok (i, 1) := by
  have hbyte : (UInt8.ofNat b).toNat = b := by
    rw [UInt8.toNat_ofNat']
    omega
  rw [List.cons_append, decode, hbyte, if_pos hshort, h]
  rfl

theorem decode_indexed {offset short idx : Nat} {op : Opcode} {make : Nat → Instruction}
    (hlong : Reads (operands offset op) (Varint.write idx) (make idx))
    (hlow : shortBuiltin ≤ short) (hhigh : short ≤ shortDefineVar)
    (hshort : idx < shortIndexLimit → ofShort offset (short + idx) = .ok (make idx))
    (rest : List UInt8) :
    decode offset (indexed short op idx ++ rest) = .ok (make idx, (indexed short op idx).length) := by
  unfold indexed
  split
  · next h =>
    have h64 : shortIndexLimit = 64 := rfl
    have hC0 : shortDefineVar = 192 := rfl
    exact decode_short (by omega) (by omega) (hshort h) rest
  · exact decode_operands hlong rest

/-- An instruction whose only operand is a varint. -/
theorem decode_withVarint {offset n : Nat} {op : Opcode} {i : Instruction}
    (h : Reads (operands offset op) (Varint.write n) i) (rest : List UInt8) :
    decode offset (withVarint op n ++ rest) = .ok (i, (withVarint op n).length) :=
  decode_operands h rest

theorem reads_makeFunction (offset : Nat) {name entry : Nat} {params : List Nat} (hname : name < 2 ^ 64)
    (hcount : params.length ≤ 255) (hparams : ∀ idx ∈ params, idx < 2 ^ 64) (hentry : entry < 2 ^ 64) :
    Reads (operands offset .makeFunction) (Varint.write name ++
      ([UInt8.ofNat params.length] ++ (params.flatMap Varint.write ++ Varint.write entry)))
      (makeFunction name params entry) := by
  refine (reads_varint _ hname).bind ((reads_byte _ (by omega)).bind ?_)
  refine (reads_times params fun idx hidx => reads_varint _ (hparams idx hidx)).bind ?_
  exact (reads_varint _ hentry).into _

theorem reads_personality (offset : Nat) {entries : List (Trait × Nat)} (hcount : entries.length ≤ 255)
    (hentries : ∀ e ∈ entries, e.2 < 2 ^ 64) :
    Reads (operands offset .personality) ([UInt8.ofNat entries.length] ++
      entries.flatMap fun e => UInt8.ofNat e.1.index :: Varint.write e.2) (personality entries) := by
  refine (reads_byte _ (by omega)).bind ((reads_times entries ?_).into personality)
  rintro ⟨t, idx⟩ hidx
  have ht := t.index.isLt
  have hid := (reads_varint (.truncated offset .personality) (hentries _ hidx)).into fun idx => (t, idx)
  rw [← List.nil_append (Varint.write _)] at hid
  refine (reads_byte _ (show (t.index : Nat) < 256 by omega)).bind ?_
  rw [Trait.ofIndex?_index]
  exact hid

/-- A call with few arguments is one byte, another has its count behind the opcode. -/
theorem decode_callBytes {argc : Nat} {discard : Bool} (h : (call argc discard).Encodable) (offset : Nat)
    (rest : List UInt8) :
    decode offset (callBytes argc discard ++ rest) = .ok (call argc discard, (callBytes argc discard).length) := by
  obtain ⟨hmax, hdrop⟩ := h
  unfold callBytes
  split
  · next hshort =>
    have hshort : argc ≤ 7 := hshort
    interval_cases argc <;> cases discard <;> rfl
  · next hlong =>
    obtain rfl : discard = false := by simpa [hlong] using hdrop
    have hlong : Reads (operands offset .call) [UInt8.ofNat argc] (call argc false) :=
      (reads_byte _ (by omega)).into fun argc => call argc false
    exact decode_operands hlong rest

/-- What `encode` writes is read back, whatever follows it. -/
theorem decode_encode {i : Instruction} (h : i.Encodable) (offset : Nat) (rest : List UInt8) :
    decode offset (i.encode ++ rest) = .ok (i, i.size) := by
  unfold size
  cases i with
  | pushConst idx =>
    have hlong : Reads (operands offset .pushConst) (Varint.write idx) (pushConst idx) :=
      (reads_varint _ h).into pushConst
    refine decode_indexed hlong (by decide) (by decide) ?_ rest
    intro hidx
    have : shortPushConst = 64 ∧ shortIndexLimit = 64 := ⟨rfl, rfl⟩
    have : shortDefineVar = 192 ∧ shortLoadVar = 128 := ⟨rfl, rfl⟩
    unfold ofShort
    rw [if_neg (by omega), if_neg (by omega), if_pos (by omega), Nat.add_sub_cancel_left]
  | loadVar idx =>
    have hlong : Reads (operands offset .loadVar) (Varint.write idx) (loadVar idx) :=
      (reads_varint _ h).into loadVar
    refine decode_indexed hlong (by decide) (by decide) ?_ rest
    intro hidx
    have : shortIndexLimit = 64 ∧ shortDefineVar = 192 ∧ shortLoadVar = 128 := ⟨rfl, rfl, rfl⟩
    unfold ofShort
    rw [if_neg (by omega), if_pos (by omega), Nat.add_sub_cancel_left]
  | defineVar idx =>
    have hlong : Reads (operands offset .defineVar) (Varint.write idx) (defineVar idx) :=
      (reads_varint _ h).into defineVar
    refine decode_indexed hlong (by decide) (by decide) ?_ rest
    intro hidx
    unfold ofShort
    rw [if_pos (by omega), Nat.add_sub_cancel_left]
  | storeVar idx =>
    have hlong : Reads (operands offset .storeVar) (Varint.write idx) (storeVar idx) :=
      (reads_varint _ h).into storeVar
    exact decode_withVarint hlong rest
  | makeArray n =>
    have hlong : Reads (operands offset .makeArray) (Varint.write n) (makeArray n) :=
      (reads_varint _ h).into makeArray
    exact decode_withVarint hlong rest
  | makeMap n =>
    have hlong : Reads (operands offset .makeMap) (Varint.write n) (makeMap n) :=
      (reads_varint _ h).into makeMap
    exact decode_withVarint hlong rest
  | jump d =>
    have hlong : Reads (operands offset .jump) (jumpBytes d) (jump d) :=
      (reads_distance _ h).into jump
    exact decode_operands hlong rest
  | jumpIfFalse d =>
    have hlong : Reads (operands offset .jumpIfFalse) (jumpBytes d) (jumpIfFalse d) :=
      (reads_distance _ h).into jumpIfFalse
    exact decode_operands hlong rest
  | forNext d =>
    have hlong : Reads (operands offset .forNext) (jumpBytes d) (forNext d) :=
      (reads_distance _ h).into forNext
    exact decode_operands hlong rest
  | call argc discard => exact decode_callBytes h offset rest
  | makeFunction name params entry =>
    obtain ⟨hname, hcount, hparams, hentry⟩ := h
    have hall := decode_operands (reads_makeFunction offset hname hcount hparams hentry) rest
    simpa [encode, withVarint] using hall
  | personality entries =>
    obtain ⟨hcount, hentries⟩ := h
    exact decode_operands (reads_personality offset hcount hentries) rest
  | loadBuiltin b => cases b <;> rfl
  | binOp op => cases op <;> rfl
  | unOp op => cases op <;> rfl
  | halt | pushNull | pushTrue | pushFalse | pop | ret | index | iterInit | extend => rfl

end Persona.Instruction
