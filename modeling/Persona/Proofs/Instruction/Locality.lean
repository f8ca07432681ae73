import Persona.Proofs.Instruction.Stream

/-! Where instructions stand.

Whoever has found an instruction in a code may move its bytes elsewhere, change what stands around
them or go on behind them: the bytes alone say which instruction they are and how many they are. So
one walk over a code, from each instruction to the end of its bytes, meets all of the code up to its end
or to the first place that is no instruction. -/
namespace Persona.Instruction

/-- The same bytes are the same instruction in every code and at every offset. -/
theorem decodeAt_local {code code' : List UInt8} {offset offset' next : Nat} {i : Instruction}
    (h : decodeAt code offset = .ok (i, next))
    (hsame : (code'.drop offset').take (next - offset) = (code.drop offset).take (next - offset)) :
    decodeAt code' offset' = .ok (i, offset' + (next - offset)) := by
  obtain ⟨n, hd, rfl⟩ := decodeAt_ok.1 h
  rw [Nat.add_sub_cancel_left] at hsame ⊢
  obtain ⟨front, rest, hbytes, rfl, -, hlocal⟩ := decode_front hd
  rw [hbytes, List.take_left] at hsame
  have hfront : code'.drop offset' = front ++ (code'.drop offset').drop front.length := by
    conv_lhs => rw [← List.take_append_drop front.length (code'.drop offset'), hsame]
  refine decodeAt_ok.2 ⟨front.length, ?_, rfl⟩
  rw [hfront]
  exact hlocal offset' _

/-- A jump takes three bytes wherever it stands. -/
theorem decodeAt_jump {code : List UInt8} {offset next : Nat} {i : Instruction}
    (h : decodeAt code offset = .ok (i, next)) (hjump : i.jumpDistance?.isSome = true) :
    next = offset + 3 := by
  obtain ⟨n, hd, rfl⟩ := decodeAt_ok.1 h
  obtain ⟨d, hd'⟩ := Option.isSome_iff_exists.1 hjump
  rw [decode_jump hd hd']

/-- Every piece has a byte of its own. -/
theorem Cuts.length_le {code : List UInt8} {offset : Nat} {is : List (Nat × Instruction)}
    {e : Option DecodeError} (h : Cuts code offset is e) : offset + is.length ≤ code.length := by
  induction h with
  | finished => exact Nat.le_refl _
  | broken hlt => exact Nat.le_of_lt hlt
  | piece hd _ ih =>
    have hlt := (decodeAt_bounds hd).1
    rw [List.length_cons]
    omega

/-- An instruction ends behind its offset and inside the code, and its bytes are the same
instruction in any other code and at any other offset; a jump is three bytes long. Reading all of a
code comes to an end, with no more instructions than bytes, and gives the one way to cut the code into
instructions up to its end or to a place that is none. -/
theorem decodes_locally (code : List UInt8) :
    (∀ offset i next, decodeAt code offset = .ok (i, next) →
      (offset < next ∧ next ≤ code.length) ∧
      (∀ code' offset',
        (code'.drop offset').take (next - offset) = (code.drop offset).take (next - offset) →
          decodeAt code' offset' = .ok (i, offset' + (next - offset))) ∧
      (i.jumpDistance?.isSome = true → next = offset + 3)) ∧
    (∀ is e, decodeAll code = (is, e) ↔ Cuts code 0 is e) ∧
    (decodeAll code).1.length ≤ code.length := by
  refine ⟨?_, fun is e => decodeAll_eq_iff_cuts, ?_⟩
  · intro offset i next h
    exact ⟨decodeAt_bounds h, fun code' offset' => decodeAt_local h, decodeAt_jump h⟩
  · have hcuts : Cuts code 0 (decodeAll code).1 (decodeAll code).2 := decodeAll_eq_iff_cuts.1 rfl
    have hle := hcuts.length_le
    rwa [Nat.zero_add] at hle

/-- A function of two parameters, a jump back, and a byte that is no opcode. -/
def brokenOff : List UInt8 := [0x12, 0x00, 0x02, 0x01, 0x02, 0x07, 0x0B, 0xFD, 0xFF, 0x1F, 0x05]

theorem decodes_locally_brokenOff :
    decodeAt brokenOff 0 = .ok (makeFunction 0 [1, 2] 7, 6) ∧
      decodeAt (0x05 :: brokenOff.take 6) 1 = .ok (makeFunction 0 [1, 2] 7, 7) ∧
      decodeAt brokenOff 6 = .ok (jump (-3), 6 + 3) ∧
      Cuts brokenOff 0 [(0, makeFunction 0 [1, 2] 7), (6, jump (-3))] (some (.unknownOpcode 9 0x1F)) := by
  have hfunction : decodeAt brokenOff 0 = .ok (makeFunction 0 [1, 2] 7, 6) := by decide +kernel
  have hjump : decodeAt brokenOff 6 = .ok (jump (-3), 9) := by decide +kernel
  obtain ⟨hdecode, hcuts, -⟩ := decodes_locally brokenOff
  obtain ⟨-, hlocal, -⟩ := hdecode 0 _ _ hfunction
  obtain ⟨-, -, hthree⟩ := hdecode 6 _ _ hjump
  refine ⟨hfunction, hlocal _ 1 (by decide +kernel), ?_, (hcuts _ _).1 (by decide +kernel)⟩
  rw [← hthree rfl]
  exact hjump

end Persona.Instruction
