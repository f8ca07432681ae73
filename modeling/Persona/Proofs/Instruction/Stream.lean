import Persona.Proofs.Instruction.RoundTrip

/-! Codes as streams of instructions.

An instruction takes bytes from the front only, at least one and no more than there
are, and these bytes are the same instruction wherever they stand. So there is one way
to cut a code into instructions, each of which begins where the one before it ends, up to
its end or to a place that is no instruction. A code that decodes from end to end is a list
of instructions. -/
namespace Persona.Instruction

/-! ### Bytes that an instruction takes -/

namespace Operands

/-- What the operand gives it takes from some bytes at the front, and the other operand gives
the same for these bytes, whatever follows them. -/
def Takes (operand other : Operands α) : Prop :=
  ∀ u x v, operand.run u = .ok (x, v) →
    ∃ front, u.bytes = front ++ v.bytes ∧ v.taken = u.taken + front.length ∧ Reads other front x

theorem takes_pure (x : α) : Takes (pure x) (pure x) := by
  intro u y v h
  cases h
  exact ⟨[], rfl, rfl, reads_pure x⟩

theorem takes_orThrow (e e' : DecodeError) (x : Option α) : Takes (orThrow e x) (orThrow e' x) := by
  cases x with
  | some x => exact takes_pure x
  | none =>
    intro u y v h
    cases h

theorem Takes.bind {operand other : Operands α} {next next' : α → Operands β} (h : Takes operand other)
    (h' : ∀ x, Takes (next x) (next' x)) : Takes (operand >>= next) (other >>= next') := by
  intro u y w hrun
  rw [StateT.run_bind] at hrun
  cases hfirst : operand.run u with
  | error e =>
    rw [hfirst] at hrun
    cases hrun
  | ok r =>
    obtain ⟨x, v⟩ := r
    rw [hfirst] at hrun
    obtain ⟨front, hbytes, htaken, hreads⟩ := h u x v hfirst
    obtain ⟨more, hbytes', htaken', hreads'⟩ := h' x v y w hrun
    refine ⟨front ++ more, ?_, ?_, hreads.bind hreads'⟩
    · rw [hbytes, hbytes', List.append_assoc]
    · rw [htaken', htaken, List.length_append, Nat.add_assoc]

theorem takes_byte (short short' : DecodeError) : Takes (byte short) (byte short') := by
  rintro ⟨bytes, taken⟩ x v h
  cases bytes with
  | nil => cases h
  | cons b bs =>
    cases h
    exact ⟨[b], rfl, rfl, fun _ _ => rfl⟩

theorem takes_varint (short short' : DecodeError) : Takes (varint short) (varint short') := by
  rintro ⟨bytes, taken⟩ x v h
  simp only [varint, StateT.run_bind, StateT.run_get, pure_bind] at h
  cases hr : Varint.read bytes with
  | mk result k =>
    rw [hr] at h
    cases result with
    | none => cases h
    | some n =>
      cases h
      obtain ⟨g, ⟨rest, rfl⟩, hreadable, rfl, rfl⟩ := Varint.read_eq_iff.1 hr
      exact ⟨g, by rw [List.drop_left], rfl, reads_group short' hreadable⟩

theorem takes_distance (short short' : DecodeError) : Takes (distance short) (distance short') :=
  (takes_byte _ _).bind fun _ => (takes_byte _ _).bind fun _ => takes_pure _

theorem takes_times {operand other : Operands α} (h : Takes operand other) (n : Nat) :
    Takes (times operand n) (times other n) := by
  induction n with
  | zero => exact takes_pure []
  | succ n ih => exact h.bind fun x => ih.bind fun xs => takes_pure (x :: xs)

end Operands
open Operands

/-- The offset of an opcode goes only into messages. -/
theorem takes_operands (offset offset' : Nat) (op : Opcode) :
    Takes (operands offset op) (operands offset' op) := by
  cases op with
  | makeFunction =>
    refine (takes_varint _ _).bind fun _ => (takes_byte _ _).bind fun argc => ?_
    exact (takes_times (takes_varint _ _) argc).bind fun _ => (takes_varint _ _).bind fun _ => takes_pure _
  | personality =>
    refine (takes_byte _ _).bind fun count => (takes_times ?_ count).bind fun _ => takes_pure _
    refine (takes_byte _ _).bind fun id => (takes_orThrow _ _ _).bind fun t => ?_
    exact (takes_varint _ _).bind fun _ => takes_pure _
  | loadBuiltin =>
    exact (takes_byte _ _).bind fun id => (takes_orThrow _ _ _).bind fun _ => takes_pure _
  | binOp => exact (takes_byte _ _).bind fun code => (takes_orThrow _ _ _).bind fun _ => takes_pure _
  | unOp => exact (takes_byte _ _).bind fun code => (takes_orThrow _ _ _).bind fun _ => takes_pure _
  | call => exact (takes_byte _ _).bind fun _ => takes_pure _
  | jump | jumpIfFalse | forNext => exact (takes_distance _ _).bind fun _ => takes_pure _
  | pushConst | loadVar | storeVar | defineVar | makeArray | makeMap =>
    exact (takes_varint _ _).bind fun _ => takes_pure _
  | halt | pushNull | pushTrue | pushFalse | pop | ret | index | iterInit | extend =>
    exact takes_pure _

theorem decode_nil (offset : Nat) : decode offset [] = .error (.truncated offset .halt) := rfl

theorem ok_of_map {f : α → β} {x : Except ε α} {y : β} (h : x.map f = .ok y) :
    ∃ a, x = .ok a ∧ f a = y := by
  cases x with
  | error e => cases h
  | ok a => exact ⟨a, rfl, Except.ok.inj h⟩

/-- The two ways in which bytes are an instruction. -/
theorem decode_cons {offset n : Nat} {b : UInt8} {bs : List UInt8} {i : Instruction} :
    decode offset (b :: bs) = .ok (i, n) ↔
      (shortBuiltin ≤ b.toNat ∧ ofShort offset b.toNat = .ok i ∧ n = 1) ∨
        ¬shortBuiltin ≤ b.toNat ∧ ∃ op u, Opcode.ofByte? b = some op ∧
          (operands offset op).run ⟨bs, 1⟩ = .ok (i, u) ∧ u.taken = n := by
  rw [decode]
  by_cases hb : shortBuiltin ≤ b.toNat
  · rw [if_pos hb]
    constructor
    · intro h
      obtain ⟨j, hj, he⟩ := ok_of_map h
      cases he
      exact .inl ⟨hb, hj, rfl⟩
    · rintro (⟨-, hj, rfl⟩ | ⟨hnot, -⟩)
      · rw [hj]
        rfl
      · exact absurd hb hnot
  · rw [if_neg hb]
    constructor
    · intro h
      cases hop : Opcode.ofByte? b with
      | none =>
        rw [hop] at h
        cases h
      | some op =>
        rw [hop] at h
        obtain ⟨⟨j, u⟩, hu, he⟩ := ok_of_map h
        cases he
        exact .inr ⟨hb, op, u, rfl, hu, rfl⟩
    · rintro (⟨hshort, -⟩ | ⟨-, op, u, hop, hu, rfl⟩)
      · exact absurd hshort hb
      · simp only [hop, hu]
        rfl

theorem ofShort_offset {offset b : Nat} {i : Instruction} (h : ofShort offset b = .ok i) (offset' : Nat) :
    ofShort offset' b = .ok i := by
  unfold ofShort at h ⊢
  split_ifs at h ⊢
  · exact h
  · exact h
  · exact h
  · exact h
  · cases hbuiltin : Builtin.ofIndex? (b - shortBuiltin) with
    | some builtin =>
      simp only [hbuiltin] at h ⊢
      exact h
    | none =>
      simp only [hbuiltin] at h
      cases h

/-- An instruction takes some bytes at the front, at least one, and these are the same
instruction at every offset, whatever follows them. -/
theorem decode_front {offset n : Nat} {bytes : List UInt8} {i : Instruction}
    (h : decode offset bytes = .ok (i, n)) :
    ∃ front rest, bytes = front ++ rest ∧ front.length = n ∧ 0 < n ∧
      ∀ offset' rest', decode offset' (front ++ rest') = .ok (i, n) := by
  cases bytes with
  | nil => cases h
  | cons b bs =>
    rcases decode_cons.1 h with ⟨hshort, hi, rfl⟩ | ⟨hlong, op, u, hop, hrun, rfl⟩
    · exact ⟨[b], bs, rfl, rfl, Nat.one_pos, fun offset' rest' =>
        decode_cons.2 (.inl ⟨hshort, ofShort_offset hi offset', rfl⟩)⟩
    · obtain ⟨front, hbytes, htaken, -⟩ := takes_operands offset offset op _ _ _ hrun
      have hlength : (b :: front).length = u.taken := by
        rw [htaken, List.length_cons, Nat.add_comm]
      refine ⟨b :: front, u.bytes, congrArg (b :: ·) hbytes, hlength, ?_, fun offset' rest' => ?_⟩
      · rw [← hlength]
        exact Nat.succ_pos _
      · obtain ⟨front', hbytes', -, hreads⟩ := takes_operands offset offset' op _ _ _ hrun
        obtain rfl := List.append_cancel_right (hbytes.symm.trans hbytes')
        exact decode_cons.2 (.inr ⟨hlong, op, _, hop, hreads rest' 1, htaken.symm⟩)

/-- An instruction takes at least one byte and no more than there are. -/
theorem decode_taken {offset n : Nat} {bytes : List UInt8} {i : Instruction}
    (h : decode offset bytes = .ok (i, n)) : 0 < n ∧ n ≤ bytes.length := by
  obtain ⟨front, rest, rfl, rfl, hpos, -⟩ := decode_front h
  exact ⟨hpos, by simp⟩

/-! ### Jumps -/

theorem eq_of_jumpTarget? {next target : Nat} {d : Int} (h : jumpTarget? next d = some target) :
    (next : Int) + d = target := by
  unfold jumpTarget? at h
  split at h
  · next n hsum =>
    cases h
    exact hsum
  · cases h

theorem ofShort_jumpDistance? {offset b : Nat} {i : Instruction} (h : ofShort offset b = .ok i) :
    i.jumpDistance? = none := by
  unfold ofShort at h
  split_ifs at h
  · cases h
    rfl
  · cases h
    rfl
  · cases h
    rfl
  · cases h
    rfl
  · simp only at h
    split at h
    · cases h
      rfl
    · cases h

/-- Every result of an operand has a property. -/
def Operands.Yields (operand : Operands α) (p : α → Prop) : Prop :=
  ∀ u x v, operand.run u = .ok (x, v) → p x

namespace Operands

theorem yields_pure {x : α} {p : α → Prop} (h : p x) : Yields (pure x) p := by
  intro u y v hrun
  cases hrun
  exact h

theorem yields_bind {operand : Operands α} {next : α → Operands β} {p : β → Prop}
    (h : ∀ x, Yields (next x) p) : Yields (operand >>= next) p := by
  intro u y w hrun
  rw [StateT.run_bind] at hrun
  cases hfirst : operand.run u with
  | error e =>
    rw [hfirst] at hrun
    cases hrun
  | ok r =>
    rw [hfirst] at hrun
    exact h r.1 r.2 y w hrun

theorem distance_taken {short : DecodeError} {u v : Unread} {d : Int}
    (h : (distance short).run u = .ok (d, v)) : v.taken = u.taken + 2 := by
  obtain ⟨bytes, taken⟩ := u
  match bytes with
  | [] => cases h
  | [_] => cases h
  | _ :: _ :: _ =>
    cases h
    rfl

end Operands

/-- The bytes behind an opcode give an instruction of that opcode. -/
theorem yields_opcode (offset : Nat) (op : Opcode) :
    Yields (operands offset op) fun i => i.opcode = op := by
  cases op with
  | makeFunction =>
    exact yields_bind fun _ => yields_bind fun _ => yields_bind fun _ => yields_bind fun _ => yields_pure rfl
  | personality => exact yields_bind fun _ => yields_bind fun _ => yields_pure rfl
  | loadBuiltin | binOp | unOp => exact yields_bind fun _ => yields_bind fun _ => yields_pure rfl
  | call | jump | jumpIfFalse | forNext | pushConst | loadVar | storeVar | defineVar | makeArray
  | makeMap =>
    exact yields_bind fun _ => yields_pure rfl
  | halt | pushNull | pushTrue | pushFalse | pop | ret | index | iterInit | extend =>
    exact yields_pure rfl

/-- A jump takes three bytes. -/
theorem decode_jump {offset n : Nat} {bytes : List UInt8} {i : Instruction} {d : Int}
    (h : decode offset bytes = .ok (i, n)) (hjump : i.jumpDistance? = some d) : n = 3 := by
  cases bytes with
  | nil => cases h
  | cons b bs =>
    rcases decode_cons.1 h with ⟨-, hs, -⟩ | ⟨-, op, u, -, hrun, rfl⟩
    · rw [ofShort_jumpDistance? hs] at hjump
      cases hjump
    have hop := yields_opcode offset op _ _ _ hrun
    have hdistance : ∀ make : Int → Instruction,
        (do return make (← distance (.truncated offset op)) : Operands Instruction).run ⟨bs, 1⟩ =
          .ok (i, u) → u.taken = 3 := by
      intro make hmake
      rw [StateT.run_bind] at hmake
      cases hd : (distance (.truncated offset op)).run ⟨bs, 1⟩ with
      | error e =>
        rw [hd] at hmake
        cases hmake
      | ok r =>
        rw [hd] at hmake
        cases hmake
        exact distance_taken hd
    cases i with
    | jump d' =>
      cases hop
      exact hdistance _ hrun
    | jumpIfFalse d' =>
      cases hop
      exact hdistance _ hrun
    | forNext d' =>
      cases hop
      exact hdistance _ hrun
    | _ => cases hjump

/-! ### Offsets -/

theorem toList_table_go (code : List UInt8) (offset : Nat)
    (before : Array (Except DecodeError (Instruction × Nat))) :
    (table.go offset code before).toList = before.toList ++ (List.range code.length).map fun k =>
      (decode (offset + k) (code.drop k)).map fun (i, n) => (i, offset + k + n) := by
  induction code generalizing offset before with
  | nil => simp [table.go]
  | cons b bs ih =>
    rw [table.go, ih, List.length_cons, List.range_succ_eq_map]
    simp [Nat.add_assoc, Nat.add_comm 1]

/-- The table has at every offset what stands there. -/
theorem table_getD (code : List UInt8) (offset : Nat) :
    (table code).getD offset (.error (.truncated offset .halt)) = decodeAt code offset := by
  have hlist := toList_table_go code 0 #[]
  simp only [List.nil_append, Nat.zero_add] at hlist
  rw [Array.getD_eq_getD_getElem?, ← Array.getElem?_toList, table, hlist]
  by_cases h : offset < code.length
  · simp [h, decodeAt]
  · have hdrop : code.drop offset = [] := List.drop_eq_nil_of_le (by omega)
    simp [h, decodeAt, hdrop, decode_nil, Except.map]

theorem decodeAt_ok {code : List UInt8} {offset next : Nat} {i : Instruction} :
    decodeAt code offset = .ok (i, next) ↔
      ∃ n, decode offset (code.drop offset) = .ok (i, n) ∧ next = offset + n := by
  unfold decodeAt
  constructor
  · intro h
    obtain ⟨⟨j, n⟩, hd, he⟩ := ok_of_map h
    cases he
    exact ⟨n, hd, rfl⟩
  · rintro ⟨n, hd, rfl⟩
    rw [hd]
    rfl

/-- Where an instruction has been put it is found. -/
theorem decodeAt_encode {i : Instruction} (h : i.Encodable) (front rest : List UInt8) :
    decodeAt (front ++ (i.encode ++ rest)) front.length = .ok (i, front.length + i.size) := by
  rw [decodeAt, List.drop_left, decode_encode h]
  rfl

/-- An instruction goes forward, and not behind the end. -/
theorem decodeAt_bounds {code : List UInt8} {offset next : Nat} {i : Instruction}
    (h : decodeAt code offset = .ok (i, next)) : offset < next ∧ next ≤ code.length := by
  obtain ⟨n, hd, rfl⟩ := decodeAt_ok.1 h
  obtain ⟨hpos, hle⟩ := decode_taken hd
  rw [List.length_drop] at hle
  omega

/-! ### Streams -/

/-- From an offset on the code is cut into instructions, each of which begins where the one
before it ends, up to the end of the code or to the first place that is no instruction. -/
inductive Cuts (code : List UInt8) : Nat → List (Nat × Instruction) → Option DecodeError → Prop
  | finished : Cuts code code.length [] none
  | broken {offset : Nat} {e : DecodeError} :
    offset < code.length → decodeAt code offset = .error e → Cuts code offset [] (some e)
  | piece {offset next : Nat} {i : Instruction} {is : List (Nat × Instruction)} {e : Option DecodeError} :
    decodeAt code offset = .ok (i, next) → Cuts code next is e → Cuts code offset ((offset, i) :: is) e

/-- There is one way to cut a code. -/
theorem Cuts.unique {code : List UInt8} {offset : Nat} {is is' : List (Nat × Instruction)}
    {e e' : Option DecodeError} (h : Cuts code offset is e) (h' : Cuts code offset is' e') :
    is = is' ∧ e = e' := by
  induction h generalizing is' e' with
  | finished =>
    cases h' with
    | finished => exact ⟨rfl, rfl⟩
    | broken hlt => exact absurd hlt (Nat.lt_irrefl _)
    | piece hd =>
      obtain ⟨hlt, hle⟩ := decodeAt_bounds hd
      omega
  | broken hlt hd =>
    cases h' with
    | finished => exact absurd hlt (Nat.lt_irrefl _)
    | broken _ hd' =>
      rw [hd] at hd'
      cases hd'
      exact ⟨rfl, rfl⟩
    | piece hd' =>
      rw [hd] at hd'
      cases hd'
  | piece hd _ ih =>
    cases h' with
    | finished =>
      obtain ⟨hlt, hle⟩ := decodeAt_bounds hd
      omega
    | broken _ hd' =>
      rw [hd] at hd'
      cases hd'
    | piece hd' hrest =>
      rw [hd] at hd'
      cases hd'
      obtain ⟨rfl, rfl⟩ := ih hrest
      exact ⟨rfl, rfl⟩

/-- As many rounds as there are bytes left are enough, because every instruction takes one. -/
theorem cuts_stream {code : List UInt8} {fuel offset : Nat} (hfuel : code.length ≤ offset + fuel)
    (hle : offset ≤ code.length) (before : Array (Nat × Instruction)) :
    ∃ is e, stream fuel offset (code.drop offset) before = (before ++ is.toArray, e) ∧
      Cuts code offset is e := by
  induction fuel generalizing offset before with
  | zero =>
    obtain rfl : offset = code.length := by omega
    exact ⟨[], none, by simp [stream], .finished⟩
  | succ fuel ih =>
    cases hbytes : code.drop offset with
    | nil =>
      rw [List.drop_eq_nil_iff] at hbytes
      obtain rfl : offset = code.length := by omega
      exact ⟨[], none, by simp [stream], .finished⟩
    | cons b bs =>
      have hlength := congrArg List.length hbytes
      rw [List.length_drop, List.length_cons] at hlength
      have hlt : offset < code.length := by omega
      rw [stream]
      cases hd : decode offset (b :: bs) with
      | error e =>
        refine ⟨[], some e, by simp, .broken hlt ?_⟩
        rw [decodeAt, hbytes, hd]
        rfl
      | ok r =>
        obtain ⟨i, n⟩ := r
        have hat : decodeAt code offset = .ok (i, offset + n) :=
          decodeAt_ok.2 ⟨n, hbytes ▸ hd, rfl⟩
        obtain ⟨hpos, hend⟩ := decodeAt_bounds hat
        obtain ⟨is, e, hstream, hcuts⟩ := ih (by omega) hend (before.push (offset, i))
        rw [← List.drop_drop, hbytes] at hstream
        refine ⟨(offset, i) :: is, e, ?_, .piece hat hcuts⟩
        simp only [hstream]
        simp

theorem decodeAll_eq_iff_cuts {code : List UInt8} {is : List (Nat × Instruction)} {e : Option DecodeError} :
    decodeAll code = (is, e) ↔ Cuts code 0 is e := by
  obtain ⟨js, e', hstream, hcuts⟩ := cuts_stream (Nat.le_add_left ..) (Nat.zero_le code.length) #[]
  rw [List.drop_zero] at hstream
  have hall : decodeAll code = (js, e') := by
    rw [decodeAll, hstream]
    simp
  rw [hall]
  constructor
  · intro h
    cases h
    exact hcuts
  · intro h
    obtain ⟨rfl, rfl⟩ := hcuts.unique h
    rfl

/-- The bytes from an offset on are instructions from end to end, each at its offset. -/
inductive Decodes : Nat → List UInt8 → List (Nat × Instruction) → Prop
  | nil (offset : Nat) : Decodes offset [] []
  | cons {offset n : Nat} {bytes : List UInt8} {i : Instruction} {is : List (Nat × Instruction)} :
    decode offset bytes = .ok (i, n) → Decodes (offset + n) (bytes.drop n) is →
      Decodes offset bytes ((offset, i) :: is)

theorem Cuts.decodes {code : List UInt8} {offset : Nat} {is : List (Nat × Instruction)}
    (h : Cuts code offset is none) : Decodes offset (code.drop offset) is := by
  generalize he : (none : Option DecodeError) = e at h
  induction h with
  | finished =>
    rw [List.drop_length]
    exact .nil _
  | broken => cases he
  | piece hd _ ih =>
    obtain ⟨n, hn, rfl⟩ := decodeAt_ok.1 hd
    refine .cons hn ?_
    rw [List.drop_drop]
    exact ih he

theorem Decodes.cuts {code : List UInt8} {offset : Nat} {is : List (Nat × Instruction)}
    (h : Decodes offset (code.drop offset) is) (hle : offset ≤ code.length) : Cuts code offset is none := by
  generalize hbytes : code.drop offset = bytes at h
  induction h with
  | nil =>
    rw [List.drop_eq_nil_iff] at hbytes
    obtain rfl := Nat.le_antisymm hle hbytes
    exact .finished
  | cons hd _ ih =>
    subst hbytes
    have hat := decodeAt_ok.2 ⟨_, hd, rfl⟩
    exact .piece hat (ih (decodeAt_bounds hat).2 List.drop_drop.symm)

theorem decodeAll_eq_iff {code : List UInt8} {is : List (Nat × Instruction)} :
    decodeAll code = (is, none) ↔ Decodes 0 code is := by
  rw [decodeAll_eq_iff_cuts]
  exact ⟨Cuts.decodes, fun h => Decodes.cuts h (Nat.zero_le _)⟩

theorem Decodes.begins {offset : Nat} {bytes : List UInt8} {is : List (Nat × Instruction)}
    (h : Decodes offset bytes is) : bytes = [] ∨ ∃ i rest, is = (offset, i) :: rest := by
  cases h with
  | nil => exact .inl rfl
  | cons => exact .inr ⟨_, _, rfl⟩

/-- Every instruction of a stream stands where the stream says, and the stream goes on
behind it, up to the end of the code. -/
theorem Decodes.decodeAt {code : List UInt8} {offset : Nat} {is : List (Nat × Instruction)}
    (h : Decodes offset (code.drop offset) is) {o : Nat} {i : Instruction} (hmem : (o, i) ∈ is) :
    o < code.length ∧ ∃ next, Instruction.decodeAt code o = .ok (i, next) ∧
      (next = code.length ∨ ∃ j, (next, j) ∈ is) := by
  generalize hb : code.drop offset = bytes at h
  induction h with
  | nil => cases hmem
  | cons hd hrest ih =>
    next offset n bytes i' is =>
    obtain ⟨hpos, hle⟩ := decode_taken hd
    have hlen : bytes.length = code.length - offset := by rw [← hb, List.length_drop]
    have hdrop : code.drop (offset + n) = bytes.drop n := by rw [← hb, List.drop_drop]
    rcases List.mem_cons.1 hmem with heq | htail
    · cases heq
      refine ⟨by omega, o + n, decodeAt_ok.2 ⟨n, hb ▸ hd, rfl⟩, ?_⟩
      rcases hrest.begins with hend | ⟨j, rest, rfl⟩
      · rw [List.drop_eq_nil_iff] at hend
        exact .inl (by omega)
      · exact .inr ⟨j, List.mem_cons_of_mem _ (List.mem_cons_self ..)⟩
    · obtain ⟨ho, next, hnext, hgoes⟩ := ih htail hdrop
      refine ⟨ho, next, hnext, ?_⟩
      rcases hgoes with hend | ⟨j, hj⟩
      · exact .inl hend
      · exact .inr ⟨j, List.mem_cons_of_mem _ hj⟩

/-! ### Written streams -/

/-- Instructions with their offsets when they are written from an offset on. -/
def located : Nat → List Instruction → List (Nat × Instruction)
  | _, [] => []
  | offset, i :: is => (offset, i) :: located (offset + i.size) is

theorem exists_located {is : List Instruction} {i : Instruction} (h : i ∈ is) (offset : Nat) :
    ∃ o, (o, i) ∈ located offset is := by
  induction is generalizing offset with
  | nil => cases h
  | cons j is ih =>
    rcases List.mem_cons.1 h with rfl | htail
    · exact ⟨offset, List.mem_cons_self ..⟩
    · obtain ⟨o, ho⟩ := ih htail (offset + j.size)
      exact ⟨o, List.mem_cons_of_mem _ ho⟩

theorem mem_of_mem_located {is : List Instruction} {offset : Nat} {x : Nat × Instruction}
    (h : x ∈ located offset is) : x.2 ∈ is := by
  induction is generalizing offset with
  | nil => cases h
  | cons j is ih =>
    rcases List.mem_cons.1 h with rfl | htail
    · exact List.mem_cons_self ..
    · exact List.mem_cons_of_mem _ (ih htail)

theorem decodes_located {is : List Instruction} (h : ∀ i ∈ is, i.Encodable) (offset : Nat) :
    Decodes offset (is.flatMap encode) (located offset is) := by
  induction is generalizing offset with
  | nil => exact .nil offset
  | cons i is ih =>
    rw [List.flatMap_cons]
    refine .cons (decode_encode (h i (List.mem_cons_self ..)) offset _) ?_
    rw [size, List.drop_left]
    exact ih (fun j hj => h j (List.mem_cons_of_mem _ hj)) _

end Persona.Instruction
