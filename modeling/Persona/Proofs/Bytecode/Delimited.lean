import Persona.Proofs.Bytecode.RoundTrip

/-! Where an image ends.

Every part of an image says how much of it is still to come before it is looked at: a varint
by the high bits of its bytes, a text and the code by their lengths, the pool by its count. So a
reader of an image that was cut off runs out of bytes before it finds anything else wrong, and
one of an image with bytes behind it knows how many they are. -/
namespace Persona

namespace Varint

/-- A number that was cut off asks for another byte. -/
theorem read_front {n : Nat} {front : List UInt8} (hfront : front <+: write n) (hne : front ≠ write n) :
    (read front).1 = none := by
  rw [read_eq_none_iff]
  rintro ⟨g, hg, hreadable⟩
  have hwhole : g = write n := (isGroup_write n).eq_of_front hreadable.isGroup (hg.trans hfront)
  subst hwhole
  exact hne (hfront.eq_of_length_le hg.length_le)

end Varint

namespace Image

namespace Reader

/-! ### Readers that run out of bytes -/

/-- The bytes end before the reader has all that it takes. -/
def RunsOut (reader : Reader α) (bytes : List UInt8) : Prop :=
  ∃ part, (reader.run bytes).1 = .error (.truncated part)

/-- Wherever these bytes are cut off, the reader runs out. -/
def Needs (reader : Reader α) (bytes : List UInt8) : Prop :=
  ∀ front, front <+: bytes → front ≠ bytes → RunsOut reader front

theorem length_lt {front bytes : List UInt8} (h : front <+: bytes) (hne : front ≠ bytes) :
    front.length < bytes.length :=
  Nat.lt_of_le_of_ne h.length_le fun hlength => hne (h.eq_of_length hlength)

theorem needs_nil (reader : Reader α) : Needs reader [] :=
  fun _ hfront hne => absurd (List.prefix_nil.1 hfront) hne

theorem RunsOut.bind {reader : Reader α} {bytes : List UInt8} (h : RunsOut reader bytes) (next : α → Reader β) :
    RunsOut (reader >>= next) bytes := by
  obtain ⟨part, hpart⟩ := h
  refine ⟨part, ?_⟩
  show (StateT.bind reader (ExceptT.bindCont next) bytes).1 = _
  unfold StateT.bind
  cases hr : reader bytes with
  | mk r rest =>
    have hr' : (reader.run bytes).1 = r := congrArg Prod.fst hr
    rw [hpart] at hr'
    subst hr'
    rfl

/-- The bytes are cut off in what the first reader takes, or in what the next one does. -/
theorem runsOut_bind {reader : Reader α} {next : α → Reader β} {bs cs front : List UInt8} {x : α}
    (hfront : front <+: bs ++ cs) (hne : front ≠ bs ++ cs) (hneeds : Needs reader bs)
    (hreads : ∀ rest, front = bs ++ rest → reader.run front = (.ok x, rest)) (hnext : Needs (next x) cs) :
    RunsOut (reader >>= next) front := by
  by_cases hbs : bs <+: front
  · obtain ⟨rest, rfl⟩ := hbs
    obtain ⟨part, hpart⟩ := hnext rest ((List.prefix_append_right_inj bs).1 hfront) fun h => hne (congrArg _ h)
    refine ⟨part, ?_⟩
    rw [run_bind_ok (hreads rest rfl), hpart]
  · have hcut : front <+: bs :=
      (List.prefix_or_prefix_of_prefix hfront (List.prefix_append bs cs)).resolve_right hbs
    exact (hneeds front hcut fun h => hbs (h ▸ List.prefix_rfl)).bind next

theorem Needs.bind {reader : Reader α} {next : α → Reader β} {bs cs : List UInt8} {x : α}
    (h : Needs reader bs) (hreads : Reads reader bs x) (hnext : Needs (next x) cs) :
    Needs (reader >>= next) (bs ++ cs) := fun _ hfront hne =>
  runsOut_bind hfront hne h (fun rest hrest => hrest ▸ hreads rest) hnext

theorem Needs.only {reader : Reader α} {bs : List UInt8} (h : Needs reader bs) (next : α → Reader β) :
    Needs (reader >>= next) bs := fun front hfront hne => (h front hfront hne).bind next

theorem runsOut_get {next : List UInt8 → Reader α} {bytes : List UInt8} (h : RunsOut (next bytes) bytes) :
    RunsOut (get >>= next) bytes := by
  obtain ⟨part, hpart⟩ := h
  refine ⟨part, ?_⟩
  rw [run_bind_ok (run_get _), hpart]

/-! ### Bytes and numbers -/

theorem runsOut_bytes (part : String) {count : Nat} {bs : List UInt8} (h : bs.length < count) :
    RunsOut (bytes part count) bs := by
  refine runsOut_get ⟨part, ?_⟩
  simp only
  rw [if_pos (by rwa [List.take_of_length_le (Nat.le_of_lt h)])]
  rfl

theorem needs_bytes (part : String) (bs : List UInt8) : Needs (bytes part bs.length) bs :=
  fun _ hfront hne => runsOut_bytes part (length_lt hfront hne)

theorem needs_byte (part : String) (b : UInt8) : Needs (byte part) [b] := by
  intro front hfront hne
  cases front with
  | nil => exact ⟨part, rfl⟩
  | cons c cs => exact absurd (length_lt hfront hne) (by simp)

theorem needs_varint (part : String) (n : Nat) : Needs (varint part) (Varint.write n) := by
  intro front hfront hne
  refine runsOut_get ⟨part, ?_⟩
  have hnone : (Varint.read front).1 = none := Varint.read_front hfront hne
  cases hread : Varint.read front with
  | mk n? taken =>
    rw [hread] at hnone
    cases hnone
    rfl

theorem needs_word (part : String) (count n : Nat) : Needs (word part count) (leBytes count n) := by
  have hbytes := needs_bytes part (leBytes count n)
  rw [length_leBytes] at hbytes
  exact hbytes.only _

/-- A length is refused if there are fewer bytes behind it. -/
theorem needs_sized (part : String) {bs : List UInt8} (h : bs.length < 2 ^ 64) :
    Needs (length part >>= bytes part) (Varint.write bs.length ++ bs) := by
  intro front hfront hne
  have hvarint : ∀ rest, front = Varint.write bs.length ++ rest →
      (varint part).run front = (.ok bs.length, rest) :=
    fun rest hrest => hrest ▸ reads_varint part h rest
  unfold length
  refine RunsOut.bind (runsOut_bind hfront hne (needs_varint part _) hvarint ?_) _
  · intro rest hrest hrestne
    refine runsOut_get ⟨part, ?_⟩
    rw [if_pos (length_lt hrest hrestne)]
    rfl

end Reader
open Reader

/-! ### Constants -/

theorem needs_string (index : Nat) {s : String} (h : s.utf8ByteSize < 2 ^ 62) :
    Needs (constant index) (writeHeader tagString s.utf8ByteSize ++ utf8 s) := by
  obtain ⟨hheader, hpayload, htag⟩ := reads_header tagString _ (by decide) h
  unfold constant
  refine (needs_varint "pool" _).bind hheader ?_
  rw [hpayload, htag, if_neg (by decide), if_neg (by rintro ⟨h, -⟩; cases h), if_pos rfl]
  intro front hfront hne
  have hshort : front.length < s.utf8ByteSize := by
    rw [← length_utf8]
    exact length_lt hfront hne
  refine runsOut_get ⟨"pool", ?_⟩
  rw [if_pos hshort]
  rfl

theorem needs_constant (index : Nat) {c : Constant} (h : ∀ s, c = .string s → s.utf8ByteSize < 2 ^ 62) :
    Needs (constant index) (writeConstant c) := by
  cases c with
  | string s => exact needs_string index (h s rfl)
  | number bits =>
    rw [writeConstant]
    split
    · exact (needs_varint "pool" _).only _
    · obtain ⟨hheader, hpayload, htag⟩ := reads_header tagFloat 0 (by decide) (by decide)
      unfold constant
      refine (needs_varint "pool" _).bind hheader ?_
      rw [hpayload, htag, if_neg (by decide), if_pos ⟨rfl, rfl⟩]
      exact (needs_word "pool" 8 bits.toNat).only _

/-- A pool that is cut off has fewer constants than its count, or part of one. -/
theorem needs_constants (cs : List Constant) (h : ∀ s, .string s ∈ cs → s.utf8ByteSize < 2 ^ 62)
    (fuel index : Nat) (before : List Constant) :
    Needs (constants fuel index (index + cs.length) before) (cs.flatMap writeConstant) := by
  induction cs generalizing fuel index before with
  | nil => exact needs_nil _
  | cons c cs ih =>
    have hcount : index + (c :: cs).length = index + 1 + cs.length := by
      rw [List.length_cons]
      omega
    rw [hcount]
    cases fuel with
    | zero =>
      intro front _ _
      refine ⟨"pool", ?_⟩
      rw [constants, if_neg (by omega)]
      rfl
    | succ fuel =>
      have hc : ∀ s, c = .string s → s.utf8ByteSize < 2 ^ 62 := fun s hs => h s (hs ▸ List.mem_cons_self ..)
      rw [constants, if_neg (by omega)]
      refine (needs_constant index hc).bind (reads_constant index hc) ?_
      exact ih (fun s hs => h s (List.mem_cons_of_mem _ hs)) fuel (index + 1) (c :: before)

/-! ### Programs -/

/-- Code and entry, which stand behind the pool. -/
theorem needs_rest {cs : List Constant} {code : List UInt8} (entry : Nat) (h : code.length < 2 ^ 62) :
    Needs (do
        let code ← bytes "code" (← length "code")
        return Bytecode.mk cs code (← varint "entry"))
      (Varint.write code.length ++ code ++ Varint.write entry) := by
  rw [← bind_assoc]
  refine (needs_sized "code" (by omega)).bind (reads_sized "code" (by omega)) ?_
  exact (needs_varint "entry" entry).only fun e => pure (Bytecode.mk cs code e)

theorem needs_program {p : Bytecode} (h : p.Addressable) : Needs program (content p) := by
  obtain ⟨cs, code, entry⟩ := p
  obtain ⟨hcount, htexts, hcode, hentry⟩ := h
  simp only at hcount htexts hcode hentry
  have hbytes : content ⟨cs, code, entry⟩ = magic ++ ([UInt8.ofNat formatVersion] ++
      (Varint.write cs.length ++ (cs.flatMap writeConstant ++
        (Varint.write code.length ++ code ++ Varint.write entry)))) := by
    simp [content]
  rw [hbytes]
  unfold program
  refine (needs_bytes "header" magic).bind (reads_bytes "header" magic) ?_
  dsimp only
  rw [if_neg (not_not_intro rfl)]
  have hversion : Reads (byte "header") [UInt8.ofNat formatVersion] formatVersion := reads_byte _ _
  refine (needs_byte "header" _).bind hversion ?_
  rw [if_neg (not_not_intro rfl)]
  refine (needs_varint "pool" cs.length).bind (reads_varint "pool" hcount) ?_
  intro front hfront hne
  have hneeds := needs_constants cs htexts (front.length + 1) 0 []
  rw [Nat.zero_add] at hneeds
  have hreads : ∀ rest, front = cs.flatMap writeConstant ++ rest →
      (constants (front.length + 1) 0 cs.length []).run front = (.ok cs, rest) := by
    intro rest hrest
    -- The rounds are bounded by the bytes left, and a pool that is there in full has one byte a constant.
    have hfuel : cs.length < front.length + 1 := by
      have := length_le_flatMap cs
      rw [hrest, List.length_append]
      omega
    have hread := reads_constants cs htexts _ 0 hfuel [] rest
    rwa [Nat.zero_add, ← hrest] at hread
  exact runsOut_get (runsOut_bind hfront hne hneeds hreads (needs_rest entry hcode))

end Image

/-! ### Images -/

/-- An image cut off anywhere is refused for the bytes it lacks, and one with bytes behind it for
those; nothing else is found wrong with either. -/
theorem Bytecode.load_delimited {p : Bytecode} (h : p.Addressable) :
    (∀ front, front <+: p.image → front ≠ p.image →
      ∃ part, Bytecode.load front = .error (.format (.truncated part))) ∧
    ∀ rest, rest ≠ [] → Bytecode.load (p.image ++ rest) = .error (.format (.trailingBytes rest.length)) := by
  have hprogram := Image.reads_program h
  have hchecksum := Image.Reader.reads_word "checksum" (Image.checksum_lt (Image.content p))
  constructor
  · intro front hfront hne
    unfold Bytecode.load
    by_cases hcontent : Image.content p <+: front
    · obtain ⟨rest, rfl⟩ := hcontent
      have hrest := (List.prefix_append_right_inj (Image.content p)).1 hfront
      obtain ⟨part, hpart⟩ := Image.Reader.needs_word "checksum" 4 _ rest hrest fun h => hne (congrArg _ h)
      refine ⟨part, ?_⟩
      cases hword : (Image.Reader.word "checksum" 4).run rest with
      | mk r left =>
        rw [hword] at hpart
        cases hpart
        simp only [hprogram rest, hword]
    · have hcut := (List.prefix_or_prefix_of_prefix hfront (List.prefix_append _ _)).resolve_right hcontent
      obtain ⟨part, hpart⟩ := Image.needs_program h front hcut fun h => hcontent (h ▸ List.prefix_rfl)
      refine ⟨part, ?_⟩
      cases hread : Image.program.run front with
      | mk r left =>
        rw [hread] at hpart
        cases hpart
        rfl
  · intro rest hrest
    unfold Bytecode.load Bytecode.image Image.sealed
    cases rest with
    | nil => exact absurd rfl hrest
    | cons b bs => simp only [List.append_assoc, hprogram _, hchecksum (b :: bs)]

/-- A text of two bytes, cut off between them, and the whole image with a byte behind it. -/
theorem Bytecode.load_delimited_accent :
    (∃ part, Bytecode.load ((Bytecode.image ⟨[.number 0x3FE0000000000000, .string "é"], [0], 0⟩).take 15) =
      .error (.format (.truncated part))) ∧
    Bytecode.load (Bytecode.image ⟨[.number 0x3FE0000000000000, .string "é"], [0], 0⟩ ++ [0]) =
      .error (.format (.trailingBytes 1)) := by
  have hdelimited := Bytecode.load_delimited (p := ⟨[.number 0x3FE0000000000000, .string "é"], [0], 0⟩)
    ⟨by decide, by simp +decide, by decide, by decide⟩
  exact ⟨hdelimited.1 _ (List.take_prefix ..) (by decide +kernel), hdelimited.2 [0] (by decide)⟩

end Persona
