import Persona.Bytecode.Image
import Persona.Proofs.Decimal.Exact
import Persona.Proofs.Encoding.Varint

/-! Reading back images.

`load` finds the program that `image` wrote, down to the bits of its numbers, or
the structural fault that the program has. -/
namespace Persona

/-- A program whose counts and lengths are words, with two bits left for the tag of a
text. -/
structure Bytecode.Addressable (p : Bytecode) : Prop where
  constants : p.constants.length < 2 ^ 64
  text : ∀ s, .string s ∈ p.constants → s.utf8ByteSize < 2 ^ 62
  code : p.code.length < 2 ^ 62
  entry : p.entry < 2 ^ 62

namespace Image

/-! ### Bytes -/

theorem leBytes_succ (count n : Nat) :
    leBytes (count + 1) n = UInt8.ofNat n :: leBytes count (n / 256) := by
  unfold leBytes
  rw [List.range_succ_eq_map, List.map_cons, List.map_map]
  simp only [Nat.mul_zero, Nat.shiftRight_zero, List.cons.injEq, true_and]
  apply List.map_congr_left
  intro i _
  have : n >>> (8 * (i + 1)) = (n / 256) >>> (8 * i) := by
    rw [Nat.mul_succ, Nat.add_comm, Nat.shiftRight_add, Nat.shiftRight_eq_div_pow n 8]
  simp only [Function.comp, Nat.succ_eq_add_one, this]

@[simp] theorem length_leBytes (count n : Nat) : (leBytes count n).length = count := by
  simp [leBytes]

theorem leNat_leBytes {count n : Nat} (h : n < 256 ^ count) : Reader.leNat (leBytes count n) = n := by
  induction count generalizing n with
  | zero =>
    have : n = 0 := by simpa using h
    subst this
    rfl
  | succ count ih =>
    have hrest : n / 256 < 256 ^ count := by
      apply Nat.div_lt_of_lt_mul
      rwa [Nat.mul_comm, ← Nat.pow_succ]
    have hstep : Reader.leNat (leBytes (count + 1) n) =
        (UInt8.ofNat n).toNat + 256 * Reader.leNat (leBytes count (n / 256)) := by
      rw [leBytes_succ]
      rfl
    rw [hstep, ih hrest, UInt8.toNat_ofNat']
    omega

/-- A checksum is four bytes long. -/
theorem checksum_lt (bytes : List UInt8) : Digest.checksum bytes < 256 ^ 4 := by
  have hfold : Digest.checksum bytes =
      (Digest.digest bytes).a.toNat >>> 24 % 256 + ((Digest.digest bytes).a.toNat >>> 16 % 256) <<< 8 +
        ((Digest.digest bytes).a.toNat >>> 8 % 256) <<< 16 +
        ((Digest.digest bytes).a.toNat >>> 0 % 256) <<< 24 := by
    simp [Digest.checksum, List.range_succ]
  rw [hfold]
  simp only [Nat.shiftLeft_eq]
  omega

theorem toList_eq (b : ByteArray) : b.toList = b.data.toList := by
  have hloop : ∀ (n i : Nat) (r : List UInt8), n = b.size - i → i ≤ b.size →
      ByteArray.toList.loop b i r = r.reverse ++ b.data.toList.drop i := by
    intro n
    induction n with
    | zero =>
      intro i r hn hi
      have hend : b.data.toList.length ≤ i := by
        rw [Array.length_toList]
        exact Nat.le_of_sub_eq_zero hn.symm
      rw [ByteArray.toList.loop, if_neg (by omega), List.drop_eq_nil_of_le hend, List.append_nil]
    | succ n ih =>
      intro i r hn hi
      have hlt : i < b.size := by omega
      have hlen : i < b.data.toList.length := by
        rw [Array.length_toList]
        exact hlt
      have hget : b.get! i = b.data.toList[i] := by
        rw [Array.getElem_toList]
        exact getElem!_pos b.data i hlt
      rw [ByteArray.toList.loop, if_pos hlt, ih (i + 1) _ (by omega) (by omega), hget,
        List.reverse_cons, List.append_assoc, List.drop_eq_getElem_cons hlen]
      rfl
  exact hloop b.size 0 [] (by omega) (by omega)

@[simp] theorem length_utf8 (s : String) : (utf8 s).length = s.utf8ByteSize := by
  rw [utf8, toList_eq, Array.length_toList]
  rfl

theorem fromUTF8?_utf8 (s : String) : String.fromUTF8? ⟨(utf8 s).toArray⟩ = some s := by
  have hbytes : (⟨(utf8 s).toArray⟩ : ByteArray) = s.toByteArray := by
    rw [utf8, toList_eq, Array.toArray_toList]
  rw [hbytes, String.fromUTF8?, dif_pos s.isValidUTF8]
  rfl

/-! ### Readers -/

/-- The reader takes these bytes off the front, whatever follows them. -/
def Reader.Reads (reader : Reader α) (bytes : List UInt8) (x : α) : Prop :=
  ∀ rest, reader.run (bytes ++ rest) = (.ok x, rest)

namespace Reader

theorem run_bind_ok {reader : Reader α} {next : α → Reader β} {bs cs : List UInt8} {x : α}
    (h : reader.run bs = (.ok x, cs)) : (reader >>= next).run bs = (next x).run cs := by
  have hr : reader bs = (.ok x, cs) := h
  show StateT.bind reader (ExceptT.bindCont next) bs = _
  unfold StateT.bind
  rw [hr]
  rfl

theorem run_get (bs : List UInt8) : (get : Reader (List UInt8)).run bs = (.ok bs, bs) := rfl

theorem run_set (bs cs : List UInt8) : (set cs : Reader PUnit).run bs = (.ok ⟨⟩, cs) := rfl

theorem Reads.bind {reader : Reader α} {next : α → Reader β} {bs cs : List UInt8} {x : α} {y : β}
    (h : Reads reader bs x) (h' : Reads (next x) cs y) :
    Reads (reader >>= next) (bs ++ cs) y := by
  intro rest
  rw [List.append_assoc, run_bind_ok (h (cs ++ rest)), h' rest]

theorem Reads.into {reader : Reader α} {bs : List UInt8} {x : α} (h : Reads reader bs x)
    (f : α → β) : Reads (reader >>= fun x => pure (f x)) bs (f x) := by
  intro rest
  rw [run_bind_ok (h rest)]
  rfl

theorem reads_byte (part : String) (b : UInt8) : Reads (byte part) [b] b.toNat := by
  intro rest
  rfl

theorem reads_bytes (part : String) (bs : List UInt8) : Reads (bytes part bs.length) bs bs := by
  intro rest
  unfold bytes
  rw [run_bind_ok (run_get _)]
  simp only [List.take_left, List.drop_left]
  rw [if_neg (Nat.lt_irrefl _)]
  rfl

theorem reads_varint (part : String) {n : Nat} (h : n < 2 ^ 64) :
    Reads (varint part) (Varint.write n) n := by
  intro rest
  unfold varint
  rw [run_bind_ok (run_get _)]
  simp only [Varint.read_write h, Varint.drop_length_write]
  rw [run_bind_ok (run_set _ _)]
  rfl

theorem reads_word (part : String) {count n : Nat} (h : n < 256 ^ count) :
    Reads (word part count) (leBytes count n) n := by
  have hbytes := reads_bytes part (leBytes count n)
  rw [length_leBytes] at hbytes
  intro rest
  have := (hbytes.into leNat) rest
  rw [leNat_leBytes h] at this
  exact this

/-- A length and as many bytes. -/
theorem reads_sized (part : String) {bs : List UInt8} (h : bs.length < 2 ^ 64) :
    Reads (length part >>= bytes part) (Varint.write bs.length ++ bs) bs := by
  intro rest
  have hlength : (length part).run (Varint.write bs.length ++ (bs ++ rest)) =
      (.ok bs.length, bs ++ rest) := by
    unfold length
    rw [run_bind_ok (reads_varint part h _), run_bind_ok (run_get _)]
    rw [if_neg (by rw [List.length_append]; omega)]
    rfl
  rw [List.append_assoc, run_bind_ok hlength, reads_bytes part bs rest]

end Reader
open Reader

/-! ### Constants -/

theorem zigzag_lt {i : Int} (h : i.natAbs < 2 ^ 53) : Varint.zigzag i < 2 ^ 54 := by
  cases i with
  | ofNat n =>
    simp only [Varint.zigzag]
    simp at h
    omega
  | negSucc n =>
    simp only [Varint.zigzag]
    simp at h
    omega

/-- A header and what its two parts are. -/
theorem reads_header (tag payload : Nat) (htag : tag < 4) (h : payload < 2 ^ 62) :
    Reads (varint "pool") (writeHeader tag payload) (payload * 4 + tag) ∧
      (payload * 4 + tag) / 4 = payload ∧ (payload * 4 + tag) % 4 = tag :=
  ⟨reads_varint "pool" (by omega), by omega, by omega⟩

theorem reads_integer (index : Nat) {bits : UInt64} {i : Int} (h : exactInteger? bits = some i) :
    Reads (constant index) (writeHeader tagInteger (Varint.zigzag i)) (.number bits) := by
  obtain ⟨hzero, hi⟩ : bits ≠ Float.toBits (-0.0) ∧
      Decimal.integerBelow? (2 ^ 53) (Float.ofBits bits) = some i := by
    unfold exactInteger? at h
    split at h
    · cases h
    · next hz => exact ⟨hz, h⟩
  have hlt : i.natAbs < 2 ^ 53 := by
    have := (Option.filter_eq_some_iff.1 hi).2
    simpa only [decide_eq_true_eq] using this
  have hz := zigzag_lt hlt
  obtain ⟨hreads, hpayload, htag⟩ := reads_header tagInteger (Varint.zigzag i) (by decide) (by omega)
  intro rest
  unfold constant
  rw [run_bind_ok (hreads rest), hpayload, htag, if_pos rfl, Varint.unzigzag_zigzag,
    Constant.ofFloat, Decimal.toBits_ofInt hzero hi]
  rfl

theorem reads_float (index : Nat) (bits : UInt64) :
    Reads (constant index) (writeHeader tagFloat 0 ++ leBytes 8 bits.toNat) (.number bits) := by
  have hbits : bits.toNat < 256 ^ 8 := bits.toNat_lt
  have hreads := (reads_word "pool" hbits).into fun n => Constant.number (UInt64.ofNat n)
  obtain ⟨hheader, hpayload, htag⟩ := reads_header tagFloat 0 (by decide) (by decide)
  intro rest
  unfold constant
  rw [List.append_assoc, run_bind_ok (hheader _), hpayload, htag, if_neg (by decide),
    if_pos ⟨rfl, rfl⟩, hreads rest, UInt64.ofNat_toNat]

theorem reads_string (index : Nat) {s : String} (h : s.utf8ByteSize < 2 ^ 62) :
    Reads (constant index) (writeHeader tagString s.utf8ByteSize ++ utf8 s) (.string s) := by
  obtain ⟨hheader, hpayload, htag⟩ := reads_header tagString _ (by decide) h
  have hbytes := reads_bytes "pool" (utf8 s)
  rw [length_utf8] at hbytes
  intro rest
  have hfits : ¬(utf8 s ++ rest).length < s.utf8ByteSize := by
    rw [List.length_append, length_utf8]
    omega
  have htext : text index (utf8 s) = pure s := by rw [text, fromUTF8?_utf8]
  unfold constant
  rw [List.append_assoc, run_bind_ok (hheader _), hpayload, htag, if_neg (by decide),
    if_neg (by rintro ⟨h, -⟩; cases h), if_pos rfl, run_bind_ok (run_get _), if_neg hfits]
  rw [run_bind_ok (hbytes rest), htext]
  rfl

/-- A constant is read back bit for bit. -/
theorem reads_constant (index : Nat) {c : Constant}
    (h : ∀ s, c = .string s → s.utf8ByteSize < 2 ^ 62) :
    Reads (constant index) (writeConstant c) c := by
  cases c with
  | string s => exact reads_string index (h s rfl)
  | number bits =>
    rw [writeConstant]
    split
    · next i hi => exact reads_integer index hi
    · exact reads_float index bits

theorem length_writeConstant_pos (c : Constant) : 0 < (writeConstant c).length := by
  have hheader : ∀ tag payload, 0 < (writeHeader tag payload).length := fun tag payload => by
    rw [writeHeader, Varint.length_write]
    exact Varint.length_pos _
  cases c with
  | string s =>
    have := hheader tagString s.utf8ByteSize
    rw [writeConstant, List.length_append]
    omega
  | number bits =>
    rw [writeConstant]
    split
    · exact hheader _ _
    · have := hheader tagFloat 0
      rw [List.length_append]
      omega

theorem length_le_flatMap (cs : List Constant) :
    cs.length ≤ (cs.flatMap writeConstant).length := by
  induction cs with
  | nil => exact Nat.le_refl 0
  | cons c cs ih =>
    have := length_writeConstant_pos c
    rw [List.flatMap_cons, List.length_append, List.length_cons]
    omega

theorem reads_constants (cs : List Constant)
    (h : ∀ s, .string s ∈ cs → s.utf8ByteSize < 2 ^ 62) (fuel index : Nat) (hfuel : cs.length < fuel)
    (before : List Constant) :
    Reads (constants fuel index (index + cs.length) before) (cs.flatMap writeConstant)
      (before.reverse ++ cs) := by
  induction cs generalizing fuel index before with
  | nil =>
    intro rest
    cases fuel with
    | zero => cases hfuel
    | succ fuel =>
      have hend : index = index + ([] : List Constant).length := rfl
      rw [constants, if_pos hend, List.append_nil]
      rfl
  | cons c cs ih =>
    cases fuel with
    | zero => cases hfuel
    | succ fuel =>
      rw [List.length_cons] at hfuel
      have hc := reads_constant index (c := c) fun s hs => h s (hs ▸ List.mem_cons_self ..)
      have hcs := ih (fun s hs => h s (List.mem_cons_of_mem _ hs)) fuel (index + 1) (by omega) (c :: before)
      have hcount : index + 1 + cs.length = index + (c :: cs).length := by
        rw [List.length_cons]
        omega
      rw [hcount, List.reverse_cons, List.append_assoc] at hcs
      have hne : index ≠ index + (c :: cs).length := by
        rw [List.length_cons]
        omega
      rw [constants, if_neg hne]
      exact hc.bind hcs

/-! ### Programs -/

theorem reads_program {p : Bytecode} (h : p.Addressable) : Reads program (content p) p := by
  obtain ⟨cs, code, entry⟩ := p
  obtain ⟨hcount, htexts, hcode, hentry⟩ := h
  simp only at hcount htexts hcode hentry
  intro rest
  have hmagic : Reads (bytes "header" 2) magic magic := reads_bytes "header" magic
  have hversion : Reads (byte "header") [UInt8.ofNat formatVersion] formatVersion :=
    reads_byte "header" (UInt8.ofNat formatVersion)
  have hcode : Reads (length "code" >>= bytes "code") (Varint.write code.length ++ code) code :=
    reads_sized "code" (by omega)
  have hentry := (reads_varint "entry" (n := entry) (by omega)).into fun e => Bytecode.mk cs code e
  have hbytes : content ⟨cs, code, entry⟩ ++ rest = magic ++ ([UInt8.ofNat formatVersion] ++
      (Varint.write cs.length ++ (cs.flatMap writeConstant ++
        ((Varint.write code.length ++ code ++ Varint.write entry) ++ rest)))) := by
    simp [content]
  -- The constants are as many as the header says, and no more than the bytes behind it.
  have hfuel : cs.length < (cs.flatMap writeConstant ++
      ((Varint.write code.length ++ code ++ Varint.write entry) ++ rest)).length + 1 := by
    have := length_le_flatMap cs
    rw [List.length_append]
    omega
  have hconstants := reads_constants cs htexts _ 0 hfuel []
  rw [Nat.zero_add] at hconstants
  have hlast : ((length "code" >>= bytes "code") >>= fun code => do
      return Bytecode.mk cs code (← varint "entry")).run
      (Varint.write code.length ++ code ++ Varint.write entry ++ rest) = (.ok ⟨cs, code, entry⟩, rest) :=
    (hcode.bind hentry) rest
  unfold program
  rw [hbytes, run_bind_ok (hmagic _)]
  dsimp only
  rw [if_neg (not_not_intro rfl), run_bind_ok (hversion _), if_neg (not_not_intro rfl),
    run_bind_ok (reads_varint "pool" hcount _), run_bind_ok (run_get _),
    run_bind_ok (hconstants _)]
  rw [bind_assoc] at hlast
  exact hlast

end Image

/-! ### Images -/

/-- Reading back what is written of a program comes to its structural checks. -/
theorem Bytecode.load_image_eq {p : Bytecode} (h : p.Addressable) :
    Bytecode.load p.image = (p.validate.map fun _ => p).mapError .corruption := by
  have hprogram : Image.program.run p.image =
      (.ok p, Image.leBytes 4 (Digest.checksum (Image.content p))) :=
    Image.reads_program h _
  have hword := Image.Reader.reads_word "checksum" (Image.checksum_lt (Image.content p)) []
  rw [List.append_nil] at hword
  have hlength : p.image.length - (Image.leBytes 4 (Digest.checksum (Image.content p))).length =
      (Image.content p).length := by
    rw [Bytecode.image, Image.sealed, List.length_append, Nat.add_sub_cancel]
  have htake : p.image.take (Image.content p).length = Image.content p := List.take_left
  unfold Bytecode.load
  rw [hprogram]
  simp only [hword, hlength, htake]
  rw [if_neg (not_not_intro rfl)]
  cases p.validate with
  | ok => rfl
  | error e => rfl

/-- A valid program is read back from its image, its numbers bit for bit; of one that is not
valid the reader gives the fault. -/
theorem Bytecode.load_image {p : Bytecode} (h : p.Addressable) :
    (p.validate = .ok () → Bytecode.load p.image = .ok p) ∧
      ∀ e, p.validate = .error e → Bytecode.load p.image = .error (.corruption e) := by
  rw [load_image_eq h]
  constructor
  · intro hv
    rw [hv]
    rfl
  · intro e hv
    rw [hv]
    rfl

/-- A negative zero, `2^53`, a NaN with a payload and a text. -/
theorem Bytecode.load_image_boundary :
    Bytecode.load (Bytecode.image ⟨[.number 0x8000000000000000, .number 0x4340000000000000,
      .number 0x7FF8000000000001, .string "x"], [0], 0⟩) =
        .ok ⟨[.number 0x8000000000000000, .number 0x4340000000000000,
          .number 0x7FF8000000000001, .string "x"], [0], 0⟩ := by
  refine (Bytecode.load_image ⟨by decide, ?_, by decide, by decide⟩).1 ?_
  · intro s hs
    simp only [List.mem_cons, reduceCtorEq, Constant.string.injEq, List.not_mem_nil, false_or,
      or_false] at hs
    subst hs
    decide
  · decide +kernel

end Persona
